import Dalvik.Proofs.Clearing

/-!
Handlers under edits. The bounds of a range go where control goes that went there, so that a range covers what is left of
the instructions in it, and of what is inserted just as much as it covers the instruction that it is inserted for.
-/

namespace Dalvik

namespace Code

variable {code new : Code} {index removed i k n : Nat} {retarget : Bool}

/-- Where control lands that went to a place of a body, which may be its end. -/
def landingPlace (code new : Code) (index removed : Nat) (retarget : Bool) (n : Nat) : Nat :=
  if n < code.length then landing index removed new.length retarget n else (code.spliced index removed new).length

theorem landingPlace_le_length (hEnd : index + removed ≤ code.length) :
    code.landingPlace new index removed retarget n ≤ (code.spliced index removed new).length := by
  unfold landingPlace
  split
  · rename_i hn
    exact landing_le_length hEnd hn
  · exact Nat.le_refl _

/-- What is before a splice is after the same places as before. -/
theorem landingPlace_le_before (hEnd : index + removed ≤ code.length) (hi : i < index) :
    code.landingPlace new index removed retarget n ≤ i ↔ n ≤ i := by
  unfold landingPlace landing survivor?
  rw [length_spliced hEnd]
  grind

/-- What is left behind a splice is after the same places as before. -/
theorem landingPlace_le_after (hEnd : index + removed ≤ code.length) (hi : index + removed ≤ i) (hLess : i < code.length)
    (hn : n ≤ code.length) :
    code.landingPlace new index removed retarget n ≤ i - removed + new.length ↔ n ≤ i := by
  unfold landingPlace landing survivor?
  rw [length_spliced hEnd]
  grind

/-- The instruction that a splice inserts something for. What is put in place of an instruction, or before it so that
control that goes there comes by, is inserted for that one. What control that goes to the next instruction does not come
by is inserted for the one before. -/
def InsertedFor (index removed : Nat) (retarget : Bool) (i : Nat) : Prop :=
  i = index ∧ (removed = 1 ∨ removed = 0 ∧ retarget = true) ∨ i + 1 = index ∧ removed = 0 ∧ retarget = false

/-- What is inserted for an instruction is after the same places as that was. -/
theorem landingPlace_le_inserted (hEnd : index + removed ≤ code.length) (h : InsertedFor index removed retarget i)
    (hLess : i < code.length) (hk : k < new.length) :
    code.landingPlace new index removed retarget n ≤ index + k ↔ n ≤ i := by
  unfold InsertedFor at h
  unfold landingPlace landing survivor?
  rw [length_spliced hEnd]
  grind

end Code

namespace Method

variable {m m' : Method} {index removed i j n : Nat} {new : Code} {retarget : Bool}

theorem splice_label_landingPlace (hn : n ≤ m.code.length) :
    (m.splice index removed new retarget).2.label (m.code.addressAt n) =
      (m.splice index removed new retarget).1.code.addressAt (m.code.landingPlace new index removed retarget n) := by
  unfold Code.landingPlace
  split
  · rename_i hLess
    exact splice_label_addressAt hLess
  · rename_i hNot
    obtain rfl : n = m.code.length := Nat.le_antisymm hn (Nat.le_of_not_lt hNot)
    rw [splice_label_stop, splice_length]

/-- What is after a splice where something was before is handled as that. -/
theorem splice_handlersAt (hBounded : m.Bounded) (hEnd : index + removed ≤ m.code.length) (hi : i < m.code.length)
    (hj : j ≤ (m.splice index removed new retarget).1.code.length)
    (hAlike : ∀ n ≤ m.code.length, m.code.landingPlace new index removed retarget n ≤ j ↔ n ≤ i) :
    (m.splice index removed new retarget).1.handlersAt ((m.splice index removed new retarget).1.code.addressAt j) =
      (m.handlersAt (m.code.addressAt i)).map (Handler.retarget (m.splice index removed new retarget).2.label) := by
  have hPlace {n : Nat} (hn : n ≤ m.code.length) :
      (m.splice index removed new retarget).2.label (m.code.addressAt n) ≤
        (m.splice index removed new retarget).1.code.addressAt j ↔ m.code.addressAt n ≤ m.code.addressAt i := by
    rw [splice_label_landingPlace hn, Code.addressAt_le_iff (splice_length ▸ Code.landingPlace_le_length hEnd) hj,
      Code.addressAt_le_iff hn (Nat.le_of_lt hi)]
    exact hAlike n hn
  refine handlersAt_relocate rfl fun b hb => ?_
  obtain ⟨⟨s, hs, hStart⟩, t, ht, hStop⟩ := hBounded b hb
  rw [TryBlock.covers, TryBlock.covers, TryBlock.relocate, ← hStart, ← hStop, Bool.eq_iff_iff]
  simp only [Bool.and_eq_true, decide_eq_true_eq, ← Nat.not_le]
  rw [hPlace hs, hPlace ht]

/-- A method has come from another one by putting `new` in place of `removed` instructions from a position on. What is left
is handled as before, and everything new as one instruction was: by the same types in the same order, with the targets
moved. -/
structure Guards (m m' : Method) (label : Address → Address) (index removed : Nat) (new : Code) (i : Nat) : Prop where
  code : m'.code = (m.code.take index ++ new ++ m.code.drop (index + removed)).map (Instruction.mapTargets label)
  before : ∀ n < index, m'.handlersAt (m'.code.addressAt n) = (m.handlersAt (m.code.addressAt n)).map (Handler.retarget label)
  after : ∀ n < m.code.length, index + removed ≤ n →
    m'.handlersAt (m'.code.addressAt (n - removed + new.length)) =
      (m.handlersAt (m.code.addressAt n)).map (Handler.retarget label)
  added : ∀ k < new.length,
    m'.handlersAt (m'.code.addressAt (index + k)) = (m.handlersAt (m.code.addressAt i)).map (Handler.retarget label)

theorem splice_guards (hBounded : m.Bounded) (hEnd : index + removed ≤ m.code.length) (hi : i < m.code.length)
    (hFor : Code.InsertedFor index removed retarget i) :
    m.Guards (m.splice index removed new retarget).1 (m.splice index removed new retarget).2.label index removed new i where
  code := rfl
  before n hn := by
    refine splice_handlersAt hBounded hEnd (by omega) ?_ fun _ _ => Code.landingPlace_le_before hEnd hn
    rw [splice_length, Code.length_spliced hEnd]
    omega
  after n hn hAfter := by
    refine splice_handlersAt hBounded hEnd hn ?_ fun _ => Code.landingPlace_le_after hEnd hAfter hn
    rw [splice_length, Code.length_spliced hEnd]
    omega
  added k hk := by
    refine splice_handlersAt hBounded hEnd hi ?_ fun _ _ => Code.landingPlace_le_inserted hEnd hFor hi hk
    rw [splice_length, Code.length_spliced hEnd]
    omega

end Method

namespace Edit

variable {d : Draft} {as : List Address}

/-- What is left by a removal is handled as before. -/
theorem removeAll_guards (hBounded : d.graph.method.Bounded) {r : Relocation} {d' : Draft}
    (h : removeAll as d = (.ok r, d')) :
    d'.graph.method.code = (d.graph.method.code.kept as).map (fun p => p.2.mapTargets r.label) ∧
      ∀ a i, d.graph.method.code.at? a = some i → a ∉ as →
        d'.graph.method.code.at? (r.label a) = some (i.mapTargets r.label) ∧
          d'.graph.method.handlersAt (r.label a) = (d.graph.method.handlersAt a).map (Handler.retarget r.label) := by
  cases hCheck : d.graph.checkRemoval (Graph.ascending as) with
  | error e =>
      rw [removeAll_of_error hCheck] at h
      cases h
  | ok _ =>
      obtain ⟨_, hTargets, hHandlers⟩ := Graph.lands_of_checkRemoval hCheck
      obtain ⟨r', g, label, hRun, hThinned, _, hLabels⟩ := removeAll_thins hBounded hCheck
      obtain ⟨hOk, rfl⟩ := Prod.mk.inj (hRun.symm.trans h)
      obtain rfl := Except.ok.inj hOk
      obtain ⟨rank, hSifted⟩ := hThinned.sifted
      have hInsn {a : Address} {i : Instruction Address} (hi : d.graph.method.code.at? a = some i) (ha : a ∉ as) :
          i.mapTargets label = i.mapTargets r'.label :=
        Instruction.mapTargets_congr fun t ht =>
          (hLabels t (hTargets (a, i) (Code.mem_kept.mpr ⟨hi, ha⟩) t ht).hasAddress.hasPlace).symm
      refine ⟨hSifted.eq_map_kept.trans (List.map_congr_left fun p hp => ?_), fun a i hi ha => ?_⟩
      · obtain ⟨hi, ha⟩ := Code.mem_kept.mp hp
        exact hInsn hi ha
      · have hHere := Code.hasAddress_of_at? hi
        have hSpared := (Code.spared_of_not_mem ha).trans hi
        rw [hLabels a hHere.hasPlace, hThinned.insn hHere hSpared, hThinned.handlers a i hHere hSpared, hInsn hi ha]
        refine ⟨rfl, List.map_congr_left fun k hk => ?_⟩
        obtain ⟨b, hb, _, hMem⟩ := Method.mem_handlersAt.mp hk
        have hTarget := hHandlers k (List.mem_flatMap.mpr ⟨b, hb, hMem⟩)
        rw [Handler.retarget, Handler.retarget, hLabels _ hTarget.hasAddress.hasPlace]

/-- Edits keep what handles. An edit at an instruction succeeds and leaves everything else handled as before, and what it
inserts as the instruction that it is inserted for. So does a removal that is accepted with what it leaves. -/
theorem edits_guard (d : Draft) (hBounded : d.graph.method.Bounded) :
    (∀ a p i, d.graph.method.code.indexOf? a = some p →
      ∃ r g, insertBefore a i d = (.ok r, { d with graph := g }) ∧ d.graph.method.Guards g.method r.label p 0 [i] p) ∧
    (∀ a p i, d.graph.method.code.indexOf? a = some p →
      ∃ r g, insertAfter a i d = (.ok r, { d with graph := g }) ∧ d.graph.method.Guards g.method r.label (p + 1) 0 [i] p) ∧
    (∀ a p new, d.graph.method.code.indexOf? a = some p →
      ∃ r g, replaceMany a new d = (.ok r, { d with graph := g }) ∧ d.graph.method.Guards g.method r.label p 1 new p) ∧
    ∀ as r d', removeAll as d = (.ok r, d') →
      d'.graph.method.code = (d.graph.method.code.kept as).map (fun p => p.2.mapTargets r.label) ∧
        ∀ a i, d.graph.method.code.at? a = some i → a ∉ as →
          d'.graph.method.code.at? (r.label a) = some (i.mapTargets r.label) ∧
            d'.graph.method.handlersAt (r.label a) =
              (d.graph.method.handlersAt a).map (Handler.retarget r.label) := by
  refine ⟨fun a p i hp => ?_, fun a p i hp => ?_, fun a p new hp => ?_, fun as r d' h => removeAll_guards hBounded h⟩
  all_goals have hLess := (Code.indexOf?_eq_some_iff.mp hp).1
  · rw [insertBefore, index_bind, hp]
    refine ⟨_, _, rfl, ?_⟩
    rw [Graph.relocate_method]
    exact Method.splice_guards hBounded (Nat.le_of_lt hLess) hLess (.inl ⟨rfl, .inr ⟨rfl, rfl⟩⟩)
  · rw [insertAfter, index_bind, hp]
    refine ⟨_, _, rfl, ?_⟩
    rw [Graph.relocate_method]
    exact Method.splice_guards hBounded hLess hLess (.inr ⟨rfl, rfl, rfl⟩)
  · rw [replaceMany, index_bind, hp]
    refine ⟨_, _, rfl, ?_⟩
    rw [Graph.relocate_method]
    exact Method.splice_guards hBounded hLess hLess (.inl ⟨rfl, .inl rfl⟩)

/-- What is inserted after the division, which a range ends with, is in the range. What is inserted before the sum, which is
after the division, is not. The division stays in the range when the sum is removed. -/
theorem edits_guard_countingMethod :
    let d : Draft := ⟨.start Method.countingMethod (State.blank 1 1), false⟩
    Method.countingMethod.Bounded ∧ Method.countingMethod.code.indexOf? 2 = some 1 ∧
      Method.countingMethod.code.indexOf? 4 = some 2 ∧
      (∃ r g, insertAfter 2 .nop d = (.ok r, ⟨g, false⟩) ∧
        Method.countingMethod.Guards g.method r.label 2 0 [.nop] 1 ∧ g.method.handlersAt 4 = [⟨none, 10⟩]) ∧
      (∃ r g, insertBefore 4 .nop d = (.ok r, ⟨g, false⟩) ∧
        Method.countingMethod.Guards g.method r.label 2 0 [.nop] 2 ∧ g.method.handlersAt 4 = []) ∧
      ∃ r g, removeAll [4] d = (.ok r, ⟨g, false⟩) ∧ r.label 2 = 2 ∧
        g.method.handlersAt (r.label 2) = (Method.countingMethod.handlersAt 2).map (Handler.retarget r.label) := by
  have hBounded : Method.countingMethod.Bounded := (by decide : Method.countingMethod.Placed).bounded
  obtain ⟨hBefore, hAfter, _, hRemoval⟩ := edits_guard ⟨.start Method.countingMethod (State.blank 1 1), false⟩ hBounded
  obtain ⟨r, g, hRun, hGuards⟩ := hAfter 2 1 .nop (by decide)
  obtain ⟨r', g', hRun', hGuards'⟩ := hBefore 4 2 .nop (by decide)
  have hThere : (insertAfter 2 .nop ⟨.start Method.countingMethod (State.blank 1 1), false⟩).2.graph.method.handlersAt 4 =
      [⟨none, 10⟩] := by decide +kernel
  have hThere' :
      (insertBefore 4 .nop ⟨.start Method.countingMethod (State.blank 1 1), false⟩).2.graph.method.handlersAt 4 = [] := by
    decide +kernel
  have hLabel : (removeAll [4] ⟨.start Method.countingMethod (State.blank 1 1), false⟩).1.toOption.map
      (fun r => r.label 2) = some 2 := by decide +kernel
  have hStale : (removeAll [4] ⟨.start Method.countingMethod (State.blank 1 1), false⟩).2.stale = false := by
    decide +kernel
  rw [hRun] at hThere
  rw [hRun'] at hThere'
  refine ⟨hBounded, by decide, by decide, ⟨r, g, hRun, hGuards, hThere⟩, ⟨r', g', hRun', hGuards', hThere'⟩, ?_⟩
  rcases hResult : removeAll [4] ⟨.start Method.countingMethod (State.blank 1 1), false⟩ with ⟨e | moved, g₀, stale⟩ <;>
    rw [hResult] at hLabel hStale
  · cases hLabel
  · obtain rfl : stale = false := hStale
    exact ⟨moved, g₀, rfl, Option.some.inj hLabel, ((hRemoval [4] moved _ hResult).2 2 _ rfl (by decide)).2⟩

end Edit

end Dalvik
