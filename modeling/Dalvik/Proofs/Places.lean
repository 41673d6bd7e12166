import Dalvik.Proofs.Rewriting

/-!
Where a splice puts everything. All that a method says about places, in its jumps, in its handlers and in the bounds of
its ranges, moves along one map, so that it is about places again.
-/

namespace Dalvik

namespace Code

instance (code : Code) (a : Address) : Decidable (code.HasPlace a) :=
  inferInstanceAs (Decidable (∃ n, n ≤ code.length ∧ code.addressAt n = a))

variable {code new : Code} {index removed : Nat} {retarget : Bool}

theorem landing_of_removed {added i : Nat} (hFrom : index ≤ i) (hUntil : i < index + removed) :
    landing index removed added retarget i = index := by
  unfold landing survivor?
  rw [if_neg (Nat.not_lt_of_le hFrom), if_pos hUntil, Option.getD_none, ite_self]

theorem landing_of_taken {added : Nat} : landing index removed added true index = index := by
  simp [landing]

/-- What comes later lands later. -/
theorem landing_mono {added i j : Nat} (h : i ≤ j) :
    landing index removed added retarget i ≤ landing index removed added retarget j := by
  unfold landing survivor?
  grind

theorem landing_le_length (hEnd : index + removed ≤ code.length) {i : Nat} (hi : i < code.length) :
    landing index removed new.length retarget i ≤ (code.spliced index removed new).length := by
  rw [length_spliced hEnd]
  unfold landing survivor?
  grind

end Code

namespace Method

/-- All that a method says about places is about instructions and the end of its body. -/
structure Placed (m : Method) : Prop where
  targets : ∀ i ∈ m.code, ∀ t ∈ i.targets, m.code.HasPlace t
  handlers : ∀ h ∈ m.handlers, m.code.HasPlace h.target
  bounded : m.Bounded

instance (m : Method) : Decidable m.Placed :=
  decidable_of_iff
    ((∀ i ∈ m.code, ∀ t ∈ i.targets, m.code.HasPlace t) ∧ (∀ h ∈ m.handlers, m.code.HasPlace h.target) ∧
      ∀ b ∈ m.tries, m.code.HasPlace b.start ∧ m.code.HasPlace b.stop)
    ⟨fun ⟨hTargets, hHandlers, hBounded⟩ => ⟨hTargets, hHandlers, hBounded⟩,
      fun h => ⟨h.targets, h.handlers, h.bounded⟩⟩

/-- A method comes from another one by putting `new` in place of `removed` instructions from a position on. The
relocation tells for every instruction that is left where it is, and for every place where control goes that went
there. If control that went to the position is to go to what is inserted before it, `retarget` holds. -/
structure Replaces (m m' : Method) (r : Relocation) (index removed : Nat) (new : Code) (retarget : Bool) : Prop where
  rest : m' = { m with code := m'.code, tries := m'.tries }
  code : m'.code =
    (m.code.take index ++ new ++ m.code.drop (index + removed)).map (Instruction.mapTargets r.label)
  tries : m'.tries = (m.tries.map (TryBlock.relocate r)).filter fun b => b.start < b.stop
  addresses : m'.code.addresses =
    (List.range m'.code.length).map fun i => ((m'.code.take i).map Instruction.size).sum
  insns : ∀ a b, r.insn? a = some b ↔ ∃ i < m.code.length, m.code.addressAt i = a ∧
    (i < index ∧ b = m'.code.addressAt i ∨
      index + removed ≤ i ∧ b = m'.code.addressAt (i - removed + new.length))
  labels : ∀ a, (r.labels.lookup a).isSome = true ↔ m.code.HasPlace a
  mono : ∀ a b, m.code.HasPlace a → m.code.HasPlace b → a ≤ b → r.label a ≤ r.label b
  survivor : ∀ a b, r.insn? a = some b → (removed = 0 → retarget = true → a ≠ m.code.addressAt index) →
    r.label a = b
  taken : index < m.code.length → removed = 0 → retarget = true →
    r.label (m.code.addressAt index) = m'.code.addressAt index
  removed : ∀ i, index ≤ i → i < index + removed → r.label (m.code.addressAt i) = m'.code.addressAt index
  stop : r.label m.stop = m'.stop

variable {m : Method} {index removed : Nat} {new : Code} {retarget : Bool}

/-- Places go to places that are in the same order. -/
theorem splice_label_mono (hEnd : index + removed ≤ m.code.length) {a b : Address} (ha : m.code.HasPlace a)
    (hb : m.code.HasPlace b) (hLess : a ≤ b) :
    (m.splice index removed new retarget).2.label a ≤ (m.splice index removed new retarget).2.label b := by
  obtain ⟨i, hi, rfl⟩ := ha
  obtain ⟨j, hj, rfl⟩ := hb
  have hOrder := (Code.addressAt_le_iff hi hj).mp hLess
  rcases Nat.lt_or_eq_of_le hj with hBefore | rfl
  · have hFirst := Nat.lt_of_le_of_lt hOrder hBefore
    rw [splice_label_addressAt hFirst, splice_label_addressAt hBefore, splice_addressAt, splice_addressAt,
      Code.addressAt_le_iff (Code.landing_le_length hEnd hFirst) (Code.landing_le_length hEnd hBefore)]
    exact Code.landing_mono hOrder
  · rcases Nat.lt_or_eq_of_le hi with hFirst | rfl
    · rw [splice_label_addressAt hFirst, splice_label_stop, splice_length, splice_addressAt, splice_addressAt,
        Code.addressAt_le_iff (Code.landing_le_length hEnd hFirst) (Nat.le_refl _)]
      exact Code.landing_le_length hEnd hFirst
    · exact Nat.le_refl _

/-- A splice tells of the places of the body, and of nothing else. -/
theorem splice_lookup_isSome {a : Address} :
    ((m.splice index removed new retarget).2.labels.lookup a).isSome = true ↔ m.code.HasPlace a := by
  constructor
  · intro hSome
    obtain ⟨b, hb⟩ := Option.isSome_iff_exists.mp hSome
    have hKey := Lookup.mem_of_lookup hb
    rw [splice_relocation_labels, List.mem_append, List.mem_map, List.mem_singleton] at hKey
    rcases hKey with ⟨i, hi, hSame⟩ | hSame
    · exact ⟨i, Nat.le_of_lt (List.mem_range.mp hi), (Prod.mk.inj hSame).1⟩
    · refine ⟨m.code.length, Nat.le_refl _, ?_⟩
      rw [Code.addressAt_length, (Prod.mk.inj hSame).1, Method.stop]
  · intro hPlace
    rw [splice_lookup hPlace]
    rfl

theorem splice_replaces (hEnd : index + removed ≤ m.code.length) :
    m.Replaces (m.splice index removed new retarget).1 (m.splice index removed new retarget).2 index removed new
      retarget where
  rest := rfl
  code := rfl
  tries := rfl
  addresses := Code.addresses_eq_sums _
  insns a b := by
    rw [splice_insn?, Option.map_eq_some_iff]
    constructor
    · rintro ⟨j, hMove, rfl⟩
      obtain ⟨i, hIndex, hSurvives⟩ := Option.bind_eq_some_iff.mp hMove
      obtain ⟨hi, hAddress⟩ := Code.indexOf?_eq_some_iff.mp hIndex
      refine ⟨i, hi, hAddress, ?_⟩
      rcases Code.survivor?_eq_some_iff.mp hSurvives with ⟨hBefore, rfl⟩ | ⟨hAfter, rfl⟩
      · exact .inl ⟨hBefore, rfl⟩
      · exact .inr ⟨hAfter, rfl⟩
    · rintro ⟨i, hi, rfl, hPlace⟩
      rw [Code.indexOf?_addressAt hi]
      rcases hPlace with ⟨hBefore, rfl⟩ | ⟨hAfter, rfl⟩
      · exact ⟨i, Code.survivor?_eq_some_iff.mpr (.inl ⟨hBefore, rfl⟩), rfl⟩
      · exact ⟨_, Code.survivor?_eq_some_iff.mpr (.inr ⟨hAfter, rfl⟩), rfl⟩
  labels a := splice_lookup_isSome
  mono a b ha hb hLess := splice_label_mono hEnd ha hb hLess
  survivor a b hInsn hElsewhere := by
    rw [splice_insn?, Option.map_eq_some_iff] at hInsn
    obtain ⟨j, hMove, rfl⟩ := hInsn
    obtain ⟨i, hIndex, hSurvives⟩ := Option.bind_eq_some_iff.mp hMove
    obtain ⟨hi, rfl⟩ := Code.indexOf?_eq_some_iff.mp hIndex
    rw [splice_label_addressAt hi]
    have hLands : Code.landing index removed new.length retarget i = j ∨ i = index ∧ retarget = true ∧ _ :=
      Code.landing_of_survivor hSurvives
    rcases hLands with hThere | ⟨rfl, hTaken, _⟩
    · rw [hThere]
    · -- what stands at the position has survived only if nothing is removed
      have hNone : removed = 0 := by
        have hPlace := Code.survivor?_eq_some_iff.mp hSurvives
        omega
      exact absurd rfl (hElsewhere hNone hTaken)
  taken hHere _ hTaken := by
    rw [splice_label_addressAt hHere, hTaken, Code.landing_of_taken]
  removed i hFrom hUntil := by
    rw [splice_label_addressAt (by omega), Code.landing_of_removed hFrom hUntil]
  stop := by
    have hStop : (m.splice index removed new retarget).2.label (m.code.addressAt m.code.length) = _ :=
      splice_label_stop
    rwa [Code.addressAt_length, Code.addressAt_length] at hStop

/-- A splice changes nothing but the code and the ranges of handlers. What it brings jumps to places of the old body;
all these, and those that the method has mentioned, are places of the new one. -/
theorem Placed.splice (h : m.Placed) (hEnd : index + removed ≤ m.code.length)
    (hNew : ∀ i ∈ new, ∀ t ∈ i.targets, m.code.HasPlace t) : (m.splice index removed new retarget).1.Placed where
  targets i hi t ht := by
    rw [splice_code] at hi
    obtain ⟨old, hOld, rfl⟩ := List.mem_map.mp hi
    rw [Instruction.targets_mapTargets] at ht
    obtain ⟨u, hu, rfl⟩ := List.mem_map.mp ht
    refine hasPlace_splice_label hEnd ?_
    simp only [Code.spliced, List.mem_append] at hOld
    rcases hOld with (hBefore | hInserted) | hAfter
    · exact h.targets old (List.mem_of_mem_take hBefore) u hu
    · exact hNew old hInserted u hu
    · exact h.targets old (List.mem_of_mem_drop hAfter) u hu
  handlers k hk := by
    obtain ⟨old, hOld, hTarget⟩ := mem_splice_handlers hk
    rw [hTarget]
    exact hasPlace_splice_label hEnd (h.handlers old hOld)
  bounded b hb := by
    obtain ⟨old, hOld, rfl⟩ := List.mem_map.mp (List.mem_filter.mp hb).1
    exact ⟨hasPlace_splice_label hEnd (h.bounded old hOld).1, hasPlace_splice_label hEnd (h.bounded old hOld).2⟩

/-- A splice within the body is carried out. It puts the new instructions in place of the removed ones, moves all places
that are mentioned along its map, and leaves a method that mentions only places of its own. -/
theorem trySplice_replaces (m : Method) (index removed : Nat) (new : Code) (retarget : Bool)
    (hEnd : index + removed ≤ m.code.length) (hPlaced : m.Placed)
    (hNew : ∀ i ∈ new, ∀ t ∈ i.targets, m.code.HasPlace t) :
    ∃ m' r, m.trySplice index removed new retarget = .ok (m', r) ∧
      m.Replaces m' r index removed new retarget ∧ m'.Placed :=
  ⟨_, _, if_pos hEnd, splice_replaces hEnd, hPlaced.splice hEnd hNew⟩

/-- A method that counts down and divides, with a range of handlers around the division. -/
def countingMethod : Method where
  reference := ⟨⟨"La;"⟩, "count", [.int], .int⟩
  flags := { static := true }
  locals := 1
  code :=
    [.branch .lt 1 none 9, .binary .div .int 0 1 (.register 1), .binary .add .int 1 1 (.literal (-1)), .goto 0,
      .moveException 0, .returnValue 1]
  tries := [⟨2, 4, [⟨none, 9⟩]⟩]

/-- What is inserted before the division takes the jump over it. The range begins with what is inserted, since control
that went to its start goes there. -/
theorem trySplice_replaces_countingMethod :
    countingMethod.Placed ∧ (∀ i ∈ ([.branch .eq 1 none 4] : Code), ∀ t ∈ i.targets, countingMethod.code.HasPlace t) ∧
      ∃ m' r, countingMethod.trySplice 1 0 [.branch .eq 1 none 4] true = .ok (m', r) ∧
        countingMethod.Replaces m' r 1 0 [.branch .eq 1 none 4] true ∧ m'.Placed ∧
          m'.code[1]? = some (.branch .eq 1 none 6) ∧ m'.tries = [⟨2, 6, [⟨none, 11⟩]⟩] := by
  obtain ⟨m', r, hSplice, hReplaces, hPlaced⟩ :=
    trySplice_replaces countingMethod 1 0 [.branch .eq 1 none 4] true (by decide) (by decide) (by decide)
  refine ⟨by decide, by decide, m', r, hSplice, hReplaces, hPlaced, ?_⟩
  obtain ⟨rfl, rfl⟩ := Prod.mk.inj (Except.ok.inj ((if_pos (by decide)).symm.trans hSplice))
  decide

end Method

end Dalvik
