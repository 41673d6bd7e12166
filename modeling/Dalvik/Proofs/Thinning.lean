import Dalvik.Proofs.Carrying

/-!
Methods from which instructions have been removed, one after another, together with their executions. What
is left has kept its order, its jumps and its handlers.
-/

namespace Dalvik

namespace Code

/-- The instructions of a body by their addresses, without those at some addresses. -/
def spared (code : Code) (as : List Address) (a : Address) : Option (Instruction Address) :=
  if a ∈ as then none else code.at? a

variable {code : Code} {as : List Address} {a : Address}

@[simp] theorem spared_nil : code.spared [] = code.at? := by
  funext a
  simp [spared]

theorem spared_of_mem (h : a ∈ as) : code.spared as a = none := if_pos h

theorem spared_of_not_mem (h : a ∉ as) : code.spared as a = code.at? a := if_neg h

theorem spared_congr {bs : List Address} (h : ∀ a, a ∈ as ↔ a ∈ bs) : code.spared as = code.spared bs := by
  funext a
  simp only [spared, h]

/-- What is spared is there. -/
theorem spared_eq_some_iff {i : Instruction Address} :
    code.spared as a = some i ↔ a ∉ as ∧ code.at? a = some i := by
  unfold spared
  split <;> simp_all

end Code

namespace Method

variable {m m' m'' : Method} {label label' : Address → Address}
  {stands stands' stands'' : Address → Option (Instruction Address)}

theorem sifted_refl (code : Code) : Sifted code code id code.at? id where
  place n _ := rfl
  first := rfl
  last := rfl
  kept n hn j hj := by
    rw [Code.at?_addressAt (List.getElem?_eq_getElem hn)] at hj
    rw [Instruction.mapTargets_id]
    exact ⟨rfl, (List.getElem?_eq_getElem hn).trans hj⟩
  gone n hn hNone := by
    rw [Code.at?_addressAt (List.getElem?_eq_getElem hn)] at hNone
    cases hNone

theorem Sifted.lt_of_kept {code code' : Code} {rank : Nat → Nat} (h : Sifted code code' label stands rank)
    {n : Nat} (hn : n < code.length) {j : Instruction Address} (hj : stands (code.addressAt n) = some j) :
    rank n < code'.length :=
  (List.getElem?_eq_some_iff.mp (h.kept n hn j hj).2).1

/-- What is left goes on to what is left after it, unless all of that is gone. -/
theorem Sifted.next {code code' : Code} {rank : Nat → Nat} (h : Sifted code code' label stands rank) {a b : Address}
    {j : Instruction Address} (hj : stands a = some j) (hNext : code.next? a = some b) :
    code'.next? (label a) = some (label b) ∨
      code'.next? (label a) = none ∧ ∀ x, code.HasAddress x → b ≤ x → stands x = none := by
  obtain ⟨n, hn, hLess, rfl⟩ := Code.next?_eq_some_iff.mp hNext
  obtain ⟨hBound, rfl⟩ := Code.indexOf?_eq_some_iff.mp hn
  have hRank := (h.kept n hBound j hj).1
  have hMore := h.bound (Nat.succ_le_of_lt hBound)
  rw [h.place _ (Nat.le_of_lt hLess), h.place _ (Nat.le_of_lt hBound), hRank]
  rw [Nat.succ_eq_add_one, hRank] at hMore
  rcases Nat.lt_or_eq_of_le hMore with hThere | hEnd
  · exact .inl (Code.next?_addressAt hThere)
  · refine .inr ⟨Code.next?_addressAt_last hEnd.symm, fun x hx hAfter => ?_⟩
    obtain ⟨k, hk, rfl⟩ := hx
    rw [Code.addressAt_le_iff (Nat.le_of_lt hLess) (Nat.le_of_lt hk)] at hAfter
    by_contra hStands
    obtain ⟨i, hi⟩ := Option.ne_none_iff_exists'.mp hStands
    have hLast := Nat.lt_of_le_of_lt (h.mono hAfter (Nat.le_of_lt hk)) (h.lt_of_kept hk hi)
    rw [hRank, hEnd] at hLast
    exact absurd hLast (Nat.lt_irrefl _)

theorem Sifted.trans {code code' code'' : Code} {rank rank' : Nat → Nat}
    (h : Sifted code code' label stands rank) (h' : Sifted code' code'' label' stands' rank')
    (hStands : ∀ a, code.HasAddress a →
      ((stands a).bind fun _ => stands' (label a)) = (stands'' a).map (Instruction.mapTargets label)) :
    Sifted code code'' (label' ∘ label) stands'' (rank' ∘ rank) where
  place n hn := by
    rw [Function.comp_apply, h.place n hn, h'.place _ (h.bound hn)]
    rfl
  first := by rw [Function.comp_apply, h.first, h'.first]
  last := by rw [Function.comp_apply, h.last, h'.last]
  kept n hn j hj := by
    have hBoth := hStands _ (Code.hasAddress_addressAt hn)
    rw [hj] at hBoth
    obtain ⟨i, hi, hThere⟩ := Option.bind_eq_some_iff.mp hBoth
    have hHere := h.lt_of_kept hn hi
    rw [h.place n (Nat.le_of_lt hn)] at hThere
    obtain ⟨hNext, hInsn⟩ := h'.kept _ hHere _ hThere
    refine ⟨?_, ?_⟩
    · rw [Function.comp_apply, (h.kept n hn i hi).1, hNext]
      rfl
    · rw [Function.comp_apply, hInsn, Instruction.mapTargets_mapTargets]
  gone n hn hNone := by
    rw [Function.comp_apply, Function.comp_apply]
    cases hi : stands (code.addressAt n) with
    | none => rw [h.gone n hn hi]
    | some i =>
        have hBoth := hStands _ (Code.hasAddress_addressAt hn)
        rw [hi, hNone, h.place n (Nat.le_of_lt hn)] at hBoth
        rw [(h.kept n hn i hi).1]
        exact h'.gone _ (h.lt_of_kept hn hi) hBoth

theorem ranked_refl (code : Code) : Ranked code code id code.at? id where
  place := (sifted_refl code).place
  first := rfl
  last := rfl
  kept := (sifted_refl code).kept
  gone n hn hNone := absurd ((sifted_refl code).gone n hn hNone) (Nat.succ_ne_self n)

theorem Ranked.trans {code code' code'' : Code} {rank rank' : Nat → Nat}
    (h : Ranked code code' label stands rank) (h' : Ranked code' code'' label' stands' rank')
    (hStands : ∀ a, code.HasAddress a →
      ((stands a).bind fun _ => stands' (label a)) = (stands'' a).map (Instruction.mapTargets label)) :
    Ranked code code'' (label' ∘ label) stands'' (rank' ∘ rank) := by
  have hSifted := h.sifted.trans h'.sifted hStands
  refine ⟨hSifted.place, hSifted.first, hSifted.last, hSifted.kept, fun n hn hNone => ⟨?_, hSifted.gone n hn hNone⟩⟩
  cases hi : stands (code.addressAt n) with
  | none => exact (h.gone n hn hi).1
  | some i =>
      -- what was kept first is not the last one in between, and so neither is it before
      have hBoth := hStands _ (Code.hasAddress_addressAt hn)
      rw [hi, hNone, h.place n (Nat.le_of_lt hn)] at hBoth
      have hMore := (h'.gone _ (h.rank_lt hn) hBoth).1
      by_contra hEnd
      have hLast := h.last
      rw [show code.length = n + 1 by omega, (h.kept n hn i hi).1] at hLast
      omega

/-- A method is what removals have left of another one. `label` says where the places of the old method are
in the new one, and `stands` which of its instructions have been kept. -/
structure Thinned (m m' : Method) (label : Address → Address)
    (stands : Address → Option (Instruction Address)) : Prop where
  sifted : ∃ rank, Sifted m.code m'.code label stands rank
  handlers : ∀ a j, m.code.HasAddress a → stands a = some j →
    m'.handlersAt (label a) = (m.handlersAt a).map (Handler.retarget label)
  bounded : m'.Bounded

theorem Thinned.refl (hBounded : m.Bounded) : m.Thinned m id m.code.at? :=
  ⟨⟨_, sifted_refl m.code⟩, fun _ _ _ _ => (List.map_id _).symm, hBounded⟩

/-- An instruction has been removed. -/
theorem thinned_without (hBounded : m.Bounded) {p : Nat} (hp : p < m.code.length) :
    m.Thinned (m.without p) (m.splice p 1 [] false).2.label (m.code.exchanged p none) where
  sifted := ⟨_, sifted_without hp⟩
  handlers a j ha hj := handlersAt_relocate rfl fun b hb =>
    (sifted_without hp).covers_relocate (hBounded b hb).1 (hBounded b hb).2 ha hj
  bounded b hb := by
    obtain ⟨old, hOld, rfl⟩ := List.mem_map.mp (List.mem_filter.mp hb).1
    exact ⟨(sifted_without hp).hasPlace (hBounded old hOld).1,
      (sifted_without hp).hasPlace (hBounded old hOld).2⟩

namespace Thinned

theorem insn (h : m.Thinned m' label stands) {a : Address} {j : Instruction Address}
    (ha : m.code.HasAddress a) (hj : stands a = some j) :
    m'.code.at? (label a) = some (j.mapTargets label) := by
  obtain ⟨rank, hSifted⟩ := h.sifted
  obtain ⟨n, hn, rfl⟩ := ha
  rw [hSifted.place n (Nat.le_of_lt hn)]
  exact Code.at?_addressAt (hSifted.kept n hn j hj).2

theorem trans (h : m.Thinned m' label stands) (h' : m'.Thinned m'' label' stands')
    (hStands : ∀ a, m.code.HasAddress a →
      ((stands a).bind fun _ => stands' (label a)) = (stands'' a).map (Instruction.mapTargets label)) :
    m.Thinned m'' (label' ∘ label) stands'' where
  sifted := by
    obtain ⟨rank, hSifted⟩ := h.sifted
    obtain ⟨rank', hSifted'⟩ := h'.sifted
    exact ⟨_, hSifted.trans hSifted' hStands⟩
  handlers a k ha hk := by
    have hBoth := hStands a ha
    rw [hk] at hBoth
    obtain ⟨j, hj, hThere⟩ := Option.bind_eq_some_iff.mp hBoth
    rw [Function.comp_apply, h'.handlers _ _ (Code.hasAddress_of_at? (h.insn ha hj)) hThere,
      h.handlers a j ha hj, List.map_map]
    rfl
  bounded := h'.bounded

theorem injective (h : m.Thinned m' label stands) {a b : Address} {i j : Instruction Address}
    (ha : m.code.HasAddress a) (hb : m.code.HasAddress b) (hi : stands a = some i)
    (hj : stands b = some j) (hSame : label a = label b) : a = b := by
  obtain ⟨rank, hSifted⟩ := h.sifted
  exact hSifted.injective ha hb hi hj hSame

theorem hasPlace (h : m.Thinned m' label stands) {x : Address} (hx : m.code.HasPlace x) :
    m'.code.HasPlace (label x) := by
  obtain ⟨rank, hSifted⟩ := h.sifted
  exact hSifted.hasPlace hx

theorem zero (h : m.Thinned m' label stands) : label 0 = 0 := by
  obtain ⟨rank, hSifted⟩ := h.sifted
  have hStart := hSifted.place 0 (Nat.zero_le _)
  rwa [hSifted.first, Code.addressAt_zero, Code.addressAt_zero] at hStart

theorem eq_nil (h : m.Thinned m' label stands) (hEmpty : m.code = []) : m'.code = [] := by
  obtain ⟨rank, hSifted⟩ := h.sifted
  have hLast := hSifted.last
  rw [hEmpty, List.length_nil, hSifted.first] at hLast
  exact List.eq_nil_of_length_eq_zero hLast.symm

/-- Where an instruction has been removed stands what is left after it. -/
theorem gone (h : m.Thinned m' label stands) {a b : Address} (hNext : m.code.next? a = some b)
    (hNone : stands a = none) : label b = label a := by
  obtain ⟨rank, hSifted⟩ := h.sifted
  obtain ⟨n, hn, hLess, rfl⟩ := Code.next?_eq_some_iff.mp hNext
  obtain ⟨hBound, rfl⟩ := Code.indexOf?_eq_some_iff.mp hn
  rw [hSifted.place _ (Nat.le_of_lt hLess), hSifted.place _ (Nat.le_of_lt hBound), hSifted.gone n hBound hNone]

theorem next (h : m.Thinned m' label stands) {a b : Address} {j : Instruction Address}
    (hj : stands a = some j) (hNext : m.code.next? a = some b) :
    m'.code.next? (label a) = some (label b) ∨
      m'.code.next? (label a) = none ∧ ∀ x, m.code.HasAddress x → b ≤ x → stands x = none := by
  obtain ⟨rank, hSifted⟩ := h.sifted
  exact hSifted.next hj hNext

end Thinned

/-- What edits have left of a method is in order, and jumps to where it jumped before. `label` says where the places
of the old method are in the new one, and `stands` what stands there for an instruction, if anything does. -/
structure Retains (m m' : Method) (label : Address → Address) (stands : Address → Option (Instruction Address)) :
    Prop where
  insn : ∀ a j, m.code.HasAddress a → stands a = some j → m'.code.at? (label a) = some (j.mapTargets label)
  next : ∀ a b j, stands a = some j → m.code.next? a = some b →
    m'.code.next? (label a) = some (label b) ∨
      m'.code.next? (label a) = none ∧ ∀ x, m.code.HasAddress x → b ≤ x → stands x = none
  gone : ∀ a b, m.code.next? a = some b → stands a = none → label b = label a
  injective : ∀ a b i j, m.code.HasAddress a → m.code.HasAddress b → stands a = some i → stands b = some j →
    label a = label b → a = b
  zero : label 0 = 0
  eq_nil : m.code = [] → m'.code = []

theorem Thinned.retains (h : m.Thinned m' label stands) : m.Retains m' label stands where
  insn _ _ ha hj := h.insn ha hj
  next _ _ _ hj hNext := h.next hj hNext
  gone _ _ hNext hNone := h.gone hNext hNone
  injective _ _ _ _ ha hb hi hj hSame := h.injective ha hb hi hj hSame
  zero := h.zero
  eq_nil := h.eq_nil

/-- Where the addresses to be removed are the largest first, what is left after the removal of the first one
is left by the removal of all as far as the rest spares it. -/
theorem spared_without {p : Nat} {as : List Address} (hp : p < m.code.length)
    (hOrder : ∀ b ∈ as, b < m.code.addressAt p) (hHere : ∀ b ∈ as, m.code.HasAddress b) {a : Address}
    (ha : m.code.HasAddress a) :
    ((m.code.exchanged p none a).bind fun _ =>
        (m.without p).code.spared as ((m.splice p 1 [] false).2.label a)) =
      (m.code.spared (m.code.addressAt p :: as) a).map
        (Instruction.mapTargets (m.splice p 1 [] false).2.label) := by
  obtain ⟨n, hn, rfl⟩ := ha
  by_cases hSame : n = p
  · subst hSame
    rw [Code.exchanged_here, Code.spared_of_mem (.head _)]
    rfl
  have hInsn : m.code.exchanged p none (m.code.addressAt n) = some m.code[n] :=
    (Code.exchanged_addressAt hp hn hSame).trans (List.getElem?_eq_getElem hn)
  have hThere : (m.without p).code.at? ((m.splice p 1 [] false).2.label (m.code.addressAt n)) =
      some (m.code[n].mapTargets (m.splice p 1 [] false).2.label) := by
    rw [(sifted_without hp).place n (Nat.le_of_lt hn)]
    exact Code.at?_addressAt ((sifted_without hp).kept n hn _ hInsn).2
  have hMem : (m.splice p 1 [] false).2.label (m.code.addressAt n) ∈ as ↔
      m.code.addressAt n ∈ m.code.addressAt p :: as := by
    rw [label_without hn]
    rcases Nat.lt_or_gt_of_ne hSame with hLess | hMore
    · have hBefore := Code.addressAt_lt hLess (Nat.le_of_lt hp)
      rw [if_pos (Nat.le_of_lt hLess), without_addressAt_of_le hp (Nat.le_of_lt hLess), List.mem_cons]
      exact (or_iff_right (Nat.ne_of_lt hBefore)).symm
    · have hAfter := Code.addressAt_lt hMore (Nat.le_of_lt hn)
      rw [if_neg (Nat.not_le_of_lt hMore)]
      refine iff_of_false (fun hMem => ?_) fun hMem => ?_
      · obtain ⟨k, hk, hAddress⟩ := hHere _ hMem
        have hBelow := hOrder _ hMem
        rw [← hAddress, Code.addressAt_lt_iff (Nat.le_of_lt hk) (Nat.le_of_lt hp)] at hBelow
        have hAbove := lt_without_addressAt (j := n - 1) hp (by omega) hBelow (by omega)
        rw [hAddress] at hAbove
        exact absurd hAbove (Nat.lt_irrefl _)
      · rcases List.mem_cons.mp hMem with hHead | hTail
        · exact absurd hHead (Nat.ne_of_gt hAfter)
        · exact absurd (hOrder _ hTail) (Nat.lt_asymm hAfter)
  rw [hInsn, Option.bind_some]
  by_cases hGone : m.code.addressAt n ∈ m.code.addressAt p :: as
  · rw [Code.spared_of_mem hGone, Code.spared_of_mem (hMem.mpr hGone)]
    rfl
  · rw [Code.spared_of_not_mem hGone, Code.spared_of_not_mem fun hIn => hGone (hMem.mp hIn), hThere,
      Code.at?_addressAt (List.getElem?_eq_getElem hn)]
    rfl

end Method

namespace Relocation

/-- An edit tells for every place of a body where control that went there goes. Of the edit that has not
happened this is understood. -/
def Sends (r : Relocation) (code : Code) (label : Address → Address) : Prop :=
  (r.labels = [] ∧ ∀ a, code.HasPlace a → label a = a) ∨
    ∀ a, code.HasPlace a → r.labels.lookup a = some (label a)

variable {r r' : Relocation} {code code' : Code} {label label' : Address → Address}

theorem sends_empty (code : Code) : empty.Sends code id := .inl ⟨rfl, fun _ _ => rfl⟩

theorem Sends.label_eq (h : r.Sends code label) {a : Address} (ha : code.HasPlace a) :
    r.label a = label a := by
  unfold Relocation.label
  rcases h with ⟨hNone, hSame⟩ | hAll
  · rw [hNone, hSame a ha]
    rfl
  · rw [hAll a ha]
    rfl

/-- Two edits, one after the other, tell it of the first body. -/
theorem Sends.andThen (h : r.Sends code label) (h' : ∀ a, code'.HasPlace a → r'.labels.lookup a = some (label' a))
    (hPlace : ∀ a, code.HasPlace a → code'.HasPlace (label a)) :
    (r.andThen r').Sends code (label' ∘ label) := by
  have hNow : r.labels = [] → (∀ a, code.HasPlace a → label a = a) →
      ∀ a, code.HasPlace a → r'.labels.lookup a = some ((label' ∘ label) a) := by
    intro _ hSame a ha
    have hThere := hPlace a ha
    rw [Function.comp_apply]
    rw [hSame a ha] at hThere ⊢
    exact h' a hThere
  unfold Relocation.andThen
  rcases h with ⟨hNone, hSame⟩ | hAll
  · rw [hNone]
    exact .inr (hNow hNone hSame)
  · split
    · rename_i hEmpty
      have hNone := List.isEmpty_iff.mp hEmpty
      refine .inr fun a ha => ?_
      have hHere := hAll a ha
      rw [hNone] at hHere
      cases hHere
    · refine .inr fun a ha => ?_
      rw [Lookup.lookup_map_snd, hAll a ha, Option.map_some, Relocation.label, h' _ (hPlace a ha)]
      rfl

end Relocation

namespace Edit

variable {d : Draft} {as : List Address}

/-- What a removal makes of a method and of its graph. -/
structure Removes (g g' : Graph) (as : List Address) (label : Address → Address) : Prop where
  consistent : g'.Consistent
  thinned : g.method.Thinned g'.method label (g.method.code.spared as)
  carried : g.Carried g' label (g.method.code.spared as)
  status : g'.status = g.status

/-- Instructions are removed one after another, the last one first. The graph goes along if it can. -/
theorem removeEach_thins (hHere : ∀ a ∈ as, d.graph.method.code.HasAddress a) (hOrder : as.Pairwise (· > ·))
    (hBounded : d.graph.method.Bounded) (combined : Relocation) :
    ∃ r g label, removeEach combined as d = (.ok r, { d with graph := g }) ∧
      d.graph.method.Thinned g.method label (d.graph.method.code.spared as) ∧
      (d.graph.Removing as → g.Consistent ∧ d.graph.Carried g label (d.graph.method.code.spared as) ∧
        g.status = d.graph.status) ∧
      ∀ code before, combined.Sends code before →
        (∀ a, code.HasPlace a → d.graph.method.code.HasPlace (before a)) → r.Sends code (label ∘ before) := by
  induction as generalizing d combined with
  | nil =>
      refine ⟨combined, d.graph, id, rfl, ?_, fun h => ⟨h.consistent, ?_, rfl⟩, fun code before hSends _ => hSends⟩
      · rw [Code.spared_nil]
        exact .refl hBounded
      · rw [Code.spared_nil]
        exact .refl h.piled
  | cons a as ih =>
      obtain ⟨p, hp, rfl⟩ := hHere a (.head _)
      obtain ⟨hFirst, hRest⟩ := List.pairwise_cons.mp hOrder
      have hLater : ∀ b ∈ as, d.graph.method.code.HasAddress b := fun b hb => hHere b (.tail _ hb)
      have hMethod : (d.graph.removeAt p).method = d.graph.method.without p := Graph.relocate_method _ _
      have hOne := Method.thinned_without hBounded hp
      have hThere : ∀ b ∈ as, (d.graph.removeAt p).method.code.HasAddress b := fun b hb =>
        hMethod ▸ Method.hasAddress_without hp (hFirst b hb) (hLater b hb)
      rw [removeEach_cons (Code.indexOf?_addressAt hp)]
      obtain ⟨r, g, label, hResult, hThinned, hGraph, hSends⟩ :=
        ih (d := { d with graph := d.graph.removeAt p }) hThere hRest (hMethod ▸ hOne.bounded)
          (combined.andThen (d.graph.method.splice p 1 [] false).2)
      dsimp only at hThinned hGraph hSends
      rw [hMethod] at hThinned hGraph hSends
      have hStands {a : Address} (ha : d.graph.method.code.HasAddress a) :=
        Method.spared_without hp hFirst hLater ha
      refine ⟨r, g, _, hResult, hOne.trans hThinned fun a ha => hStands ha, fun h => ?_, fun code before hBefore hPlaces => ?_⟩
      · obtain ⟨hConsistent, hCarried, hStatus⟩ := hGraph (h.removeAt hp)
        exact ⟨hConsistent, (Graph.carried_removeAt h.piled hp).trans hCarried h.piled fun a ha => hStands ha,
          hStatus.trans (Graph.status_removeAt h.piled hp)⟩
      · exact hSends code _ (hBefore.andThen (fun a ha => Method.splice_lookup ha) hPlaces)
          fun a ha => hOne.hasPlace (hPlaces a ha)

/-- A removal that is not refused removes what it is asked to, and tells where everything has gone. -/
theorem removeAll_thins (hBounded : d.graph.method.Bounded)
    (h : d.graph.checkRemoval (Graph.ascending as) = .ok ()) :
    ∃ r g label, removeAll as d = (.ok r, { d with graph := g }) ∧
      d.graph.method.Thinned g.method label (d.graph.method.code.spared as) ∧
      (d.graph.Consistent → g.Consistent ∧ d.graph.Carried g label (d.graph.method.code.spared as) ∧
        g.status = d.graph.status) ∧
      ∀ a, d.graph.method.code.HasPlace a → r.label a = label a := by
  obtain ⟨removed, hRemoved, _⟩ := Graph.checkRemoval_eq_ok h
  have hHere : ∀ a ∈ (Graph.ascending as).reverse, d.graph.method.code.HasAddress a := fun a ha =>
    Graph.hasAddress_of_mapM_index hRemoved (List.mem_reverse.mp ha)
  have hSame : d.graph.method.code.spared (Graph.ascending as).reverse = d.graph.method.code.spared as :=
    Code.spared_congr fun a => by rw [List.mem_reverse, Graph.mem_ascending]
  obtain ⟨r, g, label, hResult, hThinned, hGraph, hSends⟩ :=
    removeEach_thins hHere (List.pairwise_reverse.mpr (Graph.ascending_pairwise as)) hBounded .empty
  rw [removeAll_of_ok h]
  exact ⟨r, g, label, hResult, hSame ▸ hThinned, fun hd => hSame ▸ hGraph (Graph.removing_of_checkRemoval hd h),
    fun a ha => (hSends _ id (Relocation.sends_empty _) fun _ ha => ha).label_eq ha⟩

/-- The graph goes along with the method. -/
theorem removeAll_removes (hd : d.graph.Consistent) (hBounded : d.graph.method.Bounded)
    (h : d.graph.checkRemoval (Graph.ascending as) = .ok ()) :
    ∃ r g label, removeAll as d = (.ok r, { d with graph := g }) ∧ Removes d.graph g as label ∧
      ∀ a, d.graph.method.code.HasPlace a → r.label a = label a := by
  obtain ⟨r, g, label, hResult, hThinned, hGraph, hLabels⟩ := removeAll_thins hBounded h
  obtain ⟨hConsistent, hCarried, hStatus⟩ := hGraph hd
  exact ⟨r, g, label, hResult, ⟨hConsistent, hThinned, hCarried, hStatus⟩, hLabels⟩

end Edit

end Dalvik
