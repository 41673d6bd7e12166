import Dalvik.Draft
import Dalvik.Proofs.Consistency

/-!
Edits keep a graph consistent with its method, whatever they are and whether they succeed or fail.
-/

namespace Dalvik

namespace State

theorem insertLocals_zero (s : State) : s.insertLocals 0 = s := by
  unfold insertLocals
  rw [List.replicate_zero, List.append_nil]

theorem insertLocals_insertLocals (s : State) (k n : Nat) : (s.insertLocals k).insertLocals n = s.insertLocals (k + n) := by
  unfold insertLocals
  rw [List.append_assoc, List.replicate_append_replicate]

end State

namespace Graph

/-- The position of the instruction that a node executes. -/
def position? (g : Graph) (id : NodeId) : Option Nat := g.positionIn g.method.code id

/-- The entry of a graph has got no more than some local registers. -/
def Widens (g g' : Graph) : Prop := ∃ count, g'.entry = g.entry.insertLocals count

theorem Widens.refl (g : Graph) : g.Widens g := ⟨0, (State.insertLocals_zero _).symm⟩

theorem Widens.trans {g g' g'' : Graph} (h : g.Widens g') (h' : g'.Widens g'') : g.Widens g'' := by
  obtain ⟨k, hk⟩ := h
  obtain ⟨n, hn⟩ := h'
  exact ⟨k + n, by rw [hn, hk, State.insertLocals_insertLocals]⟩

theorem Widens.of_eq {g g' : Graph} (h : g'.entry = g.entry) : g.Widens g' := ⟨0, by rw [h, State.insertLocals_zero]⟩

/-- A graph has become another one that is consistent, too. `move` says where instructions have gone,
and nodes have gone with them. -/
structure Becomes (g g' : Graph) (move : Nat → Option Nat) : Prop where
  consistent : g'.Consistent
  positions : ∀ id, g'.position? id = (g.position? id).bind move
  shaped : g.Shaped → g'.Shaped
  entry : g.Widens g'

theorem Becomes.refl {g : Graph} (hg : g.Consistent) : g.Becomes g some where
  consistent := hg
  positions id := by simp
  shaped h := h
  entry := .refl g

theorem Becomes.trans {g g' g'' : Graph} {move move' : Nat → Option Nat}
    (h : g.Becomes g' move) (h' : g'.Becomes g'' move') :
    g.Becomes g'' fun i => (move i).bind move' where
  consistent := h'.consistent
  positions id := by rw [h'.positions, h.positions, Option.bind_assoc]
  shaped hg := h'.shaped (h.shaped hg)
  entry := h.entry.trans h'.entry

variable {g : Graph}

theorem Piled.of_eq {g' : Graph} {code : Code} (hg : g.Piled code) (hNodes : g'.nodes = g.nodes)
    (hPiles : g'.piles = g.piles) : g'.Piled code := by
  have hPile : g'.pile = g.pile := by
    funext a
    simp [pile, hPiles]
  have hNode : g'.node? = g.node? := by
    funext id
    simp [node?, hNodes]
  exact ⟨hPiles ▸ hg.keys, hPiles ▸ hg.addresses, by simpa [hPile, hNode] using hg.mem_iff,
    by simpa [hPile] using hg.nodup⟩

/-- The graph with another method. -/
def withMethod (g : Graph) (m : Method) : Graph := { g with method := m }

theorem Piled.withMethod {code : Code} (hg : g.Piled code) (m : Method) :
    (g.withMethod m).Piled code := hg.of_eq rfl rfl

theorem Linked.withMethod (hg : g.Linked) (m : Method) : (g.withMethod m).Linked := hg.of_eq rfl rfl

/-- States that come from those of another graph have the registers of its method. -/
theorem Shaped.of_states {g' : Graph} (hg : g.Shaped) (hEntry : g'.entry = g.entry)
    (hLocals : g'.method.locals = g.method.locals)
    (hParams : g'.method.paramCount = g.method.paramCount)
    (hNodes : ∀ id n', g'.node? id = some n' →
      ∃ n, g.node? id = some n ∧ n'.pre = n.pre ∧ n'.post = n.post) : g'.Shaped := by
  have hFits {s : State} (h : s.Fits g.method) : s.Fits g'.method :=
    ⟨h.locals.trans hLocals.symm, h.params.trans hParams.symm⟩
  refine ⟨hEntry ▸ hFits hg.entry, fun id n' hn' => ?_, fun id n' hn' => ?_⟩
  · obtain ⟨n, hn, hPre, _⟩ := hNodes id n' hn'
    exact hPre ▸ hFits (hg.pre id n hn)
  · obtain ⟨n, hn, _, hPost⟩ := hNodes id n' hn'
    exact hPost ▸ hFits (hg.post id n hn)

section Relocate

variable {m : Method} {r : Relocation} {move : Nat → Option Nat}

theorem states_relocate (hPiled : g.Piled g.method.code) (hr : r.Moves g.method.code m.code move)
    (hKept : ∀ i, i < g.method.code.length → g.pile (g.method.code.addressAt i) ≠ [] →
      (move i).isSome)
    {id : NodeId} {n' : Node} (h : ((g.withMethod m).relocate r).node? id = some n') :
    ∃ n, g.node? id = some n ∧ n'.pre = n.pre ∧ n'.post = n.post := by
  have hOwn := relocate_spec (g := g.withMethod m) (hPiled.withMethod m) hr hKept
  rw [hOwn.1] at h
  obtain ⟨n, hn, rfl⟩ := Option.map_eq_some_iff.mp h
  exact ⟨n, hn, rfl, rfl⟩

theorem method_relocate (hPiled : g.Piled g.method.code) (hr : r.Moves g.method.code m.code move)
    (hKept : ∀ i, i < g.method.code.length → g.pile (g.method.code.addressAt i) ≠ [] →
      (move i).isSome) :
    ((g.withMethod m).relocate r).method = m ∧
      ((g.withMethod m).relocate r).entry = g.entry := by
  have hOwn := relocate_spec (g := g.withMethod m) (hPiled.withMethod m) hr hKept
  rw [hOwn.2]
  exact ⟨rfl, rfl⟩

theorem status_relocate (hPiled : g.Piled g.method.code) (hr : r.Moves g.method.code m.code move)
    (hKept : ∀ i, i < g.method.code.length → g.pile (g.method.code.addressAt i) ≠ [] →
      (move i).isSome) : ((g.withMethod m).relocate r).status = g.status := by
  rw [(relocate_spec (g := g.withMethod m) (hPiled.withMethod m) hr hKept).2]
  rfl

theorem heap_relocate (hPiled : g.Piled g.method.code) (hr : r.Moves g.method.code m.code move)
    (hKept : ∀ i, i < g.method.code.length → g.pile (g.method.code.addressAt i) ≠ [] →
      (move i).isSome) : ((g.withMethod m).relocate r).heap = g.heap := by
  rw [(relocate_spec (g := g.withMethod m) (hPiled.withMethod m) hr hKept).2]
  rfl

/-- A graph follows its method to a valid one with the same registers in which all that was executed
has a place. -/
theorem becomes_relocate (hg : g.Consistent) (hr : r.Moves g.method.code m.code move)
    (hKept : ∀ i, i < g.method.code.length → g.pile (g.method.code.addressAt i) ≠ [] →
      (move i).isSome)
    (hValid : m.validate = .ok ()) (hLocals : m.locals = g.method.locals)
    (hParams : m.paramCount = g.method.paramCount) :
    g.Becomes ((g.withMethod m).relocate r) move := by
  have hPiled := hg.piled.withMethod m
  have hLinked := hg.linked.withMethod m
  obtain ⟨hMethod, hEntry⟩ := method_relocate hg.piled hr hKept
  refine ⟨⟨?_, Code.addresses_eq_sums _, ?_, hLinked.relocate hPiled hr hKept⟩, fun id => ?_,
    fun hShaped => ?_, .of_eq hEntry⟩
  · rwa [hMethod]
  · rw [hMethod]
    exact hPiled.relocate hr hKept
  · rw [position?, hMethod]
    exact positionIn_relocate hPiled hr hKept id
  · exact hShaped.of_states hEntry (by rw [hMethod, hLocals]) (by rw [hMethod, hParams])
      fun id n' h => states_relocate hg.piled hr hKept h

end Relocate

/-- Replacing an instruction by one or more that the method admits. -/
theorem becomes_replacement (hg : g.Consistent) {index : Nat} {new : Code}
    (hIndex : index < g.method.code.length) (hNew : new ≠ [])
    (hAdmits : ∀ i ∈ new, g.method.Admits i) :
    g.Becomes ((g.withMethod (g.method.splice index 1 new true).1).relocate
      ((g.method.splice index 1 new true).2.followLabel (g.method.code.addressAt index)))
      (Code.replacing index new.length) := by
  exact becomes_relocate hg (Method.replacement_moves hIndex hNew) (fun _ _ _ => Code.isSome_replacing)
    (Method.validate_splice hg.valid hAdmits (by omega) (.inl hNew)) rfl rfl

/-- Inserting instructions that the method admits. -/
theorem becomes_insertion (hg : g.Consistent) {index : Nat} (new : Code) {retarget : Bool}
    (hIndex : index ≤ g.method.code.length) (hAdmits : ∀ i ∈ new, g.method.Admits i) :
    g.Becomes ((g.withMethod (g.method.splice index 0 new retarget).1).relocate
      (g.method.splice index 0 new retarget).2) (Code.survivor? index 0 new.length) := by
  exact becomes_relocate hg (Method.splice_moves new hIndex)
    (fun i _ _ => Code.isSome_survivor? (Nat.lt_or_ge i index))
    (Method.validate_splice hg.valid hAdmits hIndex (.inr rfl)) rfl rfl

end Graph

namespace Code

/-- Where the instructions of a body are after those at some addresses have been removed. -/
def remaining (code : Code) (as : List Address) (i : Nat) : Option Nat :=
  if code.addressAt i ∈ as then none
  else some (((List.range i).filter fun k => code.addressAt k ∉ as).length)

/-- Control that goes to an address finds an instruction there or after it that is not to be
removed. -/
def Lands (code : Code) (as : List Address) (a : Address) : Prop :=
  ∃ i last, i ≤ last ∧ last < code.length ∧ code.addressAt last ∉ as ∧ code.addressAt i = a

theorem Lands.hasAddress {code : Code} {as : List Address} {a : Address} (h : code.Lands as a) :
    code.HasAddress a := by
  obtain ⟨i, last, hOrder, hLast, _, hAddress⟩ := h
  exact ⟨i, by omega, hAddress⟩

end Code

namespace Graph

/-- A graph in the middle of a removal: what is left for removal may mention places that are gone,
but nothing else does. -/
structure Removing (g : Graph) (as : List Address) : Prop where
  piled : g.Piled g.method.code
  linked : g.Linked
  here : ∀ a ∈ as, g.method.code.HasAddress a
  order : as.Pairwise (· > ·)
  registers : ∀ j i, g.method.code[j]? = some i → g.method.code.addressAt j ∉ as →
    ∀ r ∈ i.reads ++ i.writes?.toList, r < g.method.registerCount
  targets : ∀ j i, g.method.code[j]? = some i → g.method.code.addressAt j ∉ as →
    ∀ t ∈ i.targets, g.method.code.Lands as t
  handlers : ∀ h ∈ g.method.handlers, g.method.code.Lands as h.target

/-- When everything has been removed that was to be, nothing mentions what is gone. -/
theorem Removing.consistent {g : Graph} (h : g.Removing []) : g.Consistent where
  valid := by
    refine Method.validate_eq_ok_iff.mpr ⟨fun i hi => ?_, fun k hk => (h.handlers k hk).hasAddress⟩
    obtain ⟨j, hj⟩ := List.mem_iff_getElem?.mp hi
    exact ⟨h.registers j i hj (by simp), fun t ht => (h.targets j i hj (by simp) t ht).hasAddress⟩
  layout := Code.addresses_eq_sums _
  piled := h.piled
  linked := h.linked

end Graph

namespace Method

variable {m : Method} {p : Nat}

/-- The method without the instruction at a position. -/
def without (m : Method) (p : Nat) : Method := (m.splice p 1 [] false).1

theorem without_addressAt_of_le {j : Nat} (hp : p < m.code.length) (hj : j ≤ p) :
    (m.without p).code.addressAt j = m.code.addressAt j := by
  rw [without, splice_addressAt]
  have hLength : (m.code.take p).length = p := by simp; omega
  simp only [Code.addressAt, Code.spliced, List.append_nil]
  rw [List.take_append_of_le_length (by omega), List.take_take, Nat.min_eq_left hj]

theorem without_length (hp : p < m.code.length) : (m.without p).code.length = m.code.length - 1 := by
  rw [without, splice_length, Code.length_spliced (by omega)]
  simp

/-- What follows the removed instruction is after everything that was before it. -/
theorem lt_without_addressAt {j k : Nat} (hp : p < m.code.length) (hj : p ≤ j) (hk : k < p)
    (hEnd : j ≤ m.code.length - 1) : m.code.addressAt k < (m.without p).code.addressAt j := by
  have hLength := without_length hp
  rw [← without_addressAt_of_le hp (Nat.le_of_lt hk)]
  exact Code.addressAt_lt (by omega) (by omega)

/-- What is before the removed instruction stays where it is. -/
theorem hasAddress_without {a : Address} (hp : p < m.code.length) (hLess : a < m.code.addressAt p)
    (ha : m.code.HasAddress a) : (m.without p).code.HasAddress a := by
  obtain ⟨j, hj, rfl⟩ := ha
  rw [Code.addressAt_lt_iff (Nat.le_of_lt hj) (Nat.le_of_lt hp)] at hLess
  refine ⟨j, ?_, without_addressAt_of_le hp (Nat.le_of_lt hLess)⟩
  rw [without_length hp]
  omega

theorem label_without {i : Nat} (hi : i < m.code.length) :
    (m.splice p 1 [] false).2.label (m.code.addressAt i) =
      (m.without p).code.addressAt (if i ≤ p then i else i - 1) := by
  rw [splice_label_addressAt hi, without]
  congr 1
  simp only [Code.landing, Bool.and_false, if_false, Code.survivor?, Bool.false_eq_true,
    List.length_nil, Nat.add_zero]
  split
  · rename_i hBefore
    simp [Nat.le_of_lt hBefore]
  · split
    · rename_i hNot hHere
      obtain rfl : i = p := by omega
      simp
    · rename_i hNot hAfter
      rw [if_neg (by omega)]
      rfl

theorem without_getElem? {j : Nat} (hp : p < m.code.length) :
    (m.without p).code[j]? =
      (m.code[if j < p then j else j + 1]?).map
        (Instruction.mapTargets (m.splice p 1 [] false).2.label) := by
  rw [without, splice_code, List.getElem?_map]
  congr 1
  by_cases hj : j < p
  · rw [if_pos hj]
    exact Code.spliced_getElem?_survivor (by omega) (Code.survivor?_eq_some_iff.mpr (.inl ⟨hj, rfl⟩))
  · rw [if_neg hj]
    exact Code.spliced_getElem?_survivor (by omega)
      (Code.survivor?_eq_some_iff.mpr (.inr ⟨by omega, by simp⟩))

/-- Where the addresses to be removed are the largest first, the removal of the first one changes
none of the others. -/
theorem lands_without {as : List Address} {a : Address} (hp : p < m.code.length)
    (hOrder : ∀ b ∈ as, b < m.code.addressAt p) (hHere : ∀ b ∈ as, m.code.HasAddress b)
    (h : m.code.Lands (m.code.addressAt p :: as) a) :
    (m.without p).code.Lands as ((m.splice p 1 [] false).2.label a) := by
  obtain ⟨i, last, hLess, hLast, hKept, rfl⟩ := h
  have hOther : last ≠ p := fun hSame => hKept (hSame ▸ .head _)
  have hLength := without_length hp
  rw [label_without (by omega)]
  refine ⟨if i ≤ p then i else i - 1, if last < p then last else last - 1, ?_, ?_, ?_, rfl⟩
  · split <;> split <;> omega
  · split <;> omega
  · split
    · rename_i hBefore
      rw [without_addressAt_of_le hp (by omega)]
      exact fun hMem => hKept (.tail _ hMem)
    · rename_i hAfter
      intro hMem
      obtain ⟨k, hk, hAddress⟩ := hHere _ hMem
      have hBelow := hOrder _ hMem
      rw [← hAddress, Code.addressAt_lt_iff (by omega) (by omega)] at hBelow
      have hAbove := lt_without_addressAt (j := last - 1) hp (by omega) hBelow (by omega)
      rw [hAddress] at hAbove
      exact absurd hAbove (Nat.lt_irrefl _)

end Method

namespace Graph

variable {g : Graph}

/-- The graph after the removal of the instruction at a position. -/
def removeAt (g : Graph) (p : Nat) : Graph :=
  ((g.removePile (g.method.code.addressAt p)).withMethod (g.method.without p)).relocate
    (g.method.splice p 1 [] false).2

theorem pile_removed {p i : Nat}
    (h : (g.removePile (g.method.code.addressAt p)).pile (g.method.code.addressAt i) ≠ []) :
    (Code.survivor? p 1 0 i).isSome = true := by
  rw [pile_removePile] at h
  have hOther : i ≠ p := fun hSame => h (by simp [hSame])
  unfold Code.survivor?
  split
  · rfl
  · rw [if_neg (by omega)]
    rfl

theorem removePile_method (a : Address) : (g.removePile a).method = g.method := by
  rw [removePile_eq]

theorem method_foldl {α : Type} {f : Graph → α → Graph} (hf : ∀ g x, (f g x).method = g.method)
    (xs : List α) (g : Graph) : (xs.foldl f g).method = g.method := by
  induction xs generalizing g with
  | nil => rfl
  | cons x xs ih => rw [List.foldl_cons, ih, hf]

theorem moveNodes_method (g : Graph) (a : Address) (ids : List NodeId) :
    (g.moveNodes a ids).method = g.method :=
  method_foldl (f := fun g id => g.modify id fun n => { n with address := a }) (fun _ _ => rfl) ids g

theorem relocate_method (g : Graph) (r : Relocation) : (g.relocate r).method = g.method := by
  have hMoved (moved : List (Address × List NodeId)) (g : Graph) :
      (moved.foldl (fun g p => g.moveNodes p.1 p.2) g).method = g.method :=
    method_foldl (fun g p => moveNodes_method g p.1 p.2) moved g
  rw [relocate, hMoved]
  exact method_foldl (fun g a => removePile_method a) _ g

section RemoveAt

variable {p : Nat}

theorem moves_without (hp : p < g.method.code.length) :
    (g.method.splice p 1 [] false).2.Moves (g.removePile (g.method.code.addressAt p)).method.code
      (g.method.without p).code (Code.survivor? p 1 0) := by
  rw [removePile_method]
  exact Method.splice_moves [] (by omega)

theorem kept_without :
    ∀ i, i < (g.removePile (g.method.code.addressAt p)).method.code.length →
      (g.removePile (g.method.code.addressAt p)).pile
        ((g.removePile (g.method.code.addressAt p)).method.code.addressAt i) ≠ [] →
      (Code.survivor? p 1 0 i).isSome = true := fun i _ h => by
  rw [removePile_method] at h
  exact pile_removed h

theorem piled_removePile (hPiled : g.Piled g.method.code) (a : Address) :
    (g.removePile a).Piled (g.removePile a).method.code := by
  rw [removePile_method]
  exact hPiled.removePile a

theorem removeAt_method (hPiled : g.Piled g.method.code) (hp : p < g.method.code.length) :
    (g.removeAt p).method = g.method.without p ∧ (g.removeAt p).entry = g.entry := by
  obtain ⟨hMethod, hEntry⟩ :=
    method_relocate (piled_removePile hPiled _) (moves_without hp) kept_without
  refine ⟨hMethod, hEntry.trans ?_⟩
  rw [removePile_eq]

theorem status_removeAt (hPiled : g.Piled g.method.code) (hp : p < g.method.code.length) :
    (g.removeAt p).status = g.status :=
  (status_relocate (piled_removePile hPiled _) (moves_without hp) kept_without).trans (by rw [removePile_eq])

theorem heap_removeAt (hPiled : g.Piled g.method.code) (hp : p < g.method.code.length) :
    (g.removeAt p).heap = g.heap :=
  (heap_relocate (piled_removePile hPiled _) (moves_without hp) kept_without).trans (by rw [removePile_eq])

theorem removeAt_piled (hPiled : g.Piled g.method.code) (hp : p < g.method.code.length) :
    (g.removeAt p).Piled (g.removeAt p).method.code := by
  rw [(removeAt_method hPiled hp).1]
  exact ((piled_removePile hPiled _).withMethod _).relocate (moves_without hp) kept_without

theorem removeAt_linked (hPiled : g.Piled g.method.code) (hLinked : g.Linked)
    (hp : p < g.method.code.length) : (g.removeAt p).Linked :=
  ((hLinked.removePile _).withMethod _).relocate ((piled_removePile hPiled _).withMethod _)
    (moves_without hp) kept_without

theorem removeAt_positions (hPiled : g.Piled g.method.code) (hp : p < g.method.code.length)
    (id : NodeId) : (g.removeAt p).position? id = (g.position? id).bind (Code.survivor? p 1 0) := by
  rw [position?, (removeAt_method hPiled hp).1, removeAt,
    positionIn_relocate ((piled_removePile hPiled _).withMethod (g.method.without p))
      (moves_without hp) kept_without]
  have hBare (h : Graph) (code : Code) :
      h.positionIn code id = (h.bare? id).bind fun n => code.indexOf? n.address := by
    unfold positionIn bare?
    cases h.node? id <;> rfl
  have hChanged : ((g.removePile (g.method.code.addressAt p)).withMethod (g.method.without p)).bare? id =
      if id ∈ g.pile (g.method.code.addressAt p) then none else g.bare? id := bare?_removePile _ _
  rw [position?, hBare, hBare, hChanged, removePile_method]
  split
  · rename_i hMem
    have hIndex : (g.bare? id).bind (fun n => g.method.code.indexOf? n.address) = some p := by
      obtain ⟨n, hn, hAddress⟩ := (hPiled.mem_iff _ id).mp hMem
      have hSame : n.bare.address = g.method.code.addressAt p := hAddress
      simp [bare?, hn, hSame, Code.indexOf?_addressAt hp]
    rw [hIndex]
    simp [Code.survivor?]
  · rfl

theorem removeAt_shaped (hShaped : g.Shaped) (hPiled : g.Piled g.method.code)
    (hp : p < g.method.code.length) : (g.removeAt p).Shaped := by
  obtain ⟨hMethod, hEntry⟩ := removeAt_method hPiled hp
  refine hShaped.of_states hEntry (by rw [hMethod]; rfl) (by rw [hMethod]; rfl) fun id n' h => ?_
  obtain ⟨n, hn, hPre, hPost⟩ :=
    states_relocate (piled_removePile hPiled _) (moves_without hp) kept_without h
  have hBare : (g.removePile (g.method.code.addressAt p)).bare? id = some n.bare := by
    simp [bare?, hn]
  rw [bare?_removePile] at hBare
  split at hBare
  · cases hBare
  · obtain ⟨old, hOld, hSame⟩ := Option.map_eq_some_iff.mp hBare
    simp only [Node.bare, Node.mk.injEq] at hSame
    exact ⟨old, hOld, hPre.trans hSame.2.1.symm, hPost.trans hSame.2.2.1.symm⟩

end RemoveAt

/-- Removing the last of what is to be removed leaves the rest to be removed. -/
theorem Removing.removeAt {p : Nat} {as : List Address} (hp : p < g.method.code.length)
    (h : g.Removing (g.method.code.addressAt p :: as)) : (g.removeAt p).Removing as := by
  obtain ⟨hMethod, _⟩ := removeAt_method h.piled hp
  obtain ⟨hOrder, hRest⟩ := List.pairwise_cons.mp h.order
  have hHere : ∀ b ∈ as, g.method.code.HasAddress b := fun b hb => h.here b (.tail _ hb)
  have hLands {t : Address} (ht : g.method.code.Lands (g.method.code.addressAt p :: as) t) :
      (g.method.without p).code.Lands as ((g.method.splice p 1 [] false).2.label t) :=
    Method.lands_without hp hOrder hHere ht
  have hOld {j : Nat} {i : Instruction Address} (hi : (g.method.without p).code[j]? = some i)
      (hj : (g.method.without p).code.addressAt j ∉ as) :
      ∃ k old, g.method.code[k]? = some old ∧
        g.method.code.addressAt k ∉ g.method.code.addressAt p :: as ∧
        i = old.mapTargets (g.method.splice p 1 [] false).2.label := by
    rw [Method.without_getElem? hp] at hi
    obtain ⟨old, hOld, rfl⟩ := Option.map_eq_some_iff.mp hi
    refine ⟨_, old, hOld, ?_, rfl⟩
    have hBound : (if j < p then j else j + 1) < g.method.code.length :=
      (List.getElem?_eq_some_iff.mp hOld).1
    have hOther : (if j < p then j else j + 1) ≠ p := by split <;> omega
    intro hMem
    rcases List.mem_cons.mp hMem with hSame | hMem
    · exact hOther (Code.addressAt_injective (Nat.le_of_lt hBound) (Nat.le_of_lt hp) hSame)
    · have hBelow := hOrder _ hMem
      rw [gt_iff_lt, Code.addressAt_lt_iff (Nat.le_of_lt hBound) (Nat.le_of_lt hp)] at hBelow
      have hBefore : j < p := by
        by_contra hNot
        rw [if_neg hNot] at hBelow
        omega
      rw [if_pos hBefore, ← Method.without_addressAt_of_le hp (Nat.le_of_lt hBefore)] at hMem
      exact hj hMem
  refine ⟨removeAt_piled h.piled hp, removeAt_linked h.piled h.linked hp, fun b hb => ?_, hRest,
    fun j i hi hj r hr => ?_, fun j i hi hj t ht => ?_, fun k hk => ?_⟩
  · rw [hMethod]
    exact Method.hasAddress_without hp (hOrder b hb) (hHere b hb)
  · rw [hMethod] at hi hj ⊢
    obtain ⟨k, old, hk, hKept, rfl⟩ := hOld hi hj
    exact h.registers k old hk hKept r (by simpa using hr)
  · rw [hMethod] at hi hj ⊢
    obtain ⟨k, old, hk, hKept, rfl⟩ := hOld hi hj
    rw [Instruction.targets_mapTargets] at ht
    obtain ⟨u, hu, rfl⟩ := List.mem_map.mp ht
    exact hLands (h.targets k old hk hKept u hu)
  · rw [hMethod] at hk ⊢
    obtain ⟨old, hMem, hTarget⟩ := Method.mem_splice_handlers hk
    rw [hTarget]
    exact hLands (h.handlers old hMem)

end Graph

namespace Code

/-- Removing the largest of some addresses first comes to the same. -/
theorem remaining_cons {m : Method} {p : Nat} {as : List Address} (hp : p < m.code.length)
    (hOrder : ∀ b ∈ as, b < m.code.addressAt p) (hHere : ∀ b ∈ as, m.code.HasAddress b) {i : Nat}
    (hi : i < m.code.length) :
    m.code.remaining (m.code.addressAt p :: as) i =
      (survivor? p 1 0 i).bind ((m.without p).code.remaining as) := by
  have hBefore {k : Nat} (hk : k < p) :
      m.code.addressAt k ∉ m.code.addressAt p :: as ↔ (m.without p).code.addressAt k ∉ as := by
    have hOther : m.code.addressAt k ≠ m.code.addressAt p := Nat.ne_of_lt (addressAt_lt hk (by omega))
    rw [Method.without_addressAt_of_le hp (Nat.le_of_lt hk)]
    simp [hOther]
  have hAfter {k : Nat} (hk : p < k) (hEnd : k < m.code.length) :
      m.code.addressAt k ∉ m.code.addressAt p :: as ∧ (m.without p).code.addressAt (k - 1) ∉ as := by
    have hLess := addressAt_lt hk (Nat.le_of_lt hEnd)
    refine ⟨fun hMem => ?_, fun hMem => ?_⟩
    · rcases List.mem_cons.mp hMem with hSame | hMem
      · exact absurd hSame (Nat.ne_of_gt hLess)
      · exact absurd (hOrder _ hMem) (Nat.lt_asymm hLess)
    · obtain ⟨l, hl, hAddress⟩ := hHere _ hMem
      have hBelow := hOrder _ hMem
      rw [← hAddress, addressAt_lt_iff (Nat.le_of_lt hl) (Nat.le_of_lt hp)] at hBelow
      have hAbove := Method.lt_without_addressAt (j := k - 1) hp (by omega) hBelow (by omega)
      rw [hAddress] at hAbove
      exact absurd hAbove (Nat.lt_irrefl _)
  have hFirst {j : Nat} (hj : j ≤ p) :
      (List.range j).filter (fun k => m.code.addressAt k ∉ m.code.addressAt p :: as) =
        (List.range j).filter fun k => (m.without p).code.addressAt k ∉ as :=
    List.filter_congr fun k hk =>
      decide_eq_decide.mpr (hBefore (Nat.lt_of_lt_of_le (List.mem_range.mp hk) hj))
  have hCount (d : Nat) (hd : p + 1 + d ≤ m.code.length) :
      ((List.range (p + 1 + d)).filter fun k => m.code.addressAt k ∉ m.code.addressAt p :: as).length =
        ((List.range (p + d)).filter fun k => (m.without p).code.addressAt k ∉ as).length := by
    induction d with
    | zero =>
        rw [Nat.add_zero, List.range_succ, List.filter_append, hFirst (Nat.le_refl p),
          List.filter_cons_of_neg (by simp)]
        simp
    | succ d ih =>
        obtain ⟨hKept, hKeptAfter⟩ := hAfter (k := p + 1 + d) (by omega) (by omega)
        rw [show p + 1 + d - 1 = p + d by omega] at hKeptAfter
        rw [← Nat.add_assoc, ← Nat.add_assoc, List.range_succ, List.range_succ, List.filter_append,
          List.filter_append, List.length_append, List.length_append, ih (by omega),
          List.filter_cons_of_pos (by exact decide_eq_true hKept),
          List.filter_cons_of_pos (by exact decide_eq_true hKeptAfter)]
        rfl
  rcases Nat.lt_trichotomy i p with hLess | rfl | hMore
  · have hMove : survivor? p 1 0 i = some i := survivor?_eq_some_iff.mpr (.inl ⟨hLess, rfl⟩)
    have hMem := hBefore hLess
    rw [hMove, Option.bind_some, remaining, remaining, hFirst (Nat.le_of_lt hLess)]
    by_cases hKept : (m.without p).code.addressAt i ∈ as
    · rw [if_pos hKept, if_pos (not_not.mp (mt hMem.mp (not_not.mpr hKept)))]
    · rw [if_neg hKept, if_neg (hMem.mpr hKept)]
  · simp [survivor?, remaining]
  · have hMove : survivor? p 1 0 i = some (i - 1) :=
      survivor?_eq_some_iff.mpr (.inr ⟨hMore, rfl⟩)
    obtain ⟨hKept, hKeptAfter⟩ := hAfter hMore hi
    have hSame := hCount (i - (p + 1)) (by omega)
    rw [show p + 1 + (i - (p + 1)) = i by omega, show p + (i - (p + 1)) = i - 1 by omega] at hSame
    rw [hMove, Option.bind_some, remaining, remaining, if_neg hKept, if_neg hKeptAfter, hSame]

end Code

end Dalvik
