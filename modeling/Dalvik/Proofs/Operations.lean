import Dalvik.Proofs.Editing

/-!
The operations of the editor, and what every sequence of them keeps. Operations that fail leave the
graph as it is, but for the states that a failing execution has got to.
-/

namespace Dalvik

namespace Graph

variable {g : Graph} {as : List Address}

theorem index_eq_ok_iff {a : Address} {p : Nat} :
    g.index a = .ok p ↔ g.method.code.indexOf? a = some p := by
  unfold index
  cases g.method.code.indexOf? a <;> simp

theorem mapM_index_cons {a : Address} {removed : List Nat}
    (h : (a :: as).mapM g.index = .ok removed) :
    ∃ p rest, p < g.method.code.length ∧ g.method.code.addressAt p = a ∧
      as.mapM g.index = .ok rest ∧ removed = p :: rest := by
  rw [List.mapM_cons] at h
  obtain ⟨p, hp, h⟩ := except_bind_eq_ok.mp h
  obtain ⟨rest, hRest, h⟩ := except_bind_eq_ok.mp h
  obtain ⟨hBound, hAddress⟩ := Code.indexOf?_eq_some_iff.mp (index_eq_ok_iff.mp hp)
  exact ⟨p, rest, hBound, hAddress, hRest, (Except.ok.inj h).symm⟩

theorem mapM_index {removed : List Nat} (h : as.mapM g.index = .ok removed) (p : Nat) :
    p ∈ removed ↔ p < g.method.code.length ∧ g.method.code.addressAt p ∈ as := by
  induction as generalizing removed with
  | nil =>
      obtain rfl : [] = removed := Except.ok.inj h
      simp
  | cons a as ih =>
      obtain ⟨q, rest, hq, rfl, hRest, rfl⟩ := mapM_index_cons h
      rw [List.mem_cons, List.mem_cons, ih hRest]
      constructor
      · rintro (rfl | hMem)
        · exact ⟨hq, .inl rfl⟩
        · exact ⟨hMem.1, .inr hMem.2⟩
      · rintro ⟨hp, hSame | hMem⟩
        · exact .inl (Code.addressAt_injective (Nat.le_of_lt hp) (Nat.le_of_lt hq) hSame)
        · exact .inr ⟨hp, hMem⟩

theorem hasAddress_of_mapM_index {removed : List Nat} (h : as.mapM g.index = .ok removed)
    {a : Address} (ha : a ∈ as) : g.method.code.HasAddress a := by
  induction as generalizing removed with
  | nil => simp at ha
  | cons b as ih =>
      obtain ⟨q, rest, hq, rfl, hRest, rfl⟩ := mapM_index_cons h
      rcases List.mem_cons.mp ha with rfl | ha
      · exact ⟨q, hq, rfl⟩
      · exact ih hRest ha

/-- Instructions that there are have their positions. -/
theorem exists_mapM_index (hAll : ∀ a ∈ as, g.method.code.HasAddress a) :
    ∃ removed, as.mapM g.index = .ok removed := by
  induction as with
  | nil => exact ⟨[], rfl⟩
  | cons a as ih =>
      obtain ⟨n, hn, hAddress⟩ := hAll a (.head _)
      obtain ⟨rest, hRest⟩ := ih fun b hb => hAll b (.tail _ hb)
      refine ⟨n :: rest, ?_⟩
      rw [List.mapM_cons, index_eq_ok_iff.mpr (Code.indexOf?_eq_some_iff.mpr ⟨hn, hAddress⟩), hRest]
      rfl

/-- What a removal that is not refused has been checked for. -/
theorem checkRemoval_eq_ok (h : g.checkRemoval as = .ok ()) :
    ∃ removed, as.mapM g.index = .ok removed ∧
      (∀ p ∈ g.method.code.zipIdx, p.2 ∉ removed → ∀ t ∈ p.1.targets,
        g.checkLanding (g.lastKept? removed) t = .ok ()) ∧
      (∀ k ∈ g.method.handlers, g.checkLanding (g.lastKept? removed) k.target = .ok ()) ∧
      ∀ a ∈ as, (g.pileNodes a).any (g.strays (g.method.code.next? a)) = false := by
  unfold checkRemoval at h
  obtain ⟨removed, hRemoved, h⟩ := except_bind_eq_ok.mp h
  obtain ⟨_, hTargets, h⟩ := except_bind_eq_ok.mp h
  obtain ⟨_, hHandlers, hStrays⟩ := except_bind_eq_ok.mp h
  refine ⟨removed, hRemoved, fun p hp hKept => ?_, Method.forM_eq_ok_iff.mp hHandlers, fun a ha => ?_⟩
  · have hMem : p ∈ g.method.code.zipIdx.filter fun p => p.2 ∉ removed :=
      List.mem_filter.mpr ⟨hp, decide_eq_true hKept⟩
    exact Method.forM_eq_ok_iff.mp (Method.forM_eq_ok_iff.mp hTargets p hMem)
  · have hStays := Method.forM_eq_ok_iff.mp hStrays a ha
    split at hStays
    · cases hStays
    · rename_i hNone
      exact eq_false_of_ne_true hNone

theorem lands_of_checkLanding {removed : List Nat} (hRemoved : as.mapM g.index = .ok removed)
    {t : Address} (h : g.checkLanding (g.lastKept? removed) t = .ok ()) :
    g.method.code.Lands as t := by
  have hLands : g.lands (g.lastKept? removed) t = true := by
    unfold checkLanding at h
    split at h
    · assumption
    · cases h
  unfold lands at hLands
  split at hLands
  · rename_i i last hi hLast
    obtain ⟨_, rfl⟩ := Code.indexOf?_eq_some_iff.mp hi
    have hMem := List.mem_of_getLast? hLast
    rw [List.mem_filter, List.mem_range] at hMem
    have hKept : last ∉ removed := by simpa using hMem.2
    refine ⟨i, last, by simpa using hLands, hMem.1, fun hGone => ?_, rfl⟩
    exact hKept ((mapM_index hRemoved last).mpr ⟨hMem.1, hGone⟩)
  · cases hLands

/-- A removal that is not refused can be carried out, the last instruction first. -/
theorem removing_of_checkRemoval (hg : g.Consistent)
    (h : g.checkRemoval (ascending as) = .ok ()) : g.Removing (ascending as).reverse := by
  obtain ⟨removed, hRemoved, hTargets, hHandlers, _⟩ := checkRemoval_eq_ok h
  obtain ⟨hCode, _⟩ := Method.validate_eq_ok_iff.mp hg.valid
  have hSame {t : Address} (hLands : g.method.code.Lands (ascending as) t) :
      g.method.code.Lands (ascending as).reverse t := by
    simpa [Code.Lands] using hLands
  refine ⟨hg.piled, hg.linked, fun a ha => ?_, ?_, fun j i hi _ => ?_, fun j i hi hj t ht => ?_,
    fun k hk => hSame (lands_of_checkLanding hRemoved (hHandlers k hk))⟩
  · exact hasAddress_of_mapM_index hRemoved (List.mem_reverse.mp ha)
  · exact List.pairwise_reverse.mpr (ascending_pairwise as)
  · exact (hCode i (List.mem_of_getElem? hi)).registers
  · refine hSame (lands_of_checkLanding hRemoved (hTargets (i, j) ?_ (fun hGone => ?_) t ht))
    · exact List.mem_zipIdx_iff_getElem?.mpr hi
    · exact hj (List.mem_reverse.mpr ((mapM_index hRemoved j).mp hGone).2)

end Graph

namespace Edit

variable {d : Draft}

theorem removeEach_cons {combined : Relocation} {a : Address} {as : List Address} {p : Nat}
    (hp : d.graph.method.code.indexOf? a = some p) :
    removeEach combined (a :: as) d =
      removeEach (combined.andThen (d.graph.method.splice p 1 [] false).2) as
        { d with graph := d.graph.removeAt p } := by
  obtain ⟨_, rfl⟩ := Code.indexOf?_eq_some_iff.mp hp
  have hMethod := Graph.removePile_method (g := d.graph) (d.graph.method.code.addressAt p)
  have hIndex : index (d.graph.method.code.addressAt p) d = (.ok p, d) := by
    simp only [index, Graph.index_eq_ok_iff.mpr hp]
  rw [removeEach, stateful_bind_apply, hIndex]
  dsimp only
  rw [stateful_bind_apply, modifyGraph]
  dsimp only
  rw [stateful_bind_apply, splice, spliceWith]
  simp only [hMethod]
  rfl

/-- What is left to be removed is removed, whatever has been removed before. -/
theorem removeEach_spec {as : List Address} (h : d.graph.Removing as) (combined : Relocation) :
    ∃ r g, removeEach combined as d = (.ok r, { d with graph := g }) ∧ g.Consistent ∧
      (∀ id, g.position? id = (d.graph.position? id).bind (d.graph.method.code.remaining as)) ∧
      (d.graph.Shaped → g.Shaped) ∧ g.entry = d.graph.entry := by
  induction as generalizing d combined with
  | nil =>
      refine ⟨combined, d.graph, rfl, h.consistent, fun id => ?_, fun hShaped => hShaped, rfl⟩
      cases d.graph.position? id <;> simp [Code.remaining]
  | cons a as ih =>
      obtain ⟨p, hp, rfl⟩ := h.here a (.head _)
      obtain ⟨hOrder, _⟩ := List.pairwise_cons.mp h.order
      have hHere : ∀ b ∈ as, d.graph.method.code.HasAddress b := fun b hb => h.here b (.tail _ hb)
      rw [removeEach_cons (Code.indexOf?_addressAt hp)]
      obtain ⟨r, g, hResult, hConsistent, hPositions, hShaped, hEntry⟩ :=
        ih (d := { d with graph := d.graph.removeAt p }) (h.removeAt hp) _
      refine ⟨r, g, hResult, hConsistent, fun id => ?_,
        fun hOld => hShaped (Graph.removeAt_shaped hOld h.piled hp),
        hEntry.trans (Graph.removeAt_method h.piled hp).2⟩
      rw [hPositions, Graph.removeAt_positions h.piled hp, (Graph.removeAt_method h.piled hp).1,
        Option.bind_assoc]
      cases hPosition : d.graph.position? id with
      | none => rfl
      | some i =>
          obtain ⟨n, _, hIndex⟩ := Option.bind_eq_some_iff.mp hPosition
          exact (Code.remaining_cons hp hOrder hHere (Code.indexOf?_eq_some_iff.mp hIndex).1).symm

theorem remaining_congr {code : Code} {as bs : List Address} (h : ∀ a, a ∈ as ↔ a ∈ bs) :
    code.remaining as = code.remaining bs := by
  funext i
  simp only [Code.remaining, h]

theorem removeAll_of_error {as : List Address} {e : EditError}
    (h : d.graph.checkRemoval (Graph.ascending as) = .error e) : removeAll as d = (.error e, d) := by
  rw [removeAll, stateful_bind_apply, graph]
  dsimp only
  rw [stateful_bind_apply, ofExcept, h]

theorem removeAll_of_ok {as : List Address} {u : Unit}
    (h : d.graph.checkRemoval (Graph.ascending as) = .ok u) :
    removeAll as d = removeEach .empty (Graph.ascending as).reverse d := by
  rw [removeAll, stateful_bind_apply, graph]
  dsimp only
  rw [stateful_bind_apply, ofExcept, h]

/-- A removal takes everything along that is kept, or changes nothing. -/
theorem removeAll_spec (hd : d.graph.Consistent) (as : List Address) :
    (∃ e, removeAll as d = (.error e, d)) ∨
      ∃ r g, removeAll as d = (.ok r, { d with graph := g }) ∧
        d.graph.Becomes g (d.graph.method.code.remaining as) := by
  cases hCheck : d.graph.checkRemoval (Graph.ascending as) with
  | error e => exact .inl ⟨e, removeAll_of_error hCheck⟩
  | ok _ =>
      rw [removeAll_of_ok hCheck]
      obtain ⟨r, g, hResult, hConsistent, hPositions, hShaped, hEntry⟩ :=
        removeEach_spec (Graph.removing_of_checkRemoval hd hCheck) .empty
      have hSame : d.graph.method.code.remaining (Graph.ascending as).reverse =
          d.graph.method.code.remaining as :=
        remaining_congr fun a => by rw [List.mem_reverse, Graph.mem_ascending]
      exact .inr ⟨r, g, hResult, hConsistent, fun id => by rw [hPositions, hSame], hShaped,
        .of_eq hEntry⟩

/-- An edit at an address does nothing where there is no instruction. -/
theorem index_bind {α : Type} (a : Address) (f : Nat → Edit α) :
    (index a >>= f) d =
      match d.graph.method.code.indexOf? a with
      | some p => f p d
      | none => (.error (.noInstruction a), d) := by
  rw [stateful_bind_apply, index, Graph.index]
  cases d.graph.method.code.indexOf? a <;> rfl

/-- An edit at an address that succeeds wherever there is an instruction. -/
theorem index_bind_spec {a : Address} {f : Nat → Edit Relocation} {keep : Nat → Nat → Option Nat}
    (h : ∀ p, d.graph.method.code.indexOf? a = some p →
      ∃ r g, f p d = (.ok r, { d with graph := g }) ∧ d.graph.Becomes g (keep p)) :
    (d.graph.method.code.indexOf? a = none ∧ (index a >>= f) d = (.error (.noInstruction a), d)) ∨
      ∃ p r g, d.graph.method.code.indexOf? a = some p ∧
        (index a >>= f) d = (.ok r, { d with graph := g }) ∧ d.graph.Becomes g (keep p) := by
  rw [index_bind]
  cases hp : d.graph.method.code.indexOf? a with
  | none => exact .inl ⟨rfl, rfl⟩
  | some p =>
      obtain ⟨r, g, hRun, hBecomes⟩ := h p hp
      exact .inr ⟨p, r, g, rfl, hRun, hBecomes⟩

theorem replaceMany_spec (hd : d.graph.Consistent) {a : Address} {new : Code} (hNew : new ≠ [])
    (hAdmits : ∀ i ∈ new, d.graph.method.Admits i) :
    (d.graph.method.code.indexOf? a = none ∧
      replaceMany a new d = (.error (.noInstruction a), d)) ∨
      ∃ p r g, d.graph.method.code.indexOf? a = some p ∧
        replaceMany a new d = (.ok r, { d with graph := g }) ∧
        d.graph.Becomes g (Code.replacing p new.length) := by
  refine index_bind_spec fun p hp => ?_
  obtain ⟨hBound, rfl⟩ := Code.indexOf?_eq_some_iff.mp hp
  exact ⟨_, _, rfl, Graph.becomes_replacement hd hBound hNew hAdmits⟩

theorem insertBefore_spec (hd : d.graph.Consistent) {a : Address} {new : Instruction Address}
    (hAdmits : d.graph.method.Admits new) :
    (d.graph.method.code.indexOf? a = none ∧
      insertBefore a new d = (.error (.noInstruction a), d)) ∨
      ∃ p r g, d.graph.method.code.indexOf? a = some p ∧
        insertBefore a new d = (.ok r, { d with graph := g }) ∧
        d.graph.Becomes g (Code.survivor? p 0 1) := by
  refine index_bind_spec fun p hp => ⟨_, _, rfl, ?_⟩
  have hBound := (Code.indexOf?_eq_some_iff.mp hp).1
  exact Graph.becomes_insertion hd [new] (Nat.le_of_lt hBound) (by simpa using hAdmits)

theorem insertAfter_spec (hd : d.graph.Consistent) {a : Address} {new : Instruction Address}
    (hAdmits : d.graph.method.Admits new) :
    (d.graph.method.code.indexOf? a = none ∧
      insertAfter a new d = (.error (.noInstruction a), d)) ∨
      ∃ p r g, d.graph.method.code.indexOf? a = some p ∧
        insertAfter a new d = (.ok r, { d with graph := g }) ∧
        d.graph.Becomes g (Code.survivor? (p + 1) 0 1) := by
  refine index_bind_spec fun p hp => ⟨_, _, rfl, ?_⟩
  have hBound := (Code.indexOf?_eq_some_iff.mp hp).1
  exact Graph.becomes_insertion hd [new] hBound (by simpa using hAdmits)

end Edit

namespace Instruction

variable {τ : Type}

theorem reads_mapRegisters (f : Register → Register) (i : Instruction τ) :
    (i.mapRegisters f).reads = i.reads.map f := by
  cases i with
  | binary op type dst lhs rhs => cases rhs <;> rfl
  | branch c lhs rhs t => cases rhs <;> rfl
  | fieldGet dst o fld => cases o <;> rfl
  | fieldPut src o fld => cases o <;> rfl
  | _ => rfl

theorem writes?_mapRegisters (f : Register → Register) (i : Instruction τ) :
    (i.mapRegisters f).writes? = i.writes?.map f := by
  cases i with
  | binary op type dst lhs rhs => cases rhs <;> rfl
  | _ => rfl

theorem targets_mapRegisters (f : Register → Register) (i : Instruction τ) :
    (i.mapRegisters f).targets = i.targets := by
  cases i with
  | binary op type dst lhs rhs => cases rhs <;> rfl
  | _ => rfl

theorem size_mapRegisters (f : Register → Register) (i : Instruction τ) :
    (i.mapRegisters f).size = i.size := by
  cases i with
  | const dst v => cases v <;> rfl
  | binary op type dst lhs rhs => cases rhs <;> rfl
  | _ => rfl

end Instruction

namespace Method

variable {m : Method} {count : Nat}

theorem addLocals_addressAt (n : Nat) :
    (m.addLocals count).code.addressAt n = m.code.addressAt n :=
  Code.addressAt_map (Instruction.size_mapRegisters _) n

theorem addLocals_indexOf? (a : Address) :
    (m.addLocals count).code.indexOf? a = m.code.indexOf? a := by
  apply Option.ext
  intro n
  rw [Code.indexOf?_eq_some_iff, Code.indexOf?_eq_some_iff, addLocals_addressAt]
  simp [addLocals]

theorem addLocals_hasAddress {a : Address} :
    (m.addLocals count).code.HasAddress a ↔ m.code.HasAddress a := by
  rw [Code.hasAddress_iff, Code.hasAddress_iff, addLocals_indexOf?]

theorem shiftRegister_lt {r : Register} (hr : r < m.registerCount) :
    shiftRegister m.locals count r < (m.addLocals count).registerCount := by
  have hCount : (m.addLocals count).registerCount = m.locals + count + m.paramCount := rfl
  rw [hCount]
  unfold shiftRegister
  unfold registerCount at hr
  simp only [Register] at *
  split <;> omega

theorem validate_addLocals (hm : m.validate = .ok ()) : (m.addLocals count).validate = .ok () := by
  obtain ⟨hCode, hHandlers⟩ := validate_eq_ok_iff.mp hm
  refine validate_eq_ok_iff.mpr ⟨fun i hi => ?_, fun h hh => addLocals_hasAddress.mpr (hHandlers h hh)⟩
  obtain ⟨old, hOld, rfl⟩ := List.mem_map.mp hi
  refine ⟨fun r hr => ?_, fun t ht => ?_⟩
  · rw [Instruction.reads_mapRegisters, Instruction.writes?_mapRegisters] at hr
    have hOrigin : ∃ q ∈ old.reads ++ old.writes?.toList, shiftRegister m.locals count q = r := by
      rcases List.mem_append.mp hr with hRead | hWrite
      · obtain ⟨q, hq, hSame⟩ := List.mem_map.mp hRead
        exact ⟨q, List.mem_append_left _ hq, hSame⟩
      · obtain ⟨q, hq, hSame⟩ := Option.map_eq_some_iff.mp (Option.mem_toList.mp hWrite)
        exact ⟨q, List.mem_append_right _ (Option.mem_toList.mpr hq), hSame⟩
    obtain ⟨q, hq, rfl⟩ := hOrigin
    exact shiftRegister_lt ((hCode old hOld).registers q hq)
  · rw [Instruction.targets_mapRegisters] at ht
    exact addLocals_hasAddress.mpr ((hCode old hOld).targets t ht)

/-- The numbers of a valid method have room as long as all its registers can be numbered. -/
theorem hasRoom_of_lt (hm : m.validate = .ok ()) (h : m.registerCount + count < Register.limit) :
    m.hasRoom count = true := by
  obtain ⟨hCode, _⟩ := validate_eq_ok_iff.mp hm
  have hCount : (m.addLocals count).registerCount = m.registerCount + count :=
    Nat.add_right_comm m.locals count m.paramCount
  have hLocals : m.locals ≤ m.registerCount := Nat.le_add_right _ _
  simp only [hasRoom, Bool.and_eq_true, decide_eq_true_eq, List.all_eq_true]
  refine ⟨Nat.lt_of_le_of_lt (Nat.add_le_add_right hLocals count) h, fun i hi r hr => ?_⟩
  exact Nat.lt_trans (shiftRegister_lt ((hCode i hi).registers r hr)) (hCount ▸ h)

end Method

/-- A state has as much room as the method that it fits. -/
theorem State.hasRoom_of_fits {s : State} {m : Method} {count : Nat} (hs : s.Fits m) (h : m.hasRoom count = true) :
    s.hasRoom count = true := by
  rw [Method.hasRoom, Bool.and_eq_true] at h
  rw [hasRoom, hs.locals]
  exact h.1

namespace Graph

variable {g : Graph} {count : Nat}

theorem node?_insertLocals (count : Nat) (k : NodeId) :
    (g.insertLocals count).node? k = (g.node? k).map fun n =>
      { n with pre := n.pre.insertLocals count, post := n.post.insertLocals count } := by
  unfold node? insertLocals
  rw [Array.getElem?_map]
  cases g.nodes[k]? with
  | none => rfl
  | some n => cases n <;> rfl

theorem hasRoom_method (h : g.hasRoom count = true) : g.method.hasRoom count = true :=
  ((Bool.and_eq_true ..).mp ((Bool.and_eq_true ..).mp h).1).1

/-- Where every state has the registers of the method, there is room in all of them if there is in the method. -/
theorem hasRoom_of_shaped (hShaped : g.Shaped) (h : g.method.hasRoom count = true) : g.hasRoom count = true := by
  have hState {s : State} (hs : s.Fits g.method) : s.hasRoom count = true := State.hasRoom_of_fits hs h
  simp only [hasRoom, Bool.and_eq_true, List.all_eq_true]
  refine ⟨⟨h, hState hShaped.entry⟩, fun n? hMem => ?_⟩
  obtain ⟨id, hBound, rfl⟩ := List.mem_iff_getElem.mp hMem
  cases hn : g.nodes.toList[id] with
  | none => rfl
  | some n =>
      have hNode : g.node? id = some n := by
        have hSlot : g.nodes[id]? = some (some n) := by
          rw [← Array.getElem?_toList, List.getElem?_eq_getElem hBound, hn]
        simp [node?, hSlot]
      simp [hState (hShaped.pre id n hNode), hState (hShaped.post id n hNode)]

theorem becomes_addLocals (hg : g.Consistent) (count : Nat) :
    g.Becomes ((g.withMethod (g.method.addLocals count)).insertLocals count) some := by
  have hNode (k : NodeId) :=
    node?_insertLocals (g := g.withMethod (g.method.addLocals count)) count k
  have hOwn : (g.withMethod (g.method.addLocals count)).node? = g.node? := rfl
  rw [hOwn] at hNode
  refine ⟨⟨Method.validate_addLocals hg.valid, Code.addresses_eq_sums _, ?_, ?_⟩, fun id => ?_,
    fun hShaped => ⟨hShaped.entry.insertLocals count, fun id n h => ?_, fun id n h => ?_⟩, ⟨count, rfl⟩⟩
  · refine ⟨hg.piled.keys, fun p hp => Method.addLocals_hasAddress.mpr (hg.piled.addresses p hp),
      fun a id => ?_, hg.piled.nodup⟩
    have hPile : ((g.withMethod (g.method.addLocals count)).insertLocals count).pile a = g.pile a :=
      rfl
    rw [hPile, hg.piled.mem_iff, hNode]
    simp [Option.map_eq_some_iff]
  · refine ⟨fun p c => ?_, fun id h => ?_⟩
    · simpa [childrenOf, parentsOf, hNode, Function.comp_def] using hg.linked.both p c
    · simpa [isLive, hNode] using hg.linked.root id h
  · rw [position?, position?, positionIn, positionIn, hNode]
    cases g.node? id with
    | none => rfl
    | some n =>
        refine (Method.addLocals_indexOf? n.address).trans ?_
        cases hIndex : g.method.code.indexOf? n.address <;> simp [hIndex]
  · rw [hNode] at h
    obtain ⟨old, hOld, rfl⟩ := Option.map_eq_some_iff.mp h
    exact (hShaped.pre id old hOld).insertLocals count
  · rw [hNode] at h
    obtain ⟨old, hOld, rfl⟩ := Option.map_eq_some_iff.mp h
    exact (hShaped.post id old hOld).insertLocals count

/-- Only the states after executions, and the heap, have changed. -/
structure Reexecuted (g g' : Graph) : Prop where
  method : g'.method = g.method
  entry : g'.entry = g.entry
  piles : g'.piles = g.piles
  root : g'.root = g.root
  nodes : ∀ k, (g'.node? k).map (fun n => { n with post := n.pre }) =
    (g.node? k).map fun n => { n with post := n.pre }

theorem Reexecuted.refl (g : Graph) : g.Reexecuted g := ⟨rfl, rfl, rfl, rfl, fun _ => rfl⟩

theorem Reexecuted.trans {g g' g'' : Graph} (h : g.Reexecuted g') (h' : g'.Reexecuted g'') :
    g.Reexecuted g'' where
  method := h'.method.trans h.method
  entry := h'.entry.trans h.entry
  piles := h'.piles.trans h.piles
  root := h'.root.trans h.root
  nodes k := (h'.nodes k).trans (h.nodes k)

theorem Reexecuted.of_field {α : Type} {g' : Graph} (h : g.Reexecuted g') (f : Node → α)
    (hf : ∀ n, f n = f { n with post := n.pre }) (k : NodeId) :
    (g'.node? k).map f = (g.node? k).map f := by
  have hSame := congrArg (Option.map f) (h.nodes k)
  simpa [Option.map_map, Function.comp_def, ← hf] using hSame

theorem Reexecuted.consistent {g' : Graph} (h : g.Reexecuted g') (hg : g.Consistent) :
    g'.Consistent where
  valid := h.method ▸ hg.valid
  layout := Code.addresses_eq_sums _
  piled := by
    have hPile : g'.pile = g.pile := by
      funext a
      simp [pile, h.piles]
    rw [h.method]
    refine ⟨h.piles ▸ hg.piled.keys, h.piles ▸ hg.piled.addresses, fun a id => ?_,
      by simpa [hPile] using hg.piled.nodup⟩
    have hAddress := h.of_field Node.address (fun _ => rfl) id
    rw [hPile, hg.piled.mem_iff, ← Option.map_eq_some_iff, ← Option.map_eq_some_iff, hAddress]
  linked := by
    refine ⟨fun p c => ?_, fun id hid => ?_⟩
    · rw [childrenOf, parentsOf, h.of_field Node.children (fun _ => rfl),
        h.of_field Node.parents fun _ => rfl]
      exact hg.linked.both p c
    · have hLive := congrArg Option.isSome (h.nodes id)
      rw [Option.isSome_map, Option.isSome_map] at hLive
      exact hLive.trans (hg.linked.root id (h.root ▸ hid))

theorem Reexecuted.position? {g' : Graph} (h : g.Reexecuted g') (id : NodeId) :
    g'.position? id = g.position? id := by
  have hAddress := h.of_field Node.address (fun _ => rfl) id
  have hBind (g : Graph) :
      g.position? id = ((g.node? id).map Node.address).bind g.method.code.indexOf? := by
    unfold Graph.position? positionIn
    cases g.node? id <;> rfl
  rw [hBind, hBind, hAddress, h.method]

/-- Executing a node again changes the state after it to one with the same registers. -/
theorem reapplyNode_spec (m : Machine) (a : Address) (id : NodeId) (hg : g.Consistent) :
    g.Reexecuted (reapplyNode m a id g).2 ∧ (g.Shaped → (reapplyNode m a id g).2.Shaped) := by
  have hHeap (heap : Heap) : g.Reexecuted { g with heap } := ⟨rfl, rfl, rfl, rfl, fun _ => rfl⟩
  have hShapedHeap (heap : Heap) (h : g.Shaped) : ({ g with heap } : Graph).Shaped :=
    ⟨h.entry, h.pre, h.post⟩
  unfold reapplyNode
  cases hn : g.node? id with
  | none => exact ⟨.refl g, fun h => h⟩
  | some n =>
      have hStep := Semantics.Context.apply_ends (Machine.callsLapse_context m g.method 0) hg.valid
        a n.pre ⟨g.heap, m.limits.maxNodes⟩
      unfold Run.Ends at hStep
      cases hRun : (m.context g.method 0).apply a n.pre ⟨g.heap, m.limits.maxNodes⟩ with
      | mk result s =>
          rw [hRun] at hStep
          dsimp only
          rw [hRun]
          cases result with
          | error e => exact ⟨hHeap s.heap, hShapedHeap s.heap⟩
          | ok step =>
              have hModify (k : NodeId) := node?_modify (g := { g with heap := s.heap }) id
                (fun n => { n with post := step.post }) k
              refine ⟨⟨rfl, rfl, rfl, rfl, fun k => ?_⟩, fun hShaped => ?_⟩
              · rw [hModify]
                split <;> simp [Function.comp_def, node?]
              · have hFits := (hShaped.pre id n hn).of_sameShape hStep.1
                refine ⟨hShaped.entry, fun k n' h => ?_, fun k n' h => ?_⟩
                · rw [hModify] at h
                  split at h
                  · obtain ⟨old, hOld, rfl⟩ := Option.map_eq_some_iff.mp h
                    exact hShaped.pre k old hOld
                  · exact hShaped.pre k n' h
                · rw [hModify] at h
                  split at h
                  · obtain ⟨old, hOld, rfl⟩ := Option.map_eq_some_iff.mp h
                    exact hFits
                  · exact hShaped.post k n' h

theorem reapplyNodes_spec (m : Machine) (a : Address) (ids : List NodeId) (hg : g.Consistent) :
    g.Reexecuted (reapplyNodes m a ids g).2 ∧ (g.Shaped → (reapplyNodes m a ids g).2.Shaped) := by
  induction ids generalizing g with
  | nil => exact ⟨.refl g, fun h => h⟩
  | cons id ids ih =>
      obtain ⟨hFirst, hShaped⟩ := reapplyNode_spec m a id hg
      rw [reapplyNodes, stateful_bind_apply]
      rcases hNode : reapplyNode m a id g with ⟨_ | agrees, g'⟩
      · rw [hNode] at hFirst hShaped
        exact ⟨hFirst, hShaped⟩
      · rw [hNode] at hFirst hShaped
        dsimp only
        split
        · obtain ⟨hRest, hShapedRest⟩ := ih (hFirst.consistent hg)
          exact ⟨hFirst.trans hRest, fun h => hShapedRest (hShaped h)⟩
        · exact ⟨hFirst, hShaped⟩

theorem reapply_spec (m : Machine) (a : Address) (hg : g.Consistent) :
    g.Becomes (reapply m a g).2 some := by
  obtain ⟨hSame, hShaped⟩ := reapplyNodes_spec m a (g.pile a) hg
  exact ⟨hSame.consistent hg, fun id => by rw [reapply, hSame.position?]; simp, hShaped, .of_eq hSame.entry⟩

end Graph

/-- An operation of the editor. -/
inductive Operation where
  | replace (a : Address) (new : Instruction Address)
  | replaceMany (a : Address) (new : Code)
  | insertBefore (a : Address) (new : Instruction Address)
  | insertAfter (a : Address) (new : Instruction Address)
  | remove (a : Address)
  | removeAll (as : List Address)
  | addLocals (count : Nat)
  | refresh (a : Address)
  deriving DecidableEq, Repr

namespace Operation

/-- What an operation does to a draft. -/
def perform (m : Machine) : Operation → Edit Unit
  | replace a new => Edit.replace a new *> return ()
  | replaceMany a new => Edit.replaceMany a new *> return ()
  | insertBefore a new => Edit.insertBefore a new *> return ()
  | insertAfter a new => Edit.insertAfter a new *> return ()
  | remove a => Edit.remove a *> return ()
  | removeAll as => Edit.removeAll as *> return ()
  | addLocals count => Edit.addLocals count
  | refresh a => Edit.refresh m a

/-- The instructions that an operation puts into the body. -/
def inserted : Operation → Code
  | replace _ new => [new]
  | replaceMany _ new => new
  | insertBefore _ new => [new]
  | insertAfter _ new => [new]
  | _ => []

/-- What an operation inserts has its registers and its targets in the method, an instruction is
replaced by at least one other, and registers are added only as long as all can be numbered. -/
structure Fits (op : Operation) (m : Method) : Prop where
  admitted : ∀ i ∈ op.inserted, m.Admits i
  filled : ∀ a new, op = .replaceMany a new → new ≠ []
  numbered : ∀ count, op = .addLocals count → m.registerCount + count < Register.limit

/-- Where an operation that succeeds takes the instruction at a position of a body. An instruction that
is replaced counts as the first of those that replace it. -/
def place? (op : Operation) (code : Code) (i : Nat) : Option Nat :=
  match op with
  | replace a _ => (code.indexOf? a).bind fun p => Code.replacing p 1 i
  | replaceMany a new => (code.indexOf? a).bind fun p => Code.replacing p new.length i
  | insertBefore a _ => (code.indexOf? a).bind fun p => Code.survivor? p 0 1 i
  | insertAfter a _ => (code.indexOf? a).bind fun p => Code.survivor? (p + 1) 0 1 i
  | remove a => code.remaining [a] i
  | removeAll as => code.remaining as i
  | addLocals _ => some i
  | refresh _ => some i

/-- Where an operation on a draft takes the instruction at a position. One that fails leaves all
instructions where they are. -/
def moved (m : Machine) (op : Operation) (d : Draft) (i : Nat) : Option Nat :=
  match (op.perform m d).1 with
  | .ok _ => op.place? d.graph.method.code i
  | .error _ => some i

end Operation

/-- A draft comes from another one by operations that fit, one after another, each of which succeeds
or fails. `move` says where the instructions have gone. -/
inductive Edited (m : Machine) (start : Draft) : Draft → (Nat → Option Nat) → Prop where
  | refl : Edited m start start some
  | step {d : Draft} {move : Nat → Option Nat} (op : Operation) :
      Edited m start d move → op.Fits d.graph.method →
      Edited m start (op.perform m d).2 fun i => (move i).bind (op.moved m d)

namespace Edit

variable {α : Type} {d : Draft}

theorem discard_apply (e : Edit α) (d : Draft) :
    (e *> return () : Edit Unit) d = ((e d).1.map fun _ => (), (e d).2) := by
  change (e >>= fun _ => return ()) d = _
  rw [stateful_bind_apply]
  rcases e d with ⟨_ | _, _⟩ <;> rfl

/-- An edit that either does nothing or takes the graph along is an operation that keeps it
consistent. -/
theorem becomes_of_edit {m : Machine} {op : Operation} {e : Edit α} (hd : d.graph.Consistent)
    (hOp : op.perform m = e *> return ())
    (h : (∃ error, e d = (.error error, d)) ∨
      ∃ v g, e d = (.ok v, { d with graph := g }) ∧
        d.graph.Becomes g (op.place? d.graph.method.code)) :
    d.graph.Becomes (op.perform m d).2.graph (op.moved m d) := by
  have hRun : op.perform m d = ((e d).1.map fun _ => (), (e d).2) := by rw [hOp, discard_apply]
  rcases h with ⟨error, hError⟩ | ⟨v, g, hOk, hBecomes⟩
  · have hMoved : op.moved m d = some := by
      funext i
      simp [Operation.moved, hRun, hError, Except.map]
    rw [hMoved, hRun, hError]
    exact .refl hd
  · have hMoved : op.moved m d = op.place? d.graph.method.code := by
      funext i
      simp [Operation.moved, hRun, hOk, Except.map]
    rw [hMoved, hRun, hOk]
    exact hBecomes

theorem addLocals_of_hasRoom {count : Nat} (h : d.graph.hasRoom count = true) :
    addLocals count d = (.ok (), { d with
      graph := (d.graph.withMethod (d.graph.method.addLocals count)).insertLocals count }) := by
  rw [addLocals, stateful_bind_apply]
  change (if d.graph.hasRoom count = true then modifyGraph _ else throw .overflow : Edit Unit) d = _
  rw [if_pos h]
  rfl

theorem addLocals_of_full {count : Nat} (h : d.graph.hasRoom count = false) :
    addLocals count d = (.error .overflow, d) := by
  rw [addLocals, stateful_bind_apply]
  change (if d.graph.hasRoom count = true then modifyGraph _ else throw .overflow : Edit Unit) d = _
  rw [if_neg (by simp [h])]
  rfl

theorem becomes_addLocals (m : Machine) (hd : d.graph.Consistent) (count : Nat) :
    d.graph.Becomes ((Operation.addLocals count).perform m d).2.graph
      ((Operation.addLocals count).moved m d) := by
  have hMoved : (Operation.addLocals count).moved m d = some := by
    funext i
    unfold Operation.moved
    split <;> rfl
  rw [hMoved, Operation.perform]
  cases hRoom : d.graph.hasRoom count with
  | true =>
      rw [addLocals_of_hasRoom hRoom]
      exact Graph.becomes_addLocals hd count
  | false =>
      rw [addLocals_of_full hRoom]
      exact .refl hd

/-- Whether it fails or not, executing an instruction again changes the graph by that alone. -/
theorem refresh_graph (m : Machine) (a : Address) (d : Draft) :
    (refresh m a d).2.graph = d.graph ∨
      (refresh m a d).2.graph = (Graph.reapply m a d.graph).2 := by
  rw [refresh, index_bind]
  cases d.graph.method.code.indexOf? a with
  | none => exact .inl rfl
  | some p =>
      refine .inr ?_
      dsimp only
      rw [stateful_bind_apply]
      rcases Graph.reapply m a d.graph with ⟨_ | agrees, g⟩
      · rfl
      · cases agrees <;> rfl

theorem becomes_refresh (m : Machine) (hd : d.graph.Consistent) (a : Address) :
    d.graph.Becomes ((Operation.refresh a).perform m d).2.graph
      ((Operation.refresh a).moved m d) := by
  have hMoved : (Operation.refresh a).moved m d = some := by
    funext i
    unfold Operation.moved
    split <;> rfl
  have hGraph : ((Operation.refresh a).perform m d).2.graph = d.graph ∨
      ((Operation.refresh a).perform m d).2.graph = (Graph.reapply m a d.graph).2 :=
    refresh_graph m a d
  rw [hMoved]
  rcases hGraph with hSame | hAgain
  · rw [hSame]
    exact .refl hd
  · rw [hAgain]
    exact Graph.reapply_spec m a hd

end Edit

namespace Operation

/-- An operation that fits keeps the graph consistent with the method, whether it succeeds or fails,
and every node goes where its instruction goes. -/
theorem perform_becomes (m : Machine) {op : Operation} {d : Draft} (hd : d.graph.Consistent)
    (hFits : op.Fits d.graph.method) :
    d.graph.Becomes (op.perform m d).2.graph (op.moved m d) := by
  have hOne {i : Instruction Address} (h : ∀ j ∈ [i], d.graph.method.Admits j) :
      d.graph.method.Admits i := h i (.head _)
  have hFound {a : Address} {p : Nat} (move : Nat → Nat → Option Nat) {g : Graph}
      (hp : d.graph.method.code.indexOf? a = some p) (h : d.graph.Becomes g (move p)) :
      d.graph.Becomes g fun i => (d.graph.method.code.indexOf? a).bind fun p => move p i := by
    simpa [hp] using h
  cases op with
  | replace a new =>
      refine Edit.becomes_of_edit (e := Edit.replaceMany a [new]) hd rfl ?_
      rcases Edit.replaceMany_spec (a := a) hd (List.cons_ne_nil new []) hFits.admitted with
        ⟨_, hError⟩ | ⟨p, r, g, hp, hOk, hBecomes⟩
      · exact .inl ⟨_, hError⟩
      · exact .inr ⟨r, g, hOk, hFound (fun p => Code.replacing p 1) hp hBecomes⟩
  | replaceMany a new =>
      refine Edit.becomes_of_edit (e := Edit.replaceMany a new) hd rfl ?_
      rcases Edit.replaceMany_spec (a := a) hd (hFits.filled a new rfl) hFits.admitted with
        ⟨_, hError⟩ | ⟨p, r, g, hp, hOk, hBecomes⟩
      · exact .inl ⟨_, hError⟩
      · exact .inr ⟨r, g, hOk, hFound (fun p => Code.replacing p new.length) hp hBecomes⟩
  | insertBefore a new =>
      refine Edit.becomes_of_edit (e := Edit.insertBefore a new) hd rfl ?_
      rcases Edit.insertBefore_spec (a := a) hd (hOne hFits.admitted) with
        ⟨_, hError⟩ | ⟨p, r, g, hp, hOk, hBecomes⟩
      · exact .inl ⟨_, hError⟩
      · exact .inr ⟨r, g, hOk, hFound (fun p => Code.survivor? p 0 1) hp hBecomes⟩
  | insertAfter a new =>
      refine Edit.becomes_of_edit (e := Edit.insertAfter a new) hd rfl ?_
      rcases Edit.insertAfter_spec (a := a) hd (hOne hFits.admitted) with
        ⟨_, hError⟩ | ⟨p, r, g, hp, hOk, hBecomes⟩
      · exact .inl ⟨_, hError⟩
      · exact .inr ⟨r, g, hOk, hFound (fun p => Code.survivor? (p + 1) 0 1) hp hBecomes⟩
  | remove a => exact Edit.becomes_of_edit hd rfl (Edit.removeAll_spec hd [a])
  | removeAll as => exact Edit.becomes_of_edit hd rfl (Edit.removeAll_spec hd as)
  | addLocals count => exact Edit.becomes_addLocals m hd count
  | refresh a => exact Edit.becomes_refresh m hd a

end Operation

theorem Edited.becomes {m : Machine} {start d : Draft} {move : Nat → Option Nat}
    (hStart : start.graph.Consistent) (h : Edited m start d move) :
    start.graph.Becomes d.graph move := by
  induction h with
  | refl => exact .refl hStart
  | step op _ hFits ih => exact ih.trans (op.perform_becomes m ih.consistent hFits)

/-- Whatever operations that fit are performed on the graph of an execution, and whether they succeed
or fail, the graph stays consistent with its method. Every node that is left is at the address where
its instruction has gone, and if the execution started from a state of the method, then all states
have the registers of the edited one. More registers can then be added as long as all can be
numbered. -/
theorem consistent_of_edited {m : Machine} {method : Method} {entry : State} {g : Graph}
    {stale : Bool} {d : Draft} {move : Nat → Option Nat} (hRun : m.execute method entry = .ok g)
    (hEdited : Edited m ⟨g, stale⟩ d move) :
    d.graph.Consistent ∧ (∀ id, d.graph.position? id = (g.position? id).bind move) ∧
      (entry.Fits method → d.graph.Shaped ∧ ∀ count,
        d.graph.method.registerCount + count < Register.limit →
          ∃ d', (Operation.addLocals count).perform m d = (.ok (), d')) := by
  obtain ⟨_, _, hConsistent, hShaped⟩ := Machine.execute_consistent hRun
  have hBecomes := hEdited.becomes hConsistent
  refine ⟨hBecomes.consistent, hBecomes.positions, fun h => ?_⟩
  have hStates := hBecomes.shaped (hShaped h)
  refine ⟨hStates, fun count hCount => ⟨_, Edit.addLocals_of_hasRoom ?_⟩⟩
  exact Graph.hasRoom_of_shaped hStates (Method.hasRoom_of_lt hBecomes.consistent.valid hCount)

/-- A machine without classes that explores a few executions. -/
def smallMachine : Machine := ⟨.empty, ⟨8, 4, 1⟩⟩

/-- A method that jumps over an instruction or not, depending on its argument. -/
def skippingMethod : Method where
  reference := ⟨⟨"La;"⟩, "run", [.int], .void⟩
  flags := { static := true }
  locals := 1
  code := [.const 0 (.int 0), .branch .eq 1 none 6, .nop, .returnVoid]
  tries := []

/-- The draft of `skippingMethod` after an execution of which nothing is known of the argument. -/
def skippingDraft : Draft where
  graph :=
    match smallMachine.execute skippingMethod (Machine.initialState skippingMethod) with
    | .ok g => g
    | .error _ => .start skippingMethod (Machine.initialState skippingMethod)
  stale := false

/-- The instruction that is jumped over is removed, and another one is put before the first one. -/
theorem consistent_of_edited_skippingMethod :
    let removed := ((Operation.remove 5).perform smallMachine skippingDraft).2
    let d := ((Operation.insertBefore 0 (.goto 3)).perform smallMachine removed).2
    let move := fun i => ((some i).bind ((Operation.remove 5).moved smallMachine skippingDraft)).bind
      ((Operation.insertBefore 0 (.goto 3)).moved smallMachine removed)
    d.graph.Consistent ∧
      (∀ id, d.graph.position? id = (skippingDraft.graph.position? id).bind move) ∧
      ((Machine.initialState skippingMethod).Fits skippingMethod → d.graph.Shaped ∧ ∀ count,
        d.graph.method.registerCount + count < Register.limit →
          ∃ d', (Operation.addLocals count).perform smallMachine d = (.ok (), d')) :=
  consistent_of_edited
    (show smallMachine.execute skippingMethod (Machine.initialState skippingMethod) =
      .ok skippingDraft.graph from rfl)
    (.step (.insertBefore 0 (.goto 3))
      (.step (.remove 5) .refl ⟨by simp [Operation.inserted], by simp, by simp⟩)
      ⟨fun i hi => by
        obtain rfl : i = .goto 3 := by simpa [Operation.inserted] using hi
        exact ⟨by simp [Instruction.reads, Instruction.writes?],
          fun t ht => ⟨1, by decide +kernel, by
            obtain rfl : t = 3 := by simpa [Instruction.targets] using ht
            decide +kernel⟩⟩, by simp, by simp⟩)

/-- Registers that cannot be numbered are not added: the program ends, and leaves no graph. -/
theorem not_edited_of_full :
    ¬ ∀ (m : Machine) (method : Method) (entry : State) (g : Graph) (count : Nat),
      method.validate = .ok () → entry.Fits method → m.execute method entry = .ok g →
        ∃ d, (Operation.addLocals count).perform m ⟨g, false⟩ = (.ok (), d) ∧ d.graph.Consistent ∧
          d.graph.Shaped := by
  intro h
  obtain ⟨d, hAdded, _⟩ := h smallMachine skippingMethod (Machine.initialState skippingMethod) skippingDraft.graph
    0xffff (by decide) ⟨rfl, rfl⟩ rfl
  have hFull : skippingDraft.graph.hasRoom 0xffff = false := by decide +kernel
  rw [Operation.perform, Edit.addLocals_of_full (d := ⟨skippingDraft.graph, false⟩) hFull] at hAdded
  cases hAdded

end Dalvik
