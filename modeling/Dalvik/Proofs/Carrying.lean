import Dalvik.Proofs.Moving

/-!
Where executions are after an edit. Those of instructions that are still there have gone with them, with the same
states before and after them, and those of a removed one are gone.
-/

namespace Dalvik

/-- An edit is refused because control would be left without a place to go to. -/
def EditError.Refuses (e : EditError) : Prop := ∃ a, e = .wouldDisconnect a

namespace Graph

/-- Where the execution of a node takes place, and the states before and after it. -/
def view (g : Graph) (id : NodeId) : Option (Address × State × State) :=
  (g.node? id).map fun n => (n.address, n.pre, n.post)

/-- The executions of a graph are those of another one whose instructions are still there, at the addresses
to which these have moved. -/
def Carried (g g' : Graph) (label : Address → Address)
    (stands : Address → Option (Instruction Address)) : Prop :=
  ∀ id, g'.view id =
    ((g.view id).filter fun v => (stands v.1).isSome).map fun v => (label v.1, v.2)

variable {g g' g'' : Graph} {label label' : Address → Address}
  {stands stands' stands'' : Address → Option (Instruction Address)}

theorem view_eq_some_iff {id : NodeId} {a : Address} {pre post : State} :
    g.view id = some (a, pre, post) ↔
      ∃ n, g.node? id = some n ∧ n.address = a ∧ n.pre = pre ∧ n.post = post := by
  simp [view, Option.map_eq_some_iff]

/-- An execution stays if there is still something in place of its instruction. -/
theorem Carried.exists_node (h : g.Carried g' label stands) {id : NodeId} {n : Node}
    (hn : g.node? id = some n) {j : Instruction Address} (hj : stands n.address = some j) :
    ∃ n', g'.node? id = some n' ∧ n'.address = label n.address ∧ n'.pre = n.pre ∧ n'.post = n.post := by
  have hView := h id
  rw [view_eq_some_iff.mpr ⟨n, hn, rfl, rfl, rfl⟩, Option.filter_some_pos (by simp [hj])] at hView
  exact view_eq_some_iff.mp hView

/-- Every execution that is left has been there before. -/
theorem Carried.exists_origin (h : g.Carried g' label stands) {id : NodeId} {n' : Node}
    (hn' : g'.node? id = some n') :
    ∃ n j, g.node? id = some n ∧ stands n.address = some j := by
  have hView := h id
  rw [view_eq_some_iff.mpr ⟨n', hn', rfl, rfl, rfl⟩] at hView
  obtain ⟨v, hv, _⟩ := Option.map_eq_some_iff.mp hView.symm
  obtain ⟨hOld, hSome⟩ := Option.filter_eq_some_iff.mp hv
  obtain ⟨n, hn, hAddress, _⟩ := view_eq_some_iff.mp hOld
  rw [← hAddress] at hSome
  obtain ⟨j, hj⟩ := Option.isSome_iff_exists.mp hSome
  exact ⟨n, j, hn, hj⟩

theorem Piled.hasAddress_view {code : Code} (hg : g.Piled code) {id : NodeId}
    {v : Address × State × State} (h : g.view id = some v) : code.HasAddress v.1 := by
  obtain ⟨n, hn, hAddress, _⟩ := view_eq_some_iff.mp h
  exact hAddress ▸ hg.hasAddress hn

theorem Carried.refl (hg : g.Piled g.method.code) : g.Carried g id g.method.code.at? := by
  intro k
  cases hView : g.view k with
  | none => rfl
  | some v =>
      obtain ⟨i, hi⟩ := Code.exists_at? (hg.hasAddress_view hView)
      simp [Option.filter, hi]

theorem Carried.trans (h : g.Carried g' label stands) (h' : g'.Carried g'' label' stands')
    (hg : g.Piled g.method.code)
    (hStands : ∀ a, g.method.code.HasAddress a →
      ((stands a).bind fun _ => stands' (label a)) = (stands'' a).map (Instruction.mapTargets label)) :
    g.Carried g'' (label' ∘ label) stands'' := by
  intro k
  rw [h' k, h k]
  cases hView : g.view k with
  | none => rfl
  | some v =>
      have hBoth := congrArg Option.isSome (hStands v.1 (hg.hasAddress_view hView))
      rw [Option.isSome_map] at hBoth
      cases hFirst : stands v.1 with
      | none =>
          rw [hFirst] at hBoth
          simp [Option.filter, hFirst, ← hBoth]
      | some j =>
          rw [hFirst] at hBoth
          simp only [Option.bind_some] at hBoth
          simp [Option.filter, hFirst, ← hBoth]

theorem view_relocate {m : Method} {r : Relocation} {move : Nat → Option Nat}
    (hg : g.Piled g.method.code) (hr : r.Moves g.method.code m.code move)
    (hKept : ∀ i, i < g.method.code.length → g.pile (g.method.code.addressAt i) ≠ [] →
      (move i).isSome) (id : NodeId) :
    ((g.withMethod m).relocate r).view id =
      (g.view id).map fun v => ((r.insn? v.1).getD v.1, v.2) := by
  unfold view
  rw [(relocate_spec (g := g.withMethod m) (hg.withMethod m) hr hKept).1, Option.map_map, Option.map_map]
  rfl

theorem view_removePile (a : Address) (id : NodeId) :
    (g.removePile a).view id = if id ∈ g.pile a then none else g.view id := by
  have hView (g : Graph) : g.view id = (g.bare? id).map fun n => (n.address, n.pre, n.post) := by
    unfold view bare?
    rw [Option.map_map]
    rfl
  rw [hView, hView, bare?_removePile]
  split <;> rfl


/-- What is left of the other instructions is where control goes that went to them. -/
theorem insn?_eq_label {m : Method} {p : Nat} {new : Code} {retarget : Bool} {i : Nat}
    (hi : i < m.code.length) (hOther : i ≠ p) :
    (m.splice p 1 new retarget).2.insn? (m.code.addressAt i) =
      some ((m.splice p 1 new retarget).2.label (m.code.addressAt i)) := by
  have hSome : (Code.survivor? p 1 new.length i).isSome = true :=
    Code.isSome_survivor? (Nat.lt_or_gt_of_ne hOther)
  obtain ⟨j, hj⟩ := Option.isSome_iff_exists.mp hSome
  rw [Method.splice_insn?_addressAt hi, Method.splice_label_addressAt hi, hj]
  have hLanding : Code.landing p 1 new.length retarget i = j ∨ i = p ∧ _ := Code.landing_of_survivor hj
  rcases hLanding with hLands | ⟨hHere, _⟩
  · rw [hLands]
    rfl
  · exact absurd hHere hOther

theorem carried_replaced (hg : g.Piled g.method.code) {p : Nat} (hp : p < g.method.code.length)
    (new : Instruction Address) :
    g.Carried ((g.withMethod (g.method.splice p 1 [new] true).1).relocate
        ((g.method.splice p 1 [new] true).2.followLabel (g.method.code.addressAt p)))
      (g.method.splice p 1 [new] true).2.label (g.method.code.exchanged p (some new)) := by
  intro k
  rw [view_relocate hg (Method.replacement_moves hp (List.cons_ne_nil new [])) fun _ _ _ =>
    Code.isSome_replacing]
  cases hView : g.view k with
  | none => rfl
  | some v =>
      obtain ⟨i, hi, hAddress⟩ := hg.hasAddress_view hView
      by_cases hHere : i = p
      · subst hHere
        rw [Option.filter_some_pos (by rw [← hAddress, Code.exchanged_here]; rfl), Option.map_some,
          Option.map_some, Relocation.insn?_followLabel, if_pos hAddress.symm, ← hAddress]
        rfl
      · have hOther : v.1 ≠ g.method.code.addressAt p := by
          rw [← hAddress]
          exact fun hSame => hHere (Code.addressAt_injective (Nat.le_of_lt hi) (Nat.le_of_lt hp) hSame)
        rw [Option.filter_some_pos, Option.map_some, Option.map_some, Relocation.insn?_followLabel,
          if_neg hOther, ← hAddress, insn?_eq_label hi hHere]
        · rfl
        · rw [← hAddress, Code.exchanged_addressAt hp hi hHere, List.getElem?_eq_getElem hi]
          rfl

theorem carried_removeAt (hg : g.Piled g.method.code) {p : Nat} (hp : p < g.method.code.length) :
    g.Carried (g.removeAt p) (g.method.splice p 1 [] false).2.label
      (g.method.code.exchanged p none) := by
  intro k
  rw [removeAt, view_relocate (piled_removePile hg _) (moves_without hp) kept_without, view_removePile]
  cases hView : g.view k with
  | none => simp
  | some v =>
      obtain ⟨n, hn, hPlace, _⟩ := view_eq_some_iff.mp hView
      obtain ⟨i, hi, hAddress⟩ := hg.hasAddress_view hView
      have hMem : k ∈ g.pile (g.method.code.addressAt p) ↔ v.1 = g.method.code.addressAt p := by
        rw [hg.mem_iff, ← hPlace]
        constructor
        · rintro ⟨n', hn', hHere⟩
          rw [hn] at hn'
          obtain rfl := Option.some.inj hn'
          exact hHere
        · exact fun hHere => ⟨n, hn, hHere⟩
      by_cases hHere : v.1 = g.method.code.addressAt p
      · rw [if_pos (hMem.mpr hHere), Option.filter_some_neg]
        · rfl
        · rw [hHere, Code.exchanged_here]
          rfl
      · have hOther : i ≠ p := fun hSame => hHere (by rw [← hAddress, hSame])
        rw [if_neg (fun hMine => hHere (hMem.mp hMine)), Option.filter_some_pos, Option.map_some,
          Option.map_some, ← hAddress, insn?_eq_label hi hOther]
        · rfl
        · rw [← hAddress, Code.exchanged_addressAt hp hi hOther, List.getElem?_eq_getElem hi]
          rfl

/-- The executions of a graph have been explored as far as in another one. -/
def Marks (g g' : Graph) : Prop :=
  ∀ k n', g'.node? k = some n' → ∃ n, g.node? k = some n ∧ n'.truncated = n.truncated

theorem Marks.refl (g : Graph) : g.Marks g := fun _ n hn => ⟨n, hn, rfl⟩

theorem Marks.trans (h : g.Marks g') (h' : g'.Marks g'') : g.Marks g'' := by
  intro k n'' hn''
  obtain ⟨n', hn', hLater⟩ := h' k n'' hn''
  obtain ⟨n, hn, hFirst⟩ := h k n' hn'
  exact ⟨n, hn, hLater.trans hFirst⟩

theorem marks_relocate {m : Method} {r : Relocation} {move : Nat → Option Nat} (hg : g.Piled g.method.code)
    (hr : r.Moves g.method.code m.code move)
    (hKept : ∀ i, i < g.method.code.length → g.pile (g.method.code.addressAt i) ≠ [] → (move i).isSome) :
    g.Marks ((g.withMethod m).relocate r) := by
  intro k n' hn'
  rw [(relocate_spec (g := g.withMethod m) (hg.withMethod m) hr hKept).1] at hn'
  obtain ⟨n, hn, rfl⟩ := Option.map_eq_some_iff.mp hn'
  exact ⟨n, hn, rfl⟩

theorem marks_removePile (a : Address) : g.Marks (g.removePile a) := by
  intro k n' hn'
  have hBare : (g.removePile a).bare? k = some n'.bare := congrArg (Option.map Node.bare) hn'
  rw [bare?_removePile] at hBare
  split at hBare
  · cases hBare
  · obtain ⟨n, hn, hSame⟩ := Option.map_eq_some_iff.mp hBare
    exact ⟨n, hn, (congrArg Node.truncated hSame).symm⟩

theorem marks_replaced (hg : g.Piled g.method.code) {p : Nat} (hp : p < g.method.code.length)
    (new : Instruction Address) :
    g.Marks ((g.withMethod (g.method.splice p 1 [new] true).1).relocate
      ((g.method.splice p 1 [new] true).2.followLabel (g.method.code.addressAt p))) :=
  marks_relocate hg (Method.replacement_moves hp (List.cons_ne_nil new [])) fun _ _ _ => Code.isSome_replacing

theorem marks_removeAt (hg : g.Piled g.method.code) {p : Nat} (hp : p < g.method.code.length) :
    g.Marks (g.removeAt p) :=
  (marks_removePile _).trans (marks_relocate (piled_removePile hg _) (moves_without hp) kept_without)

theorem except_bind_eq_error {α β ε : Type} {r : Except ε α} {f : α → Except ε β} {e : ε} :
    (r >>= f) = .error e ↔ r = .error e ∨ ∃ v, r = .ok v ∧ f v = .error e := by
  cases r <;> simp [bind, Except.bind]

theorem forM_eq_error {α ε : Type} {f : α → Except ε Unit} {P : ε → Prop} {as : List α} {e : ε}
    (hf : ∀ a e, f a = .error e → P e) (h : as.forM f = .error e) : P e := by
  induction as with
  | nil => cases h
  | cons a as ih =>
      change (f a >>= fun _ => as.forM f) = .error e at h
      rcases except_bind_eq_error.mp h with hFirst | ⟨_, _, hRest⟩
      · exact hf a e hFirst
      · exact ih hRest

/-- Instructions that there are can be removed unless that would leave control without a place to go
to. -/
theorem refuses_of_checkRemoval {as : List Address} {e : EditError}
    (hAll : ∀ a ∈ as, g.method.code.HasAddress a) (h : g.checkRemoval as = .error e) : e.Refuses := by
  have hLanding (last : Option Nat) (t : Address) (e : EditError)
      (he : g.checkLanding last t = .error e) : e.Refuses := by
    unfold checkLanding at he
    split at he
    · cases he
    · exact ⟨t, (Except.error.inj he).symm⟩
  unfold checkRemoval at h
  rcases except_bind_eq_error.mp h with hNone | ⟨_, _, h⟩
  · obtain ⟨removed, hRemoved⟩ := exists_mapM_index hAll
    rw [hRemoved] at hNone
    cases hNone
  · rcases except_bind_eq_error.mp h with hTargets | ⟨_, _, h⟩
    · exact forM_eq_error (fun _ _ => forM_eq_error fun t => hLanding _ t) hTargets
    · rcases except_bind_eq_error.mp h with hHandlers | ⟨_, _, h⟩
      · exact forM_eq_error (fun k : Handler => hLanding _ k.target) hHandlers
      · refine forM_eq_error (fun a e he => ?_) h
        split at he
        · exact ⟨a, (Except.error.inj he).symm⟩
        · cases he

end Graph

namespace Edit

variable {d : Draft} {a : Address} {p : Nat}

theorem replace_of_indexOf? (hp : d.graph.method.code.indexOf? a = some p) (new : Instruction Address) :
    replace a new d = (.ok ((d.graph.method.splice p 1 [new] true).2.followLabel a),
      { d with
        graph := (d.graph.withMethod (d.graph.method.splice p 1 [new] true).1).relocate
          ((d.graph.method.splice p 1 [new] true).2.followLabel a) }) := by
  rw [replace, replaceMany, index_bind, hp]
  rfl

theorem replace_yields (hp : d.graph.method.code.indexOf? a = some p) (new : Instruction Address) :
    Yields (replace a new) d fun r d' =>
      r.label = (d.graph.method.splice p 1 [new] true).2.label ∧
        d'.graph = (d.graph.withMethod (d.graph.method.splice p 1 [new] true).1).relocate
          ((d.graph.method.splice p 1 [new] true).2.followLabel a) :=
  yields_of_eq (replace_of_indexOf? hp new) ⟨rfl, rfl⟩

theorem remove_of_ok (hp : d.graph.method.code.indexOf? a = some p) {u : Unit}
    (h : d.graph.checkRemoval [a] = .ok u) :
    remove a d = (.ok (d.graph.method.splice p 1 [] false).2,
      { d with graph := d.graph.removeAt p }) := by
  have hChecked : d.graph.checkRemoval (Graph.ascending [a]) = .ok u := h
  rw [remove, removeAll_of_ok hChecked]
  exact removeEach_cons hp

theorem remove_of_error {e : EditError} (h : d.graph.checkRemoval [a] = .error e) :
    remove a d = (.error e, d) := by
  have hChecked : d.graph.checkRemoval (Graph.ascending [a]) = .error e := h
  rw [remove, removeAll_of_error hChecked]

end Edit

end Dalvik
