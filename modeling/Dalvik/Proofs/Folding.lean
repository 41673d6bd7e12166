import Dalvik.Proofs.Carrying
import Dalvik.Proofs.Passes

/-!
What carrying out the plans of constant propagation makes of a method and of its graph. Everything that is
not planned for stays as it is, and the executions of what is still there stay with it.
-/

namespace Dalvik

namespace Constants

/-- What stands in place of an instruction once its plan has been carried out. -/
def Plan.insn? : Plan → Option (Instruction Address)
  | load dst l => some (.const dst l)
  | jump t => some (.goto t)
  | drop => none

/-- A graph has come from another one, and its method from that of the other one, while plans for the
instructions from a position on were carried out. -/
structure Rewritten (g g' : Graph) (label : Address → Address)
    (stands : Address → Option (Instruction Address)) (bound : Nat) : Prop
    extends g.method.Reworked g'.method label stands bound where
  consistent : g'.Consistent
  carried : g.Carried g' label stands
  planned : ∀ a i, g.method.code.at? a = some i → stands a = some i ∨
    ∃ plan kind, g.isReached a = true ∧ plan? g a i = some (plan, kind) ∧ stands a = plan.insn?

variable {g g' : Graph} {label : Address → Address} {stands : Address → Option (Instruction Address)}
  {bound : Nat}

theorem Rewritten.refl (hg : g.Consistent) (hBounded : g.method.Bounded) :
    Rewritten g g id g.method.code.at? g.method.code.length where
  toReworked := .refl hBounded
  consistent := hg
  carried := .refl hg.piled
  planned _ _ hi := .inl hi

/-- What is planned for an instruction is carried out at a position before all that has been changed so
far. -/
theorem Rewritten.step (h : Rewritten g g' label stands bound) (hg : g.Consistent) {p : Nat}
    (hp : p < bound) {i : Instruction Address} (hi : g.method.code[p]? = some i) {plan : Plan}
    {kind : Category} (hReached : g.isReached (g.method.code.addressAt p) = true)
    (hPlan : plan? g (g.method.code.addressAt p) i = some (plan, kind)) {g'' : Graph}
    {new : Code} {retarget : Bool} (hNew : g''.Consistent)
    (hMethod : g''.method = (g'.method.splice p 1 new retarget).1)
    (hMoved : g'.method.Moved g''.method (g'.method.splice p 1 new retarget).2.label
      (g'.method.code.exchanged p (plan.insn?.map (Instruction.mapTargets label))))
    (hCarried : g'.Carried g'' (g'.method.splice p 1 new retarget).2.label
      (g'.method.code.exchanged p (plan.insn?.map (Instruction.mapTargets label)))) :
    Rewritten g g'' ((g'.method.splice p 1 new retarget).2.label ∘ label)
      (Function.update stands (g.method.code.addressAt p) plan.insn?) p := by
  have hBound : p < g.method.code.length := (List.getElem?_eq_some_iff.mp hi).1
  refine ⟨h.toReworked.step hp hBound _ hMoved hMethod, hNew,
    h.carried.trans hCarried hg.piled fun a ha => h.toReworked.bind_exchanged hp hBound plan.insn? ha,
    fun a j hj => ?_⟩
  by_cases hSame : a = g.method.code.addressAt p
  · subst hSame
    rw [Code.at?_addressAt hi] at hj
    obtain rfl := Option.some.inj hj
    exact .inr ⟨plan, kind, hReached, hPlan, Function.update_self ..⟩
  · rw [Function.update_of_ne hSame]
    exact h.planned a j hj

/-- A plan that puts an instruction in place of another one replaces that. -/
theorem carryOut_replaces {m : Method} {d : Draft} (hd : d.graph.Consistent)
    (hFrom : m.EditedFrom d.graph.method label bound) {p : Nat} (hp : p < bound) {i : Instruction Address}
    (hi : m.code[p]? = some i) {plan : Plan} (hSuits : Suits plan i) {new : Instruction Address}
    (hNew : plan.insn?.map (Instruction.mapTargets label) = some new) :
    ∃ r d', carryOut (m.code.addressAt p) (plan.retarget label) d = (.ok (some r), d') ∧
      r.label = (d.graph.method.splice p 1 [new] true).2.label ∧
      d'.graph = (d.graph.withMethod (d.graph.method.splice p 1 [new] true).1).relocate
        ((d.graph.method.splice p 1 [new] true).2.followLabel (d.graph.method.code.addressAt p)) ∧
      d'.graph.method = (d.graph.method.splice p 1 [new] true).1 ∧ d'.graph.Consistent := by
  obtain ⟨hAddress, hNow⟩ := hFrom.found hp hi
  have hBound : p < d.graph.method.code.length := (List.getElem?_eq_some_iff.mp hNow).1
  have hLeads := carryOut_leads hd hFrom hp hi hSuits
  have hRun : carryOut (d.graph.method.code.addressAt p) (plan.retarget label) =
      some <$> Edit.replace (d.graph.method.code.addressAt p) new := by
    cases plan with
    | load dst l =>
        obtain rfl := Option.some.inj hNew
        rfl
    | jump t =>
        obtain rfl := Option.some.inj hNew
        rfl
    | drop => cases hNew
  obtain ⟨r, d', hReplaced, hLabel, hGraph⟩ :=
    (Edit.replace_yields (Code.indexOf?_addressAt hBound) new).exists_eq
  have hDone : carryOut (d.graph.method.code.addressAt p) (plan.retarget label) d = (.ok (some r), d') := by
    rw [hRun, ← bind_pure_comp, stateful_bind_apply, hReplaced]
    rfl
  unfold Leads at hLeads
  rw [hAddress, hDone] at hLeads
  have hMethod : d'.graph.method = (d.graph.method.splice p 1 [new] true).1 := by
    rw [hGraph]
    exact (Graph.method_relocate hd.piled
      (Method.replacement_moves hBound (List.cons_ne_nil new [])) fun _ _ _ => Code.isSome_replacing).1
  exact ⟨r, d', hAddress ▸ hDone, hLabel, hGraph, hMethod, hLeads.1.consistent⟩

/-- What is carried out by replacing the instruction. -/
theorem carryOut_yields_replace {d : Draft} (hg : g.Consistent)
    (h : Rewritten g d.graph label stands bound) {p : Nat} (hp : p < bound) {i : Instruction Address}
    (hi : g.method.code[p]? = some i) {plan : Plan} {kind : Category}
    (hReached : g.isReached (g.method.code.addressAt p) = true)
    (hPlan : plan? g (g.method.code.addressAt p) i = some (plan, kind)) {new : Instruction Address}
    (hNew : plan.insn?.map (Instruction.mapTargets label) = some new) :
    Yields (carryOut (g.method.code.addressAt p) (plan.retarget label)) d fun r? d' =>
      ∃ r stands', r? = some r ∧ Rewritten g d'.graph (r.label ∘ label) stands' p := by
  have hBound : p < d.graph.method.code.length := (List.getElem?_eq_some_iff.mp (h.edited.found hp hi).2).1
  obtain ⟨r, d', hDone, hLabel, hGraph, hMethod, hConsistent⟩ :=
    carryOut_replaces h.consistent h.edited hp hi (suits_of_plan? hPlan) hNew
  refine yields_of_eq hDone ⟨r, Function.update stands (g.method.code.addressAt p) plan.insn?, rfl, ?_⟩
  rw [hLabel]
  refine h.step hg hp hi hReached hPlan hConsistent hMethod ?_ ?_
  · rw [hMethod, hNew]
    exact Method.moved_replaced h.moved.bounded hBound new
  · rw [hGraph, hNew]
    exact Graph.carried_replaced h.consistent.piled hBound new

/-- What is carried out by removing the instruction, unless control would be left without a place to go
to. -/
theorem carryOut_yields_drop {d : Draft} (hg : g.Consistent)
    (h : Rewritten g d.graph label stands bound) {p : Nat} (hp : p < bound) {i : Instruction Address}
    (hi : g.method.code[p]? = some i) {kind : Category}
    (hReached : g.isReached (g.method.code.addressAt p) = true)
    (hPlan : plan? g (g.method.code.addressAt p) i = some (.drop, kind)) :
    Yields (carryOut (d.graph.method.code.addressAt p) .drop) d fun r? d' =>
      (r? = none ∧ d' = d) ∨
        ∃ r stands', r? = some r ∧ Rewritten g d'.graph (r.label ∘ label) stands' p := by
  obtain ⟨hAddress, hNow⟩ := h.edited.found hp hi
  have hBound : p < d.graph.method.code.length := (List.getElem?_eq_some_iff.mp hNow).1
  have hIndex := Code.indexOf?_addressAt hBound
  have hLeads := carryOut_leads h.consistent h.edited hp hi (suits_of_plan? hPlan)
  cases hCheck : d.graph.checkRemoval [d.graph.method.code.addressAt p] with
  | error e =>
      obtain ⟨b, rfl⟩ := Graph.refuses_of_checkRemoval
        (fun a ha => List.mem_singleton.mp ha ▸ Code.hasAddress_addressAt hBound) hCheck
      have hDone : carryOut (d.graph.method.code.addressAt p) .drop d = (.ok none, d) := by
        rw [carryOut_drop, Edit.remove_of_error hCheck]
      exact yields_of_eq hDone (.inl ⟨rfl, rfl⟩)
  | ok _ =>
      have hDone : carryOut (d.graph.method.code.addressAt p) .drop d =
          (.ok (some (d.graph.method.splice p 1 [] false).2), { d with graph := d.graph.removeAt p }) := by
        rw [carryOut_drop, Edit.remove_of_ok hIndex hCheck]
      unfold Leads at hLeads
      rw [hAddress, show Plan.drop.retarget label = .drop from rfl, hDone] at hLeads
      have hMethod := (Graph.removeAt_method h.consistent.piled hBound).1
      have hMore : p + 1 < d.graph.method.code.length := by
        obtain ⟨next, hNext, _⟩ := Option.bind_eq_some_iff.mp hPlan
        have hThere := h.moved.next _ i (Code.hasAddress_of_next? hNext).1
          ((h.untouched p hp).trans hi)
        rw [hNext, h.before p (Nat.le_of_lt hp), hAddress] at hThere
        obtain ⟨q, hq, hLess, _⟩ := Code.next?_eq_some_iff.mp hThere
        rw [hIndex] at hq
        obtain rfl := Option.some.inj hq
        exact hLess
      refine yields_of_eq hDone
        (.inr ⟨_, Function.update stands (g.method.code.addressAt p) none, rfl, ?_⟩)
      refine h.step hg hp hi hReached hPlan hLeads.1.consistent hMethod ?_
        (Graph.carried_removeAt h.consistent.piled hBound)
      rw [hMethod]
      exact Method.moved_without h.moved.bounded hMore

/-- A plan is carried out, unless it would leave control without a place to go to. -/
theorem carryOut_yields {d : Draft} (hg : g.Consistent) (h : Rewritten g d.graph label stands bound)
    {p : Nat} (hp : p < bound) {i : Instruction Address} (hi : g.method.code[p]? = some i) {plan : Plan}
    {kind : Category} (hReached : g.isReached (g.method.code.addressAt p) = true)
    (hPlan : plan? g (g.method.code.addressAt p) i = some (plan, kind)) :
    Yields (carryOut (g.method.code.addressAt p) (plan.retarget label)) d fun r? d' =>
      (r? = none ∧ d' = d) ∨
        ∃ r stands', r? = some r ∧ Rewritten g d'.graph (r.label ∘ label) stands' p := by
  cases plan with
  | load dst l =>
      exact (carryOut_yields_replace hg h hp hi hReached hPlan rfl).imp fun _ _ hDone => .inr hDone
  | jump t =>
      exact (carryOut_yields_replace hg h hp hi hReached hPlan rfl).imp fun _ _ hDone => .inr hDone
  | drop =>
      rw [(h.edited.found hp hi).1]
      exact carryOut_yields_drop hg h hp hi hReached hPlan

/-- Plans are carried out from the end of the method to its start. -/
theorem carryOutAll_yields {pending : List (Address × Plan × Category)} {r : Revision}
    (hg : g.Consistent) (h : Rewritten g r.draft.graph label stands bound)
    (hOrder : pending.Pairwise fun x y => y.1 < x.1)
    (hPending : ∀ x ∈ pending, ∃ p i, p < bound ∧ x.1 = g.method.code.addressAt p ∧
      g.method.code[p]? = some i ∧ g.isReached x.1 = true ∧ plan? g x.1 i = some x.2) :
    Yields (carryOutAll label pending) r fun _ r' =>
      ∃ label' stands' bound', Rewritten g r'.draft.graph label' stands' bound' := by
  induction pending generalizing r label stands bound with
  | nil => exact ⟨label, stands, bound, h⟩
  | cons x pending ih =>
      obtain ⟨hFirst, hTail⟩ := List.pairwise_cons.mp hOrder
      obtain ⟨p, i, hp, hAddress, hi, hReached, hPlan⟩ := hPending x (.head _)
      have hRest : ∀ y ∈ pending, ∃ q i, q < p ∧ y.1 = g.method.code.addressAt q ∧
          g.method.code[q]? = some i ∧ g.isReached y.1 = true ∧ plan? g y.1 i = some y.2 := by
        intro y hy
        obtain ⟨q, i', _, hPlace, hi', hThere⟩ := hPending y (.tail _ hy)
        have hLess := hFirst y hy
        rw [hPlace, hAddress, Code.addressAt_lt_iff
          (Nat.le_of_lt (List.getElem?_eq_some_iff.mp hi').1)
          (Nat.le_of_lt (List.getElem?_eq_some_iff.mp hi).1)] at hLess
        exact ⟨q, i', hLess, hPlace, hi', hThere⟩
      obtain ⟨a, plan, kind⟩ := x
      obtain rfl : a = g.method.code.addressAt p := hAddress
      obtain ⟨r?, d', hDone, hNow⟩ := (carryOut_yields hg h hp hi hReached hPlan).exists_eq
      have hEdit : Pass.edit (carryOut (g.method.code.addressAt p) (plan.retarget label)) r =
          (.ok r?, { r with draft := d' }) := by
        unfold Pass.edit
        rw [hDone]
      rw [carryOutAll, yields_bind]
      refine yields_of_eq hEdit ?_
      rcases hNow with ⟨rfl, rfl⟩ | ⟨moved, stands', rfl, hLater⟩
      · refine ih h hTail fun y hy => ?_
        obtain ⟨q, i', hq, hThere⟩ := hRest y hy
        exact ⟨q, i', Nat.lt_trans hq hp, hThere⟩
      · dsimp only
        rw [yields_bind]
        refine yields_of_eq rfl ?_
        rw [yields_bind]
        exact (ih hLater hTail hRest).imp fun _ _ hAll => hAll

/-- Constant propagation succeeds. In what it leaves, whatever is not as it was has been planned for. -/
theorem perform_yields {r : Revision} (hr : r.draft.graph.Consistent)
    (hBounded : r.draft.graph.method.Bounded) :
    Yields perform r fun _ r' =>
      ∃ label stands bound, Rewritten r.draft.graph r'.draft.graph label stands bound := by
  have hStart := Rewritten.refl hr hBounded
  rw [perform, yields_bind]
  refine yields_of_eq (v := r.draft.graph) (t := r) rfl ?_
  split
  · exact ⟨_, _, _, hStart⟩
  · rw [yields_bind]
    refine (carryOutAll_yields hr hStart (Graph.pairwise_planned _ _) fun x hx =>
      Graph.exists_position_of_plannedAt? (Graph.mem_planned_iff.mp (List.mem_reverse.mp hx))).imp
        fun again r' h => ?_
    split <;> exact h

end Constants

end Dalvik
