import Dalvik.Proofs.Optimization

/-!
Sweeps that change nothing. A pass that reports no change has left the draft and its counts alone, also
where edits that it had planned were refused, and so a sweep without changes leaves everything for the
next one as it was.
-/

namespace Dalvik

theorem leads_of_forall {ε σ α : Type} {r : ExceptT ε (StateM σ) α} {s : σ} {Q : α → σ → Prop}
    (h : ∀ v t, Q v t) : Leads r s Q := by
  unfold Leads
  rcases r s with ⟨_ | _, _⟩ <;> simp [h]

theorem Yields.leads {ε σ α : Type} {r : ExceptT ε (StateM σ) α} {s : σ} {Q : α → σ → Prop}
    (h : Yields r s Q) : Leads r s Q := by
  obtain ⟨v, t, hRun, hQ⟩ := h.exists_eq
  unfold Leads
  rw [hRun]
  exact hQ

theorem Leads.and {ε σ α : Type} {r : ExceptT ε (StateM σ) α} {s : σ} {Q Q' : α → σ → Prop}
    (h : Leads r s Q) (h' : Leads r s Q') : Leads r s fun v t => Q v t ∧ Q' v t := by
  revert h h'
  unfold Leads
  rcases r s with ⟨_ | _, _⟩
  · exact fun _ _ => trivial
  · exact And.intro

namespace Edit

variable {d d' : Draft}

/-- Removing instructions one after another fails only where there is none. -/
theorem removeEach_error {combined : Relocation} {as : List Address} {e : EditError}
    (h : removeEach combined as d = (.error e, d')) : ∃ a, e = .noInstruction a := by
  induction as generalizing combined d with
  | nil => cases h
  | cons a as ih =>
      cases hp : d.graph.method.code.indexOf? a with
      | none =>
          rw [removeEach, index_bind, hp] at h
          exact ⟨a, (Except.error.inj (Prod.mk.inj h).1).symm⟩
      | some p =>
          rw [removeEach_cons hp] at h
          exact ih h

/-- A removal that would disconnect the graph is refused before anything is removed. -/
theorem remove_of_wouldDisconnect {a b : Address}
    (h : remove a d = (.error (.wouldDisconnect b), d')) : d' = d := by
  rw [remove] at h
  cases hCheck : d.graph.checkRemoval (Graph.ascending [a]) with
  | error e =>
      rw [removeAll_of_error hCheck] at h
      exact (Prod.mk.inj h).2.symm
  | ok _ =>
      rw [removeAll_of_ok hCheck] at h
      obtain ⟨c, hMissing⟩ := removeEach_error h
      cases hMissing

end Edit

namespace Constants

/-- A plan that is not carried out has changed nothing. -/
theorem carryOut_still (a : Address) (plan : Plan) (d : Draft) :
    Leads (carryOut a plan) d fun r? d' => r? = none → d' = d := by
  cases plan with
  | load dst l =>
      rw [carryOut, ← bind_pure_comp, leads_bind]
      exact leads_of_forall fun r d' => by simp
  | jump t =>
      rw [carryOut, ← bind_pure_comp, leads_bind]
      exact leads_of_forall fun r d' => by simp
  | drop =>
      unfold Leads
      rw [carryOut_drop]
      rcases hRun : Edit.remove a d with ⟨e | r, d'⟩
      · cases e with
        | wouldDisconnect b => exact fun _ => Edit.remove_of_wouldDisconnect hRun
        | noInstruction b => trivial
        | execution b e => trivial
      · simp

theorem carryOutAll_still (label : Address → Address) (pending : List (Address × Plan × Category))
    (r : Revision) :
    Leads (carryOutAll label pending) r fun again r' => again = false → r' = r := by
  induction pending generalizing label r with
  | nil => simp [carryOutAll]
  | cons x pending ih =>
      obtain ⟨a, plan, kind⟩ := x
      rw [carryOutAll, leads_bind, Pass.leads_edit]
      refine (carryOut_still a (plan.retarget label) r.draft).imp fun r? d' hStill => ?_
      cases r? with
      | none =>
          obtain rfl := hStill rfl
          exact ih label r
      | some moved =>
          simp only [leads_bind, Pass.leads_count]
          exact leads_of_forall fun again r' => by simp

theorem perform_still (r : Revision) :
    Leads perform r fun now r' => now = .unchanged → r' = r := by
  rw [perform, leads_bind, Pass.leads_graph]
  split
  · simp
  · rw [leads_bind]
    refine (carryOutAll_still id _ r).imp fun again r' hStill => ?_
    cases again with
    | true => simp
    | false => simpa using hStill rfl

end Constants

namespace Stage

variable {m : Machine}

/-- A pass that reports no change leaves the draft and the counts as they were. -/
theorem perform_still (s : Stage) (r : Revision) :
    Leads (s.perform m) r fun now r' => now = .unchanged → r' = r := by
  cases s with
  | deadCode weak =>
      rw [perform, DeadCode.perform, leads_bind, Pass.leads_graph]
      dsimp only
      split
      · simp
      · simp only [leads_bind]
        exact leads_of_forall fun _ _ => leads_of_forall fun _ _ => by simp
  | constants => exact Constants.perform_still r
  | peephole =>
      rw [perform, Peephole.perform, leads_bind, Pass.leads_graph]
      cases hFound : if r.draft.graph.isComplete then Peephole.plans r.draft.graph else [] with
      | nil => simp
      | cons x found =>
          rw [leads_bind]
          exact leads_of_forall fun _ _ => by simp
  | unreflection =>
      rw [perform, Unreflection.perform, leads_bind, Pass.leads_graph]
      dsimp only
      generalize (if r.draft.graph.isComplete then Unreflection.sites m.classes r.draft.graph else []) = found
      split
      · simp
      · simp only [leads_bind]
        exact leads_of_forall fun _ _ => leads_of_forall fun _ _ => by simp

/-- Passes after one another report no change only if none of them has made any. -/
theorem stages_still (stages : List Stage) (result : PassResult) (r : Revision) :
    Leads (Optimization.stages m result stages : ExceptT OptimizationError (StateM Revision) PassResult)
      r fun now r' => now = .unchanged → result = .unchanged ∧ r' = r := by
  induction stages generalizing result r with
  | nil => exact fun hNow => ⟨hNow, rfl⟩
  | cons s rest ih =>
      rw [Optimization.leads_stages_cons]
      refine (perform_still s r).imp fun now r' hStep => ?_
      split
      · intro hNow
        cases hNow
      · rename_i hGoes
        refine (ih (if now = .changed then .changed else result) r').imp ?_
        intro last r'' hLast hSame
        obtain ⟨hResult, rfl⟩ := hLast hSame
        cases now with
        | unchanged => exact ⟨by simpa using hResult, hStep rfl⟩
        | changed => simp at hResult
        | stale => simp at hGoes

end Stage

namespace Optimization

variable {m : Machine} {weak : Bool} {o o' : Optimization}

/-- A sweep that reports no change is the identity. -/
theorem sweep_still (o : Optimization) :
    Leads (sweep m weak) o fun now o' => now = .unchanged → o' = o := by
  rw [leads_sweep]
  refine (Stage.stages_still (Stage.sweep weak) .unchanged _).imp fun now r hStill hNow => ?_
  obtain ⟨_, rfl⟩ := hStill hNow
  rfl

/-- Sweeps have changes on record, or they are one sweep that is the identity. -/
theorem sweeps_still (left : Nat) (o : Optimization) :
    Leads (sweeps m weak left) o fun _ o' =>
      o'.changed = true ∨ o' = o ∧ (0 < left → sweep m weak o = (.ok .unchanged, o)) := by
  induction left generalizing o with
  | zero => exact .inr ⟨rfl, fun hLess => absurd hLess (Nat.lt_irrefl 0)⟩
  | succ left ih =>
      have hLater (o₁ : Optimization) (hChanged : o₁.changed = true) :
          Leads (sweeps m weak left) o₁ fun _ o' => o'.changed = true := by
        refine (ih o₁).imp fun _ o' h => h.elim id fun hSame => ?_
        rwa [hSame.1]
      rw [leads_sweeps_succ]
      refine (sweep_still o).noting.imp fun now o₁ hAll => ?_
      obtain ⟨hRun, hStill⟩ := hAll
      cases now with
      | unchanged =>
          obtain rfl := hStill rfl
          exact .inr ⟨rfl, fun _ => hRun⟩
      | changed => exact (hLater { o₁ with changed := true } rfl).imp fun _ _ => .inl
      | stale =>
          dsimp only
          by_cases hLast : left = 0
          · rw [if_pos hLast]
            exact .inl rfl
          · rw [if_neg hLast]
            unfold Leads reexecute
            cases m.execute o₁.graph.method o₁.graph.entry with
            | error e => trivial
            | ok graph =>
                exact (hLater { o₁ with graph, changed := true } rfl).imp fun _ _ => .inl

/-- Simplifying that ends without changes has left the graph and the counts as they were, and simplifies
to the same again, however often. -/
theorem simplify_of_unchanged {limit : Nat} (hLimit : 0 < limit)
    (hRun : simplify m weak limit o = (.ok (), o')) (hUnchanged : o'.changed = false) :
    o'.graph = o.graph ∧ o'.counts = o.counts ∧ o'.stale = false ∧
      ∀ k, simplify m weak k o' = (.ok (), o') := by
  have hStill := @sweeps_still m weak limit { o with changed := false, stale := false }
  have hSweeps : sweeps m weak limit { o with changed := false, stale := false } = (.ok (), o') := hRun
  unfold Leads at hStill
  rw [hSweeps] at hStill
  obtain hChanged | ⟨rfl, hSweep⟩ := hStill
  · exact absurd hChanged (by simp [hUnchanged])
  · refine ⟨rfl, rfl, rfl, fun k => ?_⟩
    cases k with
    | zero => rfl
    | succ k =>
        change sweeps m weak (k + 1) { o with changed := false, stale := false } = _
        rw [sweeps, stateful_bind_apply, hSweep hLimit]
        rfl

/-- What is left of `decidedMethod` after two sweeps, and then a third one changes nothing. -/
def settled : Optimization :=
  (simplify smallMachine true 2 (.start (executed decidedMethod))).2

theorem simplify_of_unchanged_settled :
    settled.counts.total = 3 ∧ settled.changed = true ∧
      (simplify smallMachine true 1 settled).2.graph = settled.graph ∧
      (simplify smallMachine true 1 settled).2.counts = settled.counts ∧
      (simplify smallMachine true 1 settled).2.stale = false ∧
      ∀ k, simplify smallMachine true k (simplify smallMachine true 1 settled).2 =
        (.ok (), (simplify smallMachine true 1 settled).2) := by
  have hEnds : (simplify smallMachine true 1 settled).1 = .ok () := by decide +kernel
  have hRun : simplify smallMachine true 1 settled =
      (.ok (), (simplify smallMachine true 1 settled).2) := by
    rw [← hEnds, Prod.eta]
  exact ⟨by decide +kernel, by decide +kernel,
    simplify_of_unchanged (by decide) hRun (by decide +kernel)⟩

end Optimization

end Dalvik
