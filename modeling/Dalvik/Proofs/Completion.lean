import Dalvik.Proofs.Spending
import Dalvik.Proofs.Truncation

/-!
Complete explorations. An exploration that leaves nothing out has never met the end of the budget, not even in
the calls that it makes: where a step uses the budget up, there is something left to explore, which is then
cut off. Hence a complete graph is the same for every budget that is not smaller.
-/

namespace Dalvik

open Run (Frugal Steady)

/-- A supply with some more of the budget. -/
def Supply.more (s : Supply) (k : Nat) : Supply := { s with budget := s.budget + k }

theorem Run.Steady.more {α : Type} {r : Run α} (h : Steady r) {s t : Supply} {x : Except Error α}
    (hRun : r s = (x, t)) (hLeft : t.budget ≠ 0) (k : Nat) : r (s.more k) = (x, t.more k) := by
  have hSame := h.same s (s.budget + k)
  rw [hRun] at hSame
  refine (hSame hLeft (by dsimp only; omega)).trans (congrArg (Prod.mk x) ?_)
  unfold Supply.more
  rw [show s.budget + k + t.budget - s.budget = t.budget + k by omega]

namespace Exploration

variable {maxVisits : Nat} {c : Semantics.Context} {e e' : Exploration} {s t : Supply}

/-- A visit that does not break a graph off records a step. -/
theorem visit_of_completed {p : Pending} (h : visit maxVisits c e p s = (.ok e', t))
    (hDone : e'.graph.status = .completed) :
    s.budget ≠ 0 ∧ ¬ maxVisits ≤ e.visitsOf p.address ∧ ∃ step u, c.apply p.address p.pre s = (.ok step, u) ∧
      e' = e.record p step ∧ t = { u with budget := u.budget - 1 } := by
  rw [visit_eq] at h
  split at h
  · obtain ⟨rfl, _⟩ := Run.pure_eq_ok h
    exact absurd hDone (status_cut _ _ _)
  · rename_i hBudget
    split at h
    · obtain ⟨rfl, _⟩ := Run.pure_eq_ok h
      exact absurd hDone (status_cut _ _ _)
    · rename_i hMost
      split at h
      · rename_i step u hApply
        obtain ⟨rfl, rfl⟩ := Run.pure_eq_ok h
        exact ⟨hBudget, hMost, step, u, hApply, rfl, rfl⟩
      · cases h

theorem visit_of_apply {p : Pending} {step : Step} (hBudget : s.budget ≠ 0)
    (hMost : ¬ maxVisits ≤ e.visitsOf p.address) (h : c.apply p.address p.pre s = (.ok step, t)) :
    visit maxVisits c e p s = (.ok (e.record p step), { t with budget := t.budget - 1 }) := by
  rw [visit_eq, if_neg hBudget, if_neg hMost, h]

/-- What has been broken off stays so. -/
theorem completed_of_visit {p : Pending} (h : visit maxVisits c e p s = (.ok e', t))
    (hDone : e'.graph.status = .completed) : e.graph.status = .completed := by
  obtain ⟨_, _, step, u, _, rfl, _⟩ := visit_of_completed h hDone
  unfold record at hDone
  rwa [Graph.add_eq] at hDone

theorem completed_of_foldlM {ps : List Pending} (h : ps.foldlM (visit maxVisits c) e s = (.ok e', t))
    (hDone : e'.graph.status = .completed) : e.graph.status = .completed := by
  induction ps generalizing e s with
  | nil =>
      obtain ⟨rfl, _⟩ := Run.pure_eq_ok h
      exact hDone
  | cons p ps ih =>
      rw [List.foldlM_cons] at h
      obtain ⟨e₁, t₁, hFirst, hRest⟩ := Run.bind_eq_ok h
      exact completed_of_visit hFirst (ih hRest)

/-- What is visited without any budget is cut off. -/
theorem budget_of_foldlM {p : Pending} {ps : List Pending}
    (h : (p :: ps).foldlM (visit maxVisits c) e s = (.ok e', t)) (hDone : e'.graph.status = .completed) :
    s.budget ≠ 0 := by
  rw [List.foldlM_cons] at h
  obtain ⟨e₁, t₁, hFirst, hRest⟩ := Run.bind_eq_ok h
  exact (visit_of_completed hFirst (completed_of_foldlM hRest hDone)).1

theorem completed_of_rounds {n : Nat} (h : rounds maxVisits c n e s = (.ok e', t))
    (hDone : e'.graph.status = .completed) : e.graph.status = .completed := by
  induction n generalizing e s with
  | zero =>
      obtain ⟨rfl, _⟩ := Run.pure_eq_ok h
      exact hDone
  | succ n ih =>
      unfold rounds at h
      split at h
      · obtain ⟨rfl, _⟩ := Run.pure_eq_ok h
        exact hDone
      · obtain ⟨e₁, t₁, hRound, hRest⟩ := Run.bind_eq_ok h
        exact completed_of_foldlM (e := { e with found := [] }) hRound (ih hRest)

/-- A visit does the same with more of the budget, unless it has used all of it up and leads somewhere. -/
theorem visit_more (hc : ∀ a pre, Steady (c.apply a pre)) (hReturn : c.CallsReturn) {p : Pending}
    (h : visit maxVisits c e p s = (.ok e', t)) (hDone : e'.graph.status = .completed)
    (hLeft : e'.found = [] ∨ t.budget ≠ 0) (k : Nat) :
    visit maxVisits c e p (s.more k) = (.ok e', t.more k) := by
  obtain ⟨hBudget, hMost, step, u, hApply, rfl, rfl⟩ := visit_of_completed h hDone
  have hSome : u.budget ≠ 0 := by
    intro hNone
    have hFound := hLeft.resolve_right (by simp [hNone])
    have hLeads : step.successors = [] := by simpa [record] using (List.append_eq_nil_iff.mp hFound).1
    exact hBudget ((Semantics.Context.apply_spends hReturn hApply hLeads).symm.trans hNone)
  have hMore := visit_of_apply (e := e) (p := p) (s := s.more k) (by simp [Supply.more, hBudget]) hMost
    ((hc p.address p.pre).more hApply hSome k)
  refine hMore.trans (congrArg (Prod.mk _) ?_)
  unfold Supply.more
  rw [show u.budget + k - 1 = u.budget - 1 + k by omega]

theorem foldlM_visit_more (hc : ∀ a pre, Steady (c.apply a pre)) (hReturn : c.CallsReturn)
    {ps : List Pending} (h : ps.foldlM (visit maxVisits c) e s = (.ok e', t))
    (hDone : e'.graph.status = .completed) (hLeft : e'.found = [] ∨ t.budget ≠ 0) (k : Nat) :
    ps.foldlM (visit maxVisits c) e (s.more k) = (.ok e', t.more k) := by
  induction ps generalizing e s with
  | nil =>
      obtain ⟨rfl, rfl⟩ := Run.pure_eq_ok h
      rfl
  | cons p ps ih =>
      rw [List.foldlM_cons] at h ⊢
      obtain ⟨e₁, t₁, hFirst, hRest⟩ := Run.bind_eq_ok h
      have hDone₁ := completed_of_foldlM hRest hDone
      have hLeft₁ : e₁.found = [] ∨ t₁.budget ≠ 0 := by
        cases ps with
        | nil =>
            obtain ⟨rfl, rfl⟩ := Run.pure_eq_ok hRest
            exact hLeft
        | cons p' ps => exact .inr (budget_of_foldlM hRest hDone)
      rw [stateful_bind_apply, visit_more hc hReturn hFirst hDone₁ hLeft₁ k]
      exact ih hRest

/-- Rounds that leave nothing to explore and nothing out are the same with more of the budget. -/
theorem rounds_more (hc : ∀ a pre, Steady (c.apply a pre)) (hReturn : c.CallsReturn) {n : Nat}
    (h : rounds maxVisits c n e s = (.ok e', t)) (hDone : e'.graph.status = .completed)
    (hFound : e'.found = []) (k : Nat) : rounds maxVisits c n e (s.more k) = (.ok e', t.more k) := by
  induction n generalizing e s with
  | zero =>
      obtain ⟨rfl, rfl⟩ := Run.pure_eq_ok h
      rfl
  | succ n ih =>
      unfold rounds at h ⊢
      split at h
      · rename_i hEmpty
        obtain ⟨rfl, rfl⟩ := Run.pure_eq_ok h
        rw [if_pos hEmpty]
        rfl
      · rename_i hFull
        rw [if_neg hFull]
        obtain ⟨e₁, t₁, hRound, hRest⟩ := Run.bind_eq_ok h
        have hLeft : e₁.found = [] ∨ t₁.budget ≠ 0 := by
          refine or_iff_not_imp_left.mpr fun hSome => ?_
          -- another round follows, and what it visits first would be cut off
          cases n with
          | zero =>
              obtain ⟨rfl, _⟩ := Run.pure_eq_ok hRest
              exact absurd hFound hSome
          | succ n =>
              unfold rounds at hRest
              rw [if_neg (by simpa using hSome)] at hRest
              obtain ⟨e₂, t₂, hNext, hLater⟩ := Run.bind_eq_ok hRest
              obtain ⟨p, ps, hPs⟩ := List.exists_cons_of_ne_nil (List.reverse_ne_nil_iff.mpr hSome)
              rw [hPs] at hNext
              exact budget_of_foldlM hNext (completed_of_rounds hLater hDone)
        have hMore := foldlM_visit_more hc hReturn hRound (completed_of_rounds hRest hDone) hLeft k
        rw [stateful_bind_apply, hMore]
        exact ih hRest

end Exploration

namespace Machine

variable {m : Machine}

/-- An exploration that is complete is the same with more of the budget. -/
theorem explore_more {call : Method → List Value → Run (Option Effect)}
    (hCalls : ∀ callee values, Steady (call callee values)) {method : Method}
    (hReturn : (⟨m.classes, method, call⟩ : Semantics.Context).CallsReturn) {entry : State} {s t : Supply}
    {g : Graph} (h : m.explore call method entry s = (.ok g, t)) (hDone : g.status = .completed) (k : Nat) :
    m.explore call method entry (s.more k) = (.ok g, t.more k) := by
  by_cases hCode : method.code = []
  · have hEmpty : method.code.isEmpty = true := by simp [hCode]
    unfold explore at h ⊢
    rw [if_pos hEmpty] at h ⊢
    obtain ⟨rfl, rfl⟩ := Run.pure_eq_ok h
    rfl
  · have hFrugal callee values := (hCalls callee values).frugal
    have hSteady := Semantics.Context.apply_steady (c := ⟨m.classes, method, call⟩) hCalls
    -- a number of rounds that is enough for both budgets
    have hFirst := explore_eq_rounds (m := m) hFrugal hCode entry (s := s) (n := s.budget + k + 1) (by omega)
    have hSecond := explore_eq_rounds (m := m) hFrugal hCode entry (s := s.more k) (n := s.budget + k + 1)
      (Nat.lt_succ_self _)
    rw [hFirst] at h
    rw [hSecond, stateful_bind_apply]
    obtain ⟨e, u, hRounds, hGraph⟩ := Run.bind_eq_ok h
    obtain ⟨rfl, rfl⟩ := Run.pure_eq_ok hGraph
    have hFound : Run.Ends (Exploration.rounds m.limits.maxVisits ⟨m.classes, method, call⟩ (s.budget + k + 1)
        ⟨.start method entry, [], [⟨none, 0, entry⟩]⟩) s (fun e _ => e.found = []) fun _ _ => True :=
      Exploration.rounds_exhaust (fun a pre => (hSteady a pre).frugal) (.inl (by omega))
    unfold Run.Ends at hFound
    rw [hRounds] at hFound
    rw [Exploration.rounds_more hSteady hReturn hRounds hDone hFound k]
    rfl

/-- A complete execution does not depend on the limit of nodes: with any larger one the graph is the same, with
all states, instances and links. Every step of it has left something of the budget, so that no call that it
made was explored in part only. -/
theorem execute_of_completed {method : Method} {entry : State} {g : Graph}
    (h : m.execute method entry = .ok g) (hDone : g.status = .completed) {n : Nat} (hn : m.limits.maxNodes ≤ n) :
    ({ m with limits := { m.limits with maxNodes := n } } : Machine).execute method entry = .ok g ∧
      ∃ (g₀ : Graph) (log : List Performance) (t : Supply), g = { g₀ with heap := t.heap } ∧
        g₀.Recording (m.context method 0) m.limits.maxVisits entry ⟨.after entry, m.limits.maxNodes⟩ log t ∧
        ∀ r ∈ log, r.after.budget ≠ 0 := by
  obtain ⟨hValid, g₀, t, hRun, rfl⟩ := execute_eq_ok_iff.mp h
  have hReturn := callsReturn_context m method 0
  constructor
  · obtain ⟨k, rfl⟩ := Nat.exists_eq_add_of_le hn
    let m' : Machine := { m with limits := { m.limits with maxNodes := m.limits.maxNodes + k } }
    have hContext : m'.context method 0 = m.context method 0 :=
      @context_congr m' m rfl rfl rfl method 0
    have hExplore : m'.explore = m.explore := @explore_congr m' m rfl rfl
    refine execute_eq_ok_iff.mpr ⟨hValid, g₀, t.more k, ?_, rfl⟩
    change m'.explore (m'.context method 0).call method entry
      (Supply.more ⟨.after entry, m.limits.maxNodes⟩ k) = _
    rw [hContext, hExplore]
    exact explore_more (callAt_steady 0) hReturn hRun hDone k
  · obtain ⟨log, hRecording, hFound⟩ := explore_funded (callAt_frugal 0) hRun
    have hPaid := hRecording.paid hDone (context_frugal method 0) hReturn hFound
    exact ⟨g₀, log, t, rfl, hRecording, fun r hr => (hPaid r hr).left⟩

/-- A local method that returns its argument. -/
def echoingMethod : Method where
  reference := ⟨⟨"La;"⟩, "echo", [.int], .int⟩
  flags := { static := true }
  locals := 0
  code := [.returnValue 0]
  tries := []

/-- A method that calls another one. -/
def askingMethod : Method where
  reference := ⟨⟨"La;"⟩, "run", [.int], .int⟩
  flags := { static := true }
  locals := 1
  code := [.const 0 (.int 7), .invoke .static echoingMethod.reference [0], .moveResult 0, .returnValue 0]
  tries := []

/-- A machine that has just the nodes that `askingMethod` needs. -/
def scantMachine : Machine := ⟨⟨[⟨⟨"La;"⟩, [echoingMethod]⟩]⟩, ⟨5, 5, 2⟩⟩

theorem execute_of_completed_askingMethod :
    ∃ g, scantMachine.execute askingMethod (initialState askingMethod) = .ok g ∧ g.status = .completed ∧
      ({ scantMachine with limits := { scantMachine.limits with maxNodes := 50000 } } : Machine).execute
        askingMethod (initialState askingMethod) = .ok g := by
  have hRun : scantMachine.execute askingMethod (initialState askingMethod) =
      .ok (scantMachine.graphOf askingMethod (initialState askingMethod)) :=
    execute_eq_graphOf (by decide +kernel)
  have hDone : (scantMachine.graphOf askingMethod (initialState askingMethod)).status = .completed := by
    decide +kernel
  exact ⟨_, hRun, hDone, (execute_of_completed hRun hDone (by decide)).1⟩

end Machine

end Dalvik
