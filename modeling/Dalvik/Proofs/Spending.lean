import Dalvik.Proofs.Budgets
import Dalvik.Proofs.Descent
import Dalvik.Proofs.Limits
import Dalvik.Proofs.MirroredSteps

/-!
What explorations spend. In a complete one every step has been paid for, and something was left of the budget
after it, so that with any other budget that pays for it the step does the same.
-/

namespace Dalvik

open Run (Frugal Thrifty)

namespace Semantics

/-- An instruction that spends anything goes on to the next one. -/
def Outcome.GoesOn (s : Supply) (o : Outcome) (t : Supply) : Prop := o.flow = .next ∨ t.budget = s.budget

namespace Context

variable {c : Context} {i : Instruction Address} {pre post : State}

/-- Calls of local methods are never known to raise an exception. -/
def CallsReturn (c : Context) : Prop :=
  ∀ callee values s e t, c.call callee values s = (.ok (some e), t) → ∀ type, e ≠ .throws type

theorem applyEffect_next (m : MethodReference) (args : List Register) {e : Effect}
    (h : ∀ type, e ≠ .throws type) :
    Ends (applyEffect post m args e) (fun o => o.flow = .next) fun _ => True := by
  cases e with
  | throws type => exact absurd rfl (h type)
  | void => rfl
  | unknown => rfl
  | returns v =>
      dsimp only [applyEffect]
      split
      · cases args.head? with
        | none => rfl
        | some receiver =>
            dsimp only [Outcome.assign]
            rw [ends_map]
            exact ends_of_all fun _ => rfl
      · rfl

theorem invokeOther_next (hReturn : c.CallsReturn) (kind : InvokeKind) (m : MethodReference)
    (args : List Register) (values : List Value) (s : Supply) :
    Run.Ends (c.invokeOther kind m args values post) s (fun o _ => o.flow = .next) fun _ _ => True := by
  have hOpaque {done : State → Outcome} (hDone : ∀ post, (done post).flow = .next) (t : Supply) :
      Run.Ends ((Run.ofExcept (opaqueResult (values.foldl clobber post) m args)) >>= fun post =>
        pure (done post)) t (fun o _ => o.flow = .next) fun _ _ => True := by
    rw [Run.ends_bind, Run.ends_ofExcept]
    exact ends_of_all fun post => hDone post
  have hEffect (callee : Method) : Run.Ends (c.call callee values) s
      (fun e _ => ∀ e', e = some e' → ∀ type, e' ≠ .throws type) fun _ _ => True := by
    unfold Run.Ends
    split
    · rename_i e t hRun
      exact fun e' he => hReturn callee values s e' t (he ▸ hRun)
    · trivial
  rw [invokeOther_eq, Run.ends_bind]
  cases c.callee? kind m with
  | none => exact hOpaque (fun _ => rfl) s
  | some callee =>
      refine (hEffect callee).imp (fun e t he => ?_) fun _ _ _ => trivial
      cases e with
      | none => exact hOpaque (fun _ => rfl) t
      | some e =>
          dsimp only [conclude]
          split
          · exact hOpaque (fun _ => rfl) t
          · rw [Run.ends_ofExcept]
            exact applyEffect_next m args (he e rfl)

/-- Only calls of local methods spend anything, and behind these control goes on. -/
theorem execute_goesOn (hReturn : c.CallsReturn) (a : Address) (i : Instruction Address) (pre post : State)
    (s : Supply) :
    Run.Ends (c.execute a i pre post) s (Outcome.GoesOn s) fun _ _ => True := by
  by_cases hCalls : c.RunsNoBody i
  · have hSpent := execute_thrifty hCalls a pre post s
    unfold Run.Ends
    generalize c.execute a i pre post s = x at hSpent ⊢
    obtain ⟨_ | o, t⟩ := x
    · trivial
    · exact .inr hSpent
  · simp only [RunsNoBody, not_forall] at hCalls
    obtain ⟨kind, m, args, rfl, hNone, _⟩ := hCalls
    change Run.Ends (c.invoke kind m args pre post) s _ _
    unfold invoke
    rw [Run.ends_bind, Run.ends_ofExcept]
    refine ends_of_all fun values => ?_
    split
    · exact .inr rfl
    · unfold invokePresent
      rw [hNone]
      exact (invokeOther_next hReturn kind m args values s).imp (fun o t ho => .inl ho) fun _ _ _ => trivial

/-- A step that spends anything leads somewhere. -/
theorem apply_spends (hReturn : c.CallsReturn) {a : Address} {s t : Supply} {step : Step}
    (h : c.apply a pre s = (.ok step, t)) (hLeads : step.successors = []) : t.budget = s.budget := by
  obtain ⟨i, o, _, hDoes, hSuccessors, _⟩ := exists_outcome h
  have hGoes := execute_goesOn hReturn a i pre { pre with result := none, exception := none } s
  unfold Run.Ends at hGoes
  rw [hDoes] at hGoes
  rcases hGoes with hNext | hSame
  · rw [hLeads] at hSuccessors
    unfold successors flowSuccessors at hSuccessors
    rw [hNext] at hSuccessors
    dsimp only at hSuccessors
    cases hHere : c.next a with
    | error e =>
        rw [hHere] at hSuccessors
        cases hSuccessors
    | ok n =>
        rw [hHere] at hSuccessors
        have hNone := Except.ok.inj hSuccessors
        dsimp only at hNone
        split at hNone
        · rw [route_eq] at hNone
          have hMem : (n, o.post) ∈ ([] : List (Address × State)) := by
            rw [← hNone]
            exact subset_addAll _ _ (.head _)
          cases hMem
        · cases hNone
  · exact hSame

end Context

end Semantics

namespace Machine

variable {m : Machine}

/-- Of a graph it is never known that an exception is raised. -/
theorem verdict?_ne_throws {g : Graph} {e : Effect} (h : g.verdict? = some e) (type : Descriptor) :
    e ≠ .throws type := by
  unfold Graph.verdict? at h
  rintro rfl
  split at h
  · split at h
    · split at h
      · split at h
        · cases h
        · split at h <;> cases h
      · cases h
    · cases h
  · cases h

theorem callsReturn_context (m : Machine) (method : Method) (depth : Nat) :
    (m.context method depth).CallsReturn := by
  intro callee values s e t h
  have hEnds : Run.Ends (m.callAt depth callee values) s
      (fun e _ => ∀ e', e = some e' → ∀ type, e' ≠ .throws type) fun _ _ => True := by
    unfold callAt
    cases m.limits.maxDepth - depth with
    | zero => exact nofun
    | succ below =>
        unfold callWith
        rw [Run.ends_bind, Run.ends_budget]
        split
        · exact nofun
        · split
          · exact nofun
          · rw [Run.ends_bind]
            unfold Run.Ends
            split
            · rename_i result t hRun
              cases result with
              | ok g => exact fun e' he => verdict?_ne_throws he
              | error e =>
                  cases e with
                  | outOfBounds => trivial
                  | _ => exact nofun
            · trivial
  unfold Run.Ends at hEnds
  change m.callAt depth callee values s = (.ok (some e), t) at h
  rw [h] at hEnds
  exact hEnds e rfl

end Machine

/-- What a step has cost: the node that it made and all that was explored for it. -/
def Performance.cost (r : Performance) : Nat := r.before.budget + 1 - r.after.budget

/-- A step has been paid for in full: something was left of the budget after it. -/
structure Performance.Paid (r : Performance) : Prop where
  shrinks : r.after.budget ≤ r.before.budget
  left : r.after.budget ≠ 0

namespace Successive

variable {s t : Supply} {log : List Performance}

theorem budget_before (h : Successive s log t) (hShrinks : ∀ r ∈ log, r.after.budget ≤ r.before.budget)
    {n : Nat} {r : Performance} (hr : log[n]? = some r) : r.before.budget ≤ s.budget := by
  induction log generalizing s n with
  | nil => cases hr
  | cons q log ih =>
      obtain ⟨rfl, hRest⟩ := h
      cases n with
      | zero =>
          obtain rfl := Option.some.inj hr
          exact Nat.le_refl _
      | succ n =>
          have hLater := ih hRest (fun r hr => hShrinks r (.tail _ hr)) (by simpa using hr)
          have hFirst := hShrinks q (.head _)
          dsimp only at hLater
          omega

/-- What a step finds of the budget is less than what an earlier one has left. -/
theorem budget_between (h : Successive s log t) (hShrinks : ∀ r ∈ log, r.after.budget ≤ r.before.budget)
    {m n : Nat} (hLess : m < n) {q r : Performance} (hq : log[m]? = some q) (hr : log[n]? = some r) :
    r.before.budget ≤ q.after.budget - 1 := by
  induction log generalizing s m n with
  | nil => cases hq
  | cons p log ih =>
      obtain ⟨_, hRest⟩ := h
      have hLater : ∀ r ∈ log, r.after.budget ≤ r.before.budget := fun r hr => hShrinks r (.tail _ hr)
      cases n with
      | zero => omega
      | succ n =>
          have hThere : log[n]? = some r := by simpa using hr
          cases m with
          | zero =>
              obtain rfl := Option.some.inj hq
              exact budget_before hRest hLater hThere
          | succ m => exact ih hRest hLater (Nat.lt_of_succ_lt_succ hLess) (by simpa using hq) hThere

/-- Steps that have been paid for have cost as much as is missing of the budget in the end. -/
theorem total (h : Successive s log t) (hPaid : ∀ r ∈ log, r.Paid) :
    (log.map Performance.cost).sum + t.budget = s.budget := by
  induction log generalizing s with
  | nil =>
      obtain rfl : t = s := h
      simp
  | cons r log ih =>
      obtain ⟨rfl, hRest⟩ := h
      have hLater := ih hRest fun r hr => hPaid r (.tail _ hr)
      obtain ⟨hShrinks, hLeft⟩ := hPaid r (.head _)
      rw [List.map_cons, List.sum_cons, Performance.cost]
      dsimp only at hLater
      omega

end Successive

namespace Graph.Recording

variable {g : Graph} {c : Semantics.Context} {maxVisits : Nat} {entry : State} {s t : Supply}
  {log : List Performance}

/-- No step adds to the budget. -/
theorem shrinks (h : g.Recording c maxVisits entry s log t) (hFrugal : ∀ a pre, Frugal (c.apply a pre)) :
    ∀ r ∈ log, r.after.budget ≤ r.before.budget := by
  intro r hr
  obtain ⟨n, hApplied⟩ := h.applied_of_mem hr
  have hLess := (hFrugal n.address n.pre r.before).2
  rwa [hApplied] at hLess

/-- An execution that something follows has left something of the budget. -/
theorem left_of_child (h : g.Recording c maxVisits entry s log t) (hFrugal : ∀ a pre, Frugal (c.apply a pre))
    (hFound : ∀ r ∈ log, r.before.budget ≠ 0) {p k : NodeId} (hChild : k ∈ g.childrenOf p) {r : Performance}
    (hr : log[p]? = some r) : r.after.budget ≠ 0 := by
  obtain ⟨n, hn⟩ := isLive_iff.mp (h.linked.live_of_child hChild).2
  obtain ⟨q, hq, _⟩ := h.records k n hn
  have hBefore := h.successive.budget_between (h.shrinks hFrugal) (h.parent_of_child hChild).1 hr hq
  have hSome := hFound q (List.mem_of_getElem? hq)
  omega

/-- In a complete graph every step has been paid for in full. -/
theorem paid (h : g.Recording c maxVisits entry s log t) (hDone : g.status = .completed)
    (hFrugal : ∀ a pre, Frugal (c.apply a pre)) (hReturn : c.CallsReturn)
    (hFound : ∀ r ∈ log, r.before.budget ≠ 0) : ∀ r ∈ log, r.Paid := by
  intro r hr
  refine ⟨h.shrinks hFrugal r hr, fun hNone => ?_⟩
  obtain ⟨id, hLess, rfl⟩ := List.mem_iff_getElem.mp hr
  have hAt : log[id]? = some log[id] := List.getElem?_eq_getElem hLess
  obtain ⟨n, hn⟩ := isLive_iff.mp (h.live id (h.length ▸ hLess))
  obtain ⟨r', hr', hRecords⟩ := h.records id n hn
  obtain rfl := Option.some.inj (hr'.symm.trans hAt)
  cases hLeads : log[id].step.successors with
  | nil =>
      have hSame := Semantics.Context.apply_spends hReturn hRecords.applied hLeads
      exact hFound _ hr (hSame.symm.trans hNone)
  | cons x rest =>
      -- the step was followed by another one, which has found something left
      obtain ⟨k, hChild, _⟩ := (h.mem_successors_iff hDone hn hAt).mp (hLeads ▸ List.mem_cons_self)
      exact h.left_of_child hFrugal hFound hChild hAt hNone

end Graph.Recording

/-- In a complete execution every step has been paid for in full. -/
theorem Machine.execute_paid {m : Machine} {method : Method} {entry : State} {g : Graph}
    (hRun : m.execute method entry = .ok g) (hDone : g.status = .completed) :
    ∃ log t, g.Recording (m.context method 0) m.limits.maxVisits entry ⟨.after entry, m.limits.maxNodes⟩ log t ∧
      g.heap = t.heap ∧ ∀ r ∈ log, r.Paid := by
  obtain ⟨log, t, hRecording, hHeap, hFound⟩ := execute_funded hRun
  exact ⟨log, t, hRecording, hHeap,
    hRecording.paid hDone (m.context_frugal method 0) (m.callsReturn_context method 0) hFound⟩

end Dalvik
