import Dalvik.Proofs.Recording

/-!
How little the budget matters. A run that has not used up its budget does the same with any other budget
that is large enough for what it has spent, and leaves what is left of that.
-/

namespace Dalvik

namespace Run

variable {α β : Type}

/-- A computation that does the same with any budget, as long as some of it is left in the end. -/
structure Steady (r : Run α) : Prop where
  frugal : Frugal r
  same : ∀ s b, (r s).2.budget ≠ 0 → s.budget < b + (r s).2.budget →
    r { s with budget := b } = ((r s).1, { (r s).2 with budget := b + (r s).2.budget - s.budget })

/-- With two budgets of which something is left a computation does the same. -/
theorem Steady.same_of_left {r : Run α} (h : Steady r) {s : Supply} {b : Nat} (hLeft : (r s).2.budget ≠ 0)
    (hLeft' : (r { s with budget := b }).2.budget ≠ 0) :
    r { s with budget := b } = ((r s).1, { (r s).2 with budget := b + (r s).2.budget - s.budget }) := by
  by_cases hEnough : s.budget < b + (r s).2.budget
  · exact h.same s b hLeft hEnough
  · have hBack := h.same { s with budget := b } s.budget hLeft' (by dsimp only; omega)
    have hBudget : (r s).2.budget = s.budget + (r { s with budget := b }).2.budget - b :=
      congrArg (fun p => p.2.budget) hBack
    omega

theorem supply_self (s : Supply) (b : Nat) :
    ({ s with budget := b } : Supply) = { s with budget := b + s.budget - s.budget } := by
  rw [Nat.add_sub_cancel]

theorem steady_pure (v : α) : Steady (pure v : Run α) where
  frugal := frugal_pure v
  same s b _ _ := congrArg (Prod.mk (Except.ok v)) (supply_self s b)

theorem steady_throw (e : Error) : Steady (throw e : Run α) where
  frugal := frugal_throw e
  same s b _ _ := congrArg (Prod.mk (Except.error e)) (supply_self s b)

theorem steady_ofExcept (r : Except Error α) : Steady (ofExcept r) where
  frugal := frugal_ofExcept r
  same s b _ _ := congrArg (Prod.mk r) (supply_self s b)

theorem steady_onHeap {f : Heap → α × Heap} (h : ∀ k : Heap, k.Grows (f k).2) : Steady (onHeap f) where
  frugal := frugal_onHeap h
  same s b _ _ := congrArg (Prod.mk _) (supply_self { s with heap := (f s.heap).2 } b)

theorem steady_onHeap? {f : Heap → Except Error (α × Heap)}
    (h : ∀ (k : Heap) p, f k = .ok p → k.Grows p.2) : Steady (onHeap? f) where
  frugal := frugal_onHeap? h
  same s b _ _ := by
    unfold onHeap?
    dsimp only
    cases f s.heap with
    | ok p => exact congrArg (Prod.mk _) (supply_self { s with heap := p.2 } b)
    | error e => exact congrArg (Prod.mk _) (supply_self s b)

theorem steady_charge : Steady charge where
  frugal := frugal_charge
  same s b hLeft hEnough := by
    refine congrArg (Prod.mk _) ?_
    change ({ s with budget := b - 1 } : Supply) = { s with budget := b + (s.budget - 1) - s.budget }
    have hSome : s.budget - 1 ≠ 0 := hLeft
    rw [show b + (s.budget - 1) - s.budget = b - 1 by omega]

theorem Steady.attempt {r : Run α} (hr : Steady r) : Steady (attempt r) where
  frugal := hr.frugal.attempt
  same s b hLeft hEnough := by
    change ((.ok (r { s with budget := b }).1, (r { s with budget := b }).2) : Except Error _ × Supply) = _
    rw [hr.same s b hLeft hEnough]
    rfl

theorem Steady.bind {r : Run α} {f : α → Run β} (hr : Steady r) (hf : ∀ v, Steady (f v)) :
    Steady (r >>= f) where
  frugal := hr.frugal.bind fun v => (hf v).frugal
  same s b := by
    rw [stateful_bind_apply, stateful_bind_apply]
    have hFirst := hr.same s b
    have hSpent := (hr.frugal s).2
    rcases hRun : r s with ⟨result, t⟩
    rw [hRun] at hFirst hSpent
    dsimp only at hFirst hSpent
    cases result with
    | error e =>
        dsimp only
        intro hLeft hEnough
        rw [hFirst hLeft hEnough]
    | ok v =>
        dsimp only
        intro hLeft hEnough
        have hSpent' := (hf v).frugal t |>.2
        have hRest := (hf v).same t (b + t.budget - s.budget) hLeft (by omega)
        rw [hFirst (by omega) (by omega)]
        dsimp only
        rw [hRest]
        refine congrArg (Prod.mk _) ?_
        rw [show b + t.budget - s.budget + (f v t).2.budget - t.budget = b + (f v t).2.budget - s.budget
          by omega]

/-- Whether anything is left of the budget is the only thing that is asked of it. -/
theorem steady_ifBudget {r q : Run α} (hr : Frugal r) (hq : Steady q) :
    Steady (Run.budget >>= fun n => if n = 0 then r else q) where
  frugal := frugal_budget.bind fun n => by
    split
    · exact hr
    · exact hq.frugal
  same s b hLeft hEnough := by
    have hSpent := (hr s).2
    rw [stateful_bind_apply] at hLeft hEnough ⊢
    rw [stateful_bind_apply]
    dsimp only [Run.budget] at hLeft hEnough ⊢
    have hSome : s.budget ≠ 0 := by
      intro hNone
      rw [if_pos hNone] at hLeft
      omega
    rw [if_neg hSome] at hLeft hEnough ⊢
    have hSpent' := (hq.frugal s).2
    rw [if_neg (by omega)]
    exact hq.same s b hLeft hEnough

end Run

namespace Semantics

open Run (Steady)

theorem newArray_steady (pre post : State) (dst size : Register) (type : Descriptor) :
    Steady (newArray pre post dst size type) := by
  refine (Run.steady_ofExcept _).bind fun n => ?_
  split
  · refine Steady.bind (Run.steady_onHeap fun k => ?_) fun v => Run.steady_ofExcept _
    exact Heap.grows_alloc k
  · split
    · exact Run.steady_pure _
    · refine Steady.bind (Run.steady_onHeap fun k => ?_) fun v => Run.steady_ofExcept _
      exact Heap.grows_alloc k

theorem fillArray_steady (pre post : State) (array : Register) (data : List Literal) :
    Steady (fillArray pre post array data) := by
  refine (Run.steady_ofExcept _).bind fun v => ?_
  split
  · exact Run.steady_pure _
  · split
    · exact Run.steady_pure _
    · split
      · exact (Run.steady_onHeap fun k => Heap.grows_literals k _).bind fun _ => Run.steady_pure _
      · exact Run.steady_pure _
  · exact Run.steady_pure _
  · exact Run.steady_pure _

namespace Context

variable {c : Context}

theorem conclude_steady (post : State) (m : MethodReference) (args : List Register) (effect : Option Effect) :
    Steady (conclude post m args effect) := by
  unfold conclude
  cases effect with
  | none => exact (Run.steady_ofExcept _).bind fun _ => Run.steady_pure _
  | some e =>
      dsimp only
      split
      · exact (Run.steady_ofExcept _).bind fun _ => Run.steady_pure _
      · exact Run.steady_ofExcept _

theorem invokePresent_steady (hCalls : ∀ callee values, Steady (c.call callee values))
    (kind : InvokeKind) (m : MethodReference) (args : List Register) (values : List Value)
    (post : State) : Steady (c.invokePresent kind m args values post) := by
  unfold invokePresent
  split
  · refine (Run.steady_onHeap? fun k p hp => ?_).bind fun e => ?_
    · exact (FrameworkMethod.call_ends (Q := fun p => k.Grows p.2) (fun _ => .refl k)
        (fun _ => Heap.grows_alloc k) _ _ _).of_eq_ok hp
    · split
      · exact (Run.steady_ofExcept _).bind fun _ => Run.steady_pure _
      · exact Run.steady_ofExcept _
  · rw [invokeOther_eq]
    refine Steady.bind ?_ (conclude_steady _ m args)
    split
    · exact hCalls _ values
    · exact Run.steady_pure none

theorem execute_steady (hCalls : ∀ callee values, Steady (c.call callee values)) (a : Address)
    (i : Instruction Address) (pre post : State) : Steady (c.execute a i pre post) := by
  cases i with
  | const dst l =>
      exact (Run.steady_onHeap fun k => Heap.grows_literal k l).bind fun v => Run.steady_ofExcept _
  | newArray dst size d => exact newArray_steady pre post dst size d
  | fillArray array data => exact fillArray_steady pre post array data
  | invoke kind m args =>
      refine (Run.steady_ofExcept _).bind fun values => ?_
      split
      · exact Run.steady_pure _
      · exact invokePresent_steady hCalls kind m args values post
  | nop | returnVoid | goto _ => exact Run.steady_pure _
  | _ => exact Run.steady_ofExcept _

theorem apply_steady (hCalls : ∀ callee values, Steady (c.call callee values)) (a : Address)
    (pre : State) : Steady (c.apply a pre) := by
  unfold apply
  cases c.method.code.at? a with
  | none => exact Run.steady_throw _
  | some i =>
      refine (execute_steady hCalls a i pre _).bind fun o => ?_
      exact (Run.steady_ofExcept _).bind fun _ => Run.steady_pure _

end Context

end Semantics

namespace Exploration

open Run (Frugal Steady)

variable {maxVisits : Nat} {c : Semantics.Context}

theorem visit_steady (hc : ∀ a pre, Steady (c.apply a pre)) (e : Exploration) (p : Pending) :
    Steady (visit maxVisits c e p) := by
  refine Run.steady_ifBudget (Run.frugal_pure _) ?_
  split
  · exact Run.steady_pure _
  · exact (hc p.address p.pre).bind fun step => Run.steady_charge.bind fun _ => Run.steady_pure _

theorem foldlM_visit_steady (hc : ∀ a pre, Steady (c.apply a pre)) (ps : List Pending)
    (e : Exploration) : Steady (ps.foldlM (visit maxVisits c) e) := by
  induction ps generalizing e with
  | nil => exact Run.steady_pure e
  | cons p ps ih =>
      rw [List.foldlM_cons]
      exact (visit_steady hc e p).bind ih

theorem rounds_steady (hc : ∀ a pre, Steady (c.apply a pre)) (n : Nat) (e : Exploration) :
    Steady (rounds maxVisits c n e) := by
  induction n generalizing e with
  | zero => exact Run.steady_pure e
  | succ n ih =>
      unfold rounds
      split
      · exact Run.steady_pure e
      · exact (foldlM_visit_steady hc _ _).bind ih

/-- More rounds than are needed do nothing. -/
theorem rounds_enough (maxVisits : Nat) (hc : ∀ a pre, Frugal (c.apply a pre)) {n k : Nat} {e : Exploration}
    {s : Supply} (hn : s.budget < n ∨ e.found = []) (hk : s.budget < k ∨ e.found = []) :
    rounds maxVisits c n e s = rounds maxVisits c k e s := by
  have hDone {e : Exploration} (s : Supply) (n : Nat) (h : e.found = []) :
      rounds maxVisits c n e s = (.ok e, s) := by
    cases n with
    | zero => rfl
    | succ n =>
        unfold rounds
        rw [h]
        rfl
  induction n generalizing k e s with
  | zero =>
      have hNone := hn.resolve_left (Nat.not_lt_zero _)
      rw [hDone s 0 hNone, hDone s k hNone]
  | succ n ih =>
      by_cases hNone : e.found = []
      · rw [hDone s _ hNone, hDone s _ hNone]
      · have hn := hn.resolve_right hNone
        have hk := hk.resolve_right hNone
        obtain ⟨k, rfl⟩ := Nat.exists_eq_succ_of_ne_zero (Nat.ne_zero_of_lt hk)
        unfold rounds
        rw [if_neg (by simpa using hNone), if_neg (by simpa using hNone), stateful_bind_apply,
          stateful_bind_apply]
        have hSpends := foldlM_visit_spends maxVisits hc e.found.reverse
          { e with found := [] } s
        unfold Run.Ends at hSpends
        rcases hRun : e.found.reverse.foldlM (visit maxVisits c) { e with found := [] } s with
          ⟨_ | e', t⟩
        · rfl
        · rw [hRun] at hSpends
          dsimp only at hSpends ⊢
          rcases hSpends with hLess | ⟨_, hFound⟩
          · exact ih (.inl (by omega)) (.inl (by omega))
          · exact ih (.inr hFound) (.inr hFound)

end Exploration

namespace Machine

open Run (Frugal Steady)

variable {m : Machine}

/-- An exploration takes one round more than its budget, of which those that are not needed do
nothing. -/
theorem explore_eq_rounds {call : Method → List Value → Run (Option Effect)}
    (hCalls : ∀ callee values, Frugal (call callee values)) {method : Method} (hCode : method.code ≠ [])
    (entry : State) {s : Supply} {n : Nat} (hn : s.budget < n) :
    m.explore call method entry s =
      (Exploration.rounds m.limits.maxVisits ⟨m.classes, method, call⟩ n
          ⟨.start method entry, [], [⟨none, 0, entry⟩]⟩ >>= fun e => (pure e.graph : Run Graph)) s := by
  have hFull : ¬ method.code.isEmpty = true := by simpa using hCode
  have hFrugal (a : Address) (pre : State) :
      Frugal ((⟨m.classes, method, call⟩ : Semantics.Context).apply a pre) :=
    Semantics.Context.apply_frugal (fun _ _ _ _ _ _ _ _ callee _ values => hCalls callee values) a pre
  have hSame := Exploration.rounds_enough m.limits.maxVisits hFrugal
    (e := ⟨.start method entry, [], [⟨none, 0, entry⟩]⟩) (.inl (Nat.lt_succ_self s.budget)) (.inl hn)
  unfold explore
  rw [if_neg hFull, stateful_bind_apply]
  change (Exploration.rounds m.limits.maxVisits ⟨m.classes, method, call⟩ (s.budget + 1)
    ⟨.start method entry, [], [⟨none, 0, entry⟩]⟩ >>= fun e => (pure e.graph : Run Graph)) s = _
  rw [stateful_bind_apply, stateful_bind_apply, hSame]

theorem explore_steady {call : Method → List Value → Run (Option Effect)}
    (hCalls : ∀ callee values, Steady (call callee values)) (method : Method) (entry : State) :
    Steady (m.explore call method entry) := by
  by_cases hCode : method.code = []
  · unfold explore
    rw [if_pos (by rw [hCode]; rfl)]
    exact Run.steady_pure _
  · have hFrugal callee values := (hCalls callee values).frugal
    refine ⟨explore_frugal hFrugal method entry, fun s b hLeft hEnough => ?_⟩
    -- a number of rounds that is enough for both budgets
    have hFirst := explore_eq_rounds (m := m) hFrugal hCode entry (s := s) (n := s.budget + b + 1)
      (by omega)
    have hSecond := explore_eq_rounds (m := m) hFrugal hCode entry (s := { s with budget := b })
      (n := s.budget + b + 1) (Nat.lt_succ_of_le (Nat.le_add_left _ _))
    rw [hFirst] at hLeft hEnough ⊢
    rw [hSecond]
    exact ((Exploration.rounds_steady (Semantics.Context.apply_steady hCalls) _ _).bind fun e =>
      Run.steady_pure e.graph).same s b hLeft hEnough

theorem callWith_steady {run : Method → State → Run Graph} (hRun : ∀ callee entry, Steady (run callee entry))
    (callee : Method) (values : List Value) : Steady (callWith run callee values) := by
  refine Run.steady_ifBudget (Run.frugal_pure _) ?_
  split
  · exact Run.steady_pure _
  · rename_i entry _
    refine (hRun callee entry).attempt.bind fun result => ?_
    split
    · exact Run.steady_pure _
    · exact Run.steady_throw _
    · exact Run.steady_pure _

/-- A method that is explored without using up the budget is explored alike with any larger one. -/
theorem run_steady (depth : Nat) (method : Method) (entry : State) :
    Steady (m.run depth method entry) := by
  induction depth generalizing method entry with
  | zero => exact explore_steady (fun _ _ => Run.steady_pure _) method entry
  | succ depth ih => exact explore_steady (callWith_steady ih) method entry

theorem callAt_steady (depth : Nat) (callee : Method) (values : List Value) :
    Steady (m.callAt depth callee values) := by
  unfold callAt
  cases m.limits.maxDepth - depth with
  | zero => exact Run.steady_pure _
  | succ below => exact callWith_steady (run_steady below) callee values

theorem context_steady (m : Machine) (method : Method) (depth : Nat) (a : Address) (pre : State) :
    Steady ((m.context method depth).apply a pre) :=
  Semantics.Context.apply_steady (callAt_steady depth) a pre

end Machine

end Dalvik
