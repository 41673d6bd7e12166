import Dalvik.Proofs.Limits
import Dalvik.Proofs.MirroredSteps
import Dalvik.Proofs.Turning

/-!
The nodes of an execution and of all that it calls. They are drawn from one budget, which is only charged after a
step has been performed. A step in which a call has used up all that was left therefore makes one node too many, and
so may the step of the caller in which that one was performed, but nothing is explored after it. Hence there is at
most one such node for every level of nesting.
-/

namespace Dalvik

open Run (Frugal Thrifty)

namespace Supply

variable {excess n k : Nat} {s t u : Supply}

/-- A number of nodes is covered by what has been taken from a budget, but for some excess if nothing is left of
that. Where there has been no budget, there are no nodes. -/
structure Covers (excess : Nat) (s t : Supply) (n : Nat) : Prop where
  spends : t.budget ≤ s.budget
  covered : t.budget ≠ 0 → n + t.budget ≤ s.budget
  exceeds : n ≤ s.budget + excess
  idle : s.budget = 0 → n = 0

/-- A number of nodes is covered, and so is one more for which something is left. -/
structure Affords (excess : Nat) (s t : Supply) (n : Nat) : Prop where
  spends : t.budget ≤ s.budget
  covered : t.budget ≠ 0 → n + t.budget ≤ s.budget
  exceeds : s.budget ≠ 0 → t.budget = 0 → n + 1 ≤ s.budget + excess

theorem covers_zero (excess : Nat) (s : Supply) : Covers excess s s 0 :=
  ⟨Nat.le_refl _, fun _ => Nat.le_of_eq (Nat.zero_add _), Nat.zero_le _, fun _ => rfl⟩

/-- There is an excess once only: where nothing is left, nothing follows. -/
theorem Covers.add (h : Covers excess s t n) (h' : Covers excess t u k) : Covers excess s u (n + k) := by
  obtain ⟨hSpends, hCovered, hExceeds, hIdle⟩ := h
  obtain ⟨hSpends', hCovered', hExceeds', hIdle'⟩ := h'
  exact ⟨by omega, by omega, by omega, by omega⟩

/-- What takes nothing from the budget leaves something. -/
theorem affords_of_eq (excess : Nat) (h : t.budget = s.budget) : Affords excess s t 0 :=
  ⟨by omega, by omega, by omega⟩

theorem Covers.affords (h : Covers excess s t n) : Affords (excess + 1) s t n :=
  ⟨h.spends, h.covered, fun _ _ => Nat.succ_le_succ h.exceeds⟩

theorem Affords.covers (h : Affords excess s t n) (hSome : s.budget ≠ 0) : Covers excess s t n := by
  obtain ⟨hSpends, hCovered, hExceeds⟩ := h
  exact ⟨hSpends, hCovered, by omega, by omega⟩

/-- The node of a step is charged for after the step. If nothing is left by then, it is one node too many. -/
theorem Affords.charge (h : Affords excess s t n) (hSome : s.budget ≠ 0) :
    Covers excess s { t with budget := t.budget - 1 } (1 + n) := by
  obtain ⟨hSpends, hCovered, hExceeds⟩ := h
  exact ⟨by dsimp only; omega, by dsimp only; omega, by omega, by omega⟩

end Supply

open Supply

namespace Run

variable {α β : Type}

/-- What is added up for the rest of a computation, after its first part. Nothing is if that fails. -/
def thereafter (r : Run α) (rest : α → Supply → Nat) (s : Supply) : Nat :=
  match r s with
  | (.ok v, t) => rest v t
  | (.error _, _) => 0

theorem thereafter_eq_add {r : Run α} {l m n : α → Supply → Nat} (h : ∀ v t, l v t = m v t + n v t)
    (s : Supply) : r.thereafter l s = r.thereafter m s + r.thereafter n s := by
  unfold thereafter
  rcases r s with ⟨e | v, t⟩
  · rfl
  · exact h v t

theorem covers_bind {excess : Nat} {r : Run α} {f : α → Run β} {n : Supply → Nat} {rest : α → Supply → Nat}
    (hr : ∀ s, Covers excess s (r s).2 (n s)) (hf : ∀ v s, Covers excess s (f v s).2 (rest v s)) (s : Supply) :
    Covers excess s ((r >>= f) s).2 (n s + r.thereafter rest s) := by
  have hFirst := hr s
  rw [stateful_bind_apply]
  unfold thereafter
  generalize r s = x at hFirst ⊢
  obtain ⟨e | v, t⟩ := x
  · exact hFirst
  · exact hFirst.add (hf v t)

theorem Thrifty.bind_budget {r : Run α} {f : α → Run β} (hf : ∀ v, Thrifty (f v)) (s : Supply) :
    ((r >>= f) s).2.budget = (r s).2.budget := by
  rw [stateful_bind_apply]
  rcases r s with ⟨e | v, t⟩
  · rfl
  · exact hf v t

end Run

namespace Semantics.Context

variable {c : Context}

/-- The call of a local method that a step makes, if it makes one. -/
def asks? (c : Context) (a : Address) (pre : State) : Option (Method × List Value) :=
  match c.method.code.at? a with
  | some (.invoke kind m args) =>
    match args.mapM pre.read with
    | .ok values =>
      if hasNullReceiver kind values || (FrameworkMethod.find? m).isSome then none
      else (c.callee? kind m).map fun callee => (callee, values)
    | .error _ => none
  | _ => none

/-- What is counted of the call that a step makes. -/
def countCall (c : Context) (count : Method → List Value → Supply → Nat) (a : Address) (pre : State) (s : Supply) :
    Nat :=
  match c.asks? a pre with
  | some (callee, values) => count callee values s
  | none => 0

/-- A step makes one node, if it does not fail. -/
def countStep (c : Context) (a : Address) (pre : State) (s : Supply) : Nat :=
  match (c.apply a pre s).1 with
  | .ok _ => 1
  | .error _ => 0

theorem invokeOther_budget {kind : InvokeKind} {m : MethodReference} {callee : Method}
    (hCallee : c.callee? kind m = some callee) (args : List Register) (values : List Value) (post : State)
    (s : Supply) : (c.invokeOther kind m args values post s).2.budget = (c.call callee values s).2.budget := by
  rw [invokeOther_eq, hCallee]
  exact Thrifty.bind_budget (fun effect => conclude_thrifty _ m args effect) s

/-- A step takes from the budget what the call takes that it makes, and nothing without one. -/
theorem apply_budget (c : Context) (a : Address) (pre : State) (s : Supply) :
    (c.apply a pre s).2.budget =
      match c.asks? a pre with
      | some (callee, values) => (c.call callee values s).2.budget
      | none => s.budget := by
  cases hi : c.method.code.at? a with
  | none =>
      unfold asks?
      rw [apply_of_at?_eq_none hi, hi]
      rfl
  | some i =>
      by_cases hNoBody : c.RunsNoBody i
      · have hNone : c.asks? a pre = none := by
          unfold asks?
          rw [hi]
          split
          · rename_i kind m args hInvoke
            split
            · split
              · rfl
              · rename_i hOther
                obtain rfl := Option.some.inj hInvoke
                rw [hNoBody kind m args rfl (by simp_all)]
                rfl
            · rfl
          · rfl
        rw [hNone]
        exact apply_thrifty hi hNoBody pre s
      · simp only [RunsNoBody, not_forall] at hNoBody
        obtain ⟨kind, m, args, rfl, hOther, hCallee⟩ := hNoBody
        obtain ⟨callee, hCallee⟩ := Option.ne_none_iff_exists'.mp hCallee
        rw [apply_eq c pre hi, Thrifty.bind_budget fun _ => Run.thrifty_ofExcept _]
        change (c.invoke kind m args pre { pre with result := none, exception := none } s).2.budget = _
        unfold invoke asks?
        rw [stateful_bind_apply, hi]
        dsimp only [Run.ofExcept]
        cases args.mapM pre.read with
        | error e => rfl
        | ok values =>
            dsimp only
            by_cases hNull : hasNullReceiver kind values = true
            · rw [if_pos hNull, hNull]
              rfl
            · rw [if_neg hNull, if_neg (by simp [hNull, hOther]), hCallee]
              unfold invokePresent
              rw [hOther]
              exact invokeOther_budget hCallee args values _ s

theorem apply_affords {excess : Nat} {count : Method → List Value → Supply → Nat}
    (hCalls : ∀ callee values s, Affords excess s (c.call callee values s).2 (count callee values s)) (a : Address)
    (pre : State) (s : Supply) : Affords excess s (c.apply a pre s).2 (c.countCall count a pre s) := by
  have hBudget := c.apply_budget a pre s
  unfold countCall
  cases hAsks : c.asks? a pre with
  | none =>
      rw [hAsks] at hBudget
      exact affords_of_eq excess hBudget
  | some asked =>
      rw [hAsks] at hBudget
      obtain ⟨hSpends, hCovered, hExceeds⟩ := hCalls asked.1 asked.2 s
      exact ⟨hBudget ▸ hSpends, hBudget ▸ hCovered, hBudget ▸ hExceeds⟩

end Semantics.Context

namespace Exploration

variable {maxVisits : Nat} {c : Semantics.Context}

/-- What a visit counts for, if each step has some weight. A path that is cut off does not count. -/
def visitTally (maxVisits : Nat) (weight : Address → State → Supply → Nat) (e : Exploration) (p : Pending)
    (s : Supply) : Nat :=
  if s.budget = 0 ∨ maxVisits ≤ e.visitsOf p.address then 0 else weight p.address p.pre s

/-- What a round counts for. -/
def roundTally (maxVisits : Nat) (c : Semantics.Context) (weight : Address → State → Supply → Nat) :
    List Pending → Exploration → Supply → Nat
  | [], _, _ => 0
  | p :: ps, e, s =>
    visitTally maxVisits weight e p s +
      (visit maxVisits c e p).thereafter (roundTally maxVisits c weight ps) s

/-- What a number of rounds count for. -/
def roundsTally (maxVisits : Nat) (c : Semantics.Context) (weight : Address → State → Supply → Nat) :
    Nat → Exploration → Supply → Nat
  | 0, _, _ => 0
  | n + 1, e, s =>
    if e.found.isEmpty then 0
    else
      roundTally maxVisits c weight e.found.reverse { e with found := [] } s +
        Run.thereafter (e.found.reverse.foldlM (visit maxVisits c) { e with found := [] })
          (roundsTally maxVisits c weight n) s

section

variable {v w : Address → State → Supply → Nat}

theorem roundTally_add (ps : List Pending) (e : Exploration) (s : Supply) :
    roundTally maxVisits c (fun a pre s => v a pre s + w a pre s) ps e s =
      roundTally maxVisits c v ps e s + roundTally maxVisits c w ps e s := by
  induction ps generalizing e s with
  | nil => rfl
  | cons p ps ih =>
      have hVisit : visitTally maxVisits (fun a pre s => v a pre s + w a pre s) e p s =
          visitTally maxVisits v e p s + visitTally maxVisits w e p s := by
        unfold visitTally
        split <;> rfl
      unfold roundTally
      rw [hVisit, Run.thereafter_eq_add ih]
      omega

theorem roundsTally_add (n : Nat) (e : Exploration) (s : Supply) :
    roundsTally maxVisits c (fun a pre s => v a pre s + w a pre s) n e s =
      roundsTally maxVisits c v n e s + roundsTally maxVisits c w n e s := by
  induction n generalizing e s with
  | zero => rfl
  | succ n ih =>
      unfold roundsTally
      split
      · rfl
      · rw [roundTally_add, Run.thereafter_eq_add ih]
        omega

end

/-- Counting the steps counts the nodes that are added to the graph. -/
theorem visit_size {e e' : Exploration} {p : Pending} {s t : Supply} (h : visit maxVisits c e p s = (.ok e', t)) :
    e'.graph.nodes.size = e.graph.nodes.size + visitTally maxVisits c.countStep e p s := by
  rw [visit_eq] at h
  unfold visitTally
  by_cases hBudget : s.budget = 0
  · rw [if_pos hBudget] at h
    obtain ⟨rfl, _⟩ := Run.pure_eq_ok h
    rw [if_pos (.inl hBudget)]
    exact Graph.size_cut _ _
  · by_cases hMost : maxVisits ≤ e.visitsOf p.address
    · rw [if_neg hBudget, if_pos hMost] at h
      obtain ⟨rfl, _⟩ := Run.pure_eq_ok h
      rw [if_pos (.inr hMost)]
      exact Graph.size_cut _ _
    · rw [if_neg hBudget, if_neg hMost] at h
      rw [if_neg (by simp [hBudget, hMost])]
      unfold Semantics.Context.countStep
      rcases hApply : c.apply p.address p.pre s with ⟨e₁ | step, u⟩
      · rw [hApply] at h
        cases h
      · rw [hApply] at h
        obtain ⟨rfl, _⟩ := Run.pure_eq_ok h
        exact Graph.size_add _ _ _ _

theorem round_size {ps : List Pending} {e e' : Exploration} {s t : Supply}
    (h : ps.foldlM (visit maxVisits c) e s = (.ok e', t)) :
    e'.graph.nodes.size = e.graph.nodes.size + roundTally maxVisits c c.countStep ps e s := by
  induction ps generalizing e s with
  | nil =>
      obtain ⟨rfl, _⟩ := Run.pure_eq_ok h
      rfl
  | cons p ps ih =>
      rw [List.foldlM_cons] at h
      obtain ⟨e₁, t₁, hFirst, hRest⟩ := Run.bind_eq_ok h
      unfold roundTally Run.thereafter
      rw [hFirst, ih hRest, visit_size hFirst]
      dsimp only
      omega

theorem rounds_size {n : Nat} {e e' : Exploration} {s t : Supply} (h : rounds maxVisits c n e s = (.ok e', t)) :
    e'.graph.nodes.size = e.graph.nodes.size + roundsTally maxVisits c c.countStep n e s := by
  induction n generalizing e s with
  | zero =>
      obtain ⟨rfl, _⟩ := Run.pure_eq_ok h
      rfl
  | succ n ih =>
      unfold rounds at h
      unfold roundsTally
      split at h
      · rename_i hEmpty
        obtain ⟨rfl, _⟩ := Run.pure_eq_ok h
        rw [if_pos hEmpty]
        rfl
      · rename_i hFound
        obtain ⟨e₁, t₁, hRound, hRest⟩ := Run.bind_eq_ok h
        rw [if_neg hFound]
        unfold Run.thereafter
        rw [hRound, ih hRest, round_size hRound]
        dsimp only
        omega

/-- What a step and the call that it makes count for. -/
def weight (c : Semantics.Context) (count : Method → List Value → Supply → Nat) (a : Address) (pre : State)
    (s : Supply) : Nat :=
  c.countStep a pre s + c.countCall count a pre s

variable {excess : Nat} {count : Method → List Value → Supply → Nat}

section

variable (hCalls : ∀ callee values s, Affords excess s (c.call callee values s).2 (count callee values s))

include hCalls

theorem visit_covers (e : Exploration) (p : Pending) (s : Supply) :
    Covers excess s (visit maxVisits c e p s).2 (visitTally maxVisits (weight c count) e p s) := by
  rw [visit_eq]
  unfold visitTally
  by_cases hBudget : s.budget = 0
  · rw [if_pos hBudget, if_pos (.inl hBudget)]
    exact covers_zero excess s
  · by_cases hMost : maxVisits ≤ e.visitsOf p.address
    · rw [if_neg hBudget, if_pos hMost, if_pos (.inr hMost)]
      exact covers_zero excess s
    · have hStep := Semantics.Context.apply_affords hCalls p.address p.pre s
      rw [if_neg hBudget, if_neg hMost, if_neg (by simp [hBudget, hMost])]
      unfold weight Semantics.Context.countStep
      generalize c.apply p.address p.pre s = x at hStep ⊢
      obtain ⟨e₁ | step, t⟩ := x
      · exact (Nat.zero_add _).symm ▸ hStep.covers hBudget
      · exact hStep.charge hBudget

theorem round_covers (ps : List Pending) (e : Exploration) (s : Supply) :
    Covers excess s (ps.foldlM (visit maxVisits c) e s).2 (roundTally maxVisits c (weight c count) ps e s) := by
  induction ps generalizing e s with
  | nil => exact covers_zero excess s
  | cons p ps ih =>
      rw [List.foldlM_cons]
      exact Run.covers_bind (visit_covers hCalls e p) ih s

theorem rounds_covers (n : Nat) (e : Exploration) (s : Supply) :
    Covers excess s (rounds maxVisits c n e s).2 (roundsTally maxVisits c (weight c count) n e s) := by
  induction n generalizing e s with
  | zero => exact covers_zero excess s
  | succ n ih =>
      unfold rounds roundsTally
      split
      · exact covers_zero excess s
      · exact Run.covers_bind (round_covers hCalls _ _) ih s

end

end Exploration

namespace Machine

open Exploration Relation

variable {m : Machine} {excess : Nat} {call : Method → List Value → Run (Option Effect)}

/-- What an exploration counts for, if each step has some weight. -/
def tally (m : Machine) (call : Method → List Value → Run (Option Effect))
    (weight : Semantics.Context → Address → State → Supply → Nat) (method : Method) (entry : State) (s : Supply) :
    Nat :=
  if method.code.isEmpty then 0
  else
    let c : Semantics.Context := ⟨m.classes, method, call⟩
    roundsTally m.limits.maxVisits c (weight c) (s.budget + 1) ⟨.start method entry, [], [⟨none, 0, entry⟩]⟩ s

/-- What is counted of the exploration of a call. There is none without any budget or for too many arguments. -/
def callTally (count : Method → State → Supply → Nat) (callee : Method) (values : List Value) (s : Supply) : Nat :=
  if s.budget = 0 then 0
  else
    match callee.startWith? values with
    | none => 0
    | some state => count callee state s

/-- The nodes that a method makes when it is explored with calls up to a depth below it, those of all graphs that
are explored for the calls included. -/
def allNodes (m : Machine) : Nat → Method → State → Supply → Nat
  | 0 => m.tally (fun _ _ => return none) fun c => weight c fun _ _ _ => 0
  | depth + 1 => m.tally (callWith (m.run depth)) fun c => weight c (callTally (m.allNodes depth))

/-- The nodes that are made for the calls of a method. -/
def nestedNodes (m : Machine) : Nat → Method → State → Supply → Nat
  | 0 => m.tally (fun _ _ => return none) fun c => c.countCall fun _ _ _ => 0
  | depth + 1 => m.tally (callWith (m.run depth)) fun c => c.countCall (callTally (m.allNodes depth))

theorem tally_weight (count : Method → List Value → Supply → Nat) (method : Method) (entry : State) (s : Supply) :
    m.tally call (fun c => weight c count) method entry s =
      m.tally call (fun c => c.countStep) method entry s +
        m.tally call (fun c => c.countCall count) method entry s := by
  unfold tally
  split
  · rfl
  · exact roundsTally_add _ _ _

theorem explore_size {method : Method} {entry : State} {s t : Supply} {g : Graph}
    (h : m.explore call method entry s = (.ok g, t)) :
    g.nodes.size = m.tally call (fun c => c.countStep) method entry s := by
  unfold explore at h
  unfold tally
  split at h
  · rename_i hEmpty
    obtain ⟨rfl, _⟩ := Run.pure_eq_ok h
    rw [if_pos hEmpty]
    rfl
  · rename_i hCode
    obtain ⟨n, u, hBudget, h⟩ := Run.bind_eq_ok h
    obtain ⟨rfl, rfl⟩ := Run.pure_eq_ok hBudget
    obtain ⟨e, u, hRounds, h⟩ := Run.bind_eq_ok h
    obtain ⟨rfl, _⟩ := Run.pure_eq_ok h
    rw [if_neg hCode, rounds_size hRounds]
    exact Nat.zero_add _

/-- All nodes are those of the graph and those of the calls. -/
theorem allNodes_eq {depth : Nat} {method : Method} {entry : State} {s t : Supply} {g : Graph}
    (h : m.run depth method entry s = (.ok g, t)) :
    m.allNodes depth method entry s = g.nodes.size + m.nestedNodes depth method entry s := by
  cases depth <;> exact (tally_weight _ method entry s).trans (congrArg (· + _) (explore_size h).symm)

theorem callWith_budget (run : Method → State → Run Graph) (callee : Method) (values : List Value) (s : Supply) :
    (callWith run callee values s).2.budget =
      if s.budget = 0 then s.budget
      else match callee.startWith? values with
        | none => s.budget
        | some state => (run callee state s).2.budget := by
  unfold callWith
  rw [stateful_bind_apply]
  dsimp only [Run.budget]
  split
  · rfl
  · cases callee.startWith? values with
    | none => rfl
    | some state =>
        refine Thrifty.bind_budget (r := Run.attempt (run callee state)) (fun result => ?_) s
        split
        · exact Run.thrifty_pure _
        · exact fun _ => rfl
        · exact Run.thrifty_pure _

theorem callWith_affords {run : Method → State → Run Graph} {count : Method → State → Supply → Nat}
    (hRun : ∀ callee state s, Covers excess s (run callee state s).2 (count callee state s)) (callee : Method)
    (values : List Value) (s : Supply) :
    Affords (excess + 1) s (callWith run callee values s).2 (callTally count callee values s) := by
  have hLeft := callWith_budget run callee values s
  unfold callTally
  split at hLeft
  · rename_i hBudget
    rw [if_pos hBudget]
    exact affords_of_eq _ hLeft
  · rename_i hBudget
    rw [if_neg hBudget]
    cases hState : callee.startWith? values with
    | none =>
        rw [hState] at hLeft
        exact affords_of_eq _ hLeft
    | some state =>
        rw [hState] at hLeft
        obtain ⟨hSpends, hCovered, hExceeds⟩ := (hRun callee state s).affords
        exact ⟨hLeft ▸ hSpends, hLeft ▸ hCovered, hLeft ▸ hExceeds⟩

theorem explore_covers {count : Method → List Value → Supply → Nat}
    (hCalls : ∀ callee values s, Affords excess s (call callee values s).2 (count callee values s))
    (method : Method) (entry : State) (s : Supply) :
    Covers excess s (m.explore call method entry s).2 (m.tally call (fun c => weight c count) method entry s) := by
  unfold explore tally
  split
  · exact covers_zero excess s
  · let c : Semantics.Context := ⟨m.classes, method, call⟩
    let e : Exploration := ⟨.start method entry, [], [⟨none, 0, entry⟩]⟩
    have hRounds : Covers excess s (rounds m.limits.maxVisits c (s.budget + 1) e s).2
        (roundsTally m.limits.maxVisits c (weight c count) (s.budget + 1) e s) := rounds_covers hCalls _ _ s
    have hLeft :
        ((rounds m.limits.maxVisits c (s.budget + 1) e >>= fun done : Exploration => pure done.graph) s).2.budget =
          (rounds m.limits.maxVisits c (s.budget + 1) e s).2.budget :=
      Thrifty.bind_budget (fun done : Exploration => Run.thrifty_pure done.graph) s
    obtain ⟨hSpends, hCovered, hExceeds, hIdle⟩ := hRounds
    rw [← hLeft] at hSpends hCovered
    exact ⟨hSpends, hCovered, hExceeds, hIdle⟩

/-- There is at most one node too many for each level of nesting. -/
theorem run_covers (depth : Nat) (method : Method) (entry : State) (s : Supply) :
    Covers depth s (m.run depth method entry s).2 (m.allNodes depth method entry s) := by
  induction depth generalizing method entry s with
  | zero => exact explore_covers (fun _ _ _ => affords_of_eq 0 rfl) method entry s
  | succ depth ih => exact explore_covers (callWith_affords ih) method entry s

/-- An execution comes to an end, and stays within its limits. No loop of it turns forever, whatever methods call
each other; each ends with nothing left to explore, or with the error of a step. The graph has no more nodes than the
limit and no more executions of an instruction than may be visited, and all nodes that are made, in this graph and in
those of all calls, are no more than the limits of nodes and of the nesting of calls together. -/
theorem execute_terminates (m : Machine) (method : Method) (entry : State) :
    (∀ callee depth, WellFounded fun k' k => Turn m.limits.maxVisits (m.context callee depth) k k') ∧
      (∀ callee depth state s, Run.Ends (m.run (m.limits.maxDepth - depth) callee state) s
        (fun g t =>
          ((callee.code = [] ∧ g = .start callee state ∧ t = s) ∨
            ∃ v, ReflTransGen (Turn m.limits.maxVisits (m.context callee depth)) (.first callee state s)
              ⟨[], g, v, t⟩) ∧
          m.allNodes (m.limits.maxDepth - depth) callee state s =
            g.nodes.size + m.nestedNodes (m.limits.maxDepth - depth) callee state s)
        fun e t => ∃ k, ReflTransGen (Turn m.limits.maxVisits (m.context callee depth))
          (.first callee state s) k ∧ k.Fails m.limits.maxVisits (m.context callee depth) e t) ∧
      (∀ g, m.execute method entry = .ok g →
        g.nodes.size ≤ m.limits.maxNodes ∧ (∀ a, (g.pile a).length ≤ m.limits.maxVisits) ∧
          g.nodes.size + m.nestedNodes m.limits.maxDepth method entry ⟨.after entry, m.limits.maxNodes⟩ ≤
            m.limits.maxNodes + m.limits.maxDepth) ∧
      m.allNodes m.limits.maxDepth method entry ⟨.after entry, m.limits.maxNodes⟩ ≤
        m.limits.maxNodes + m.limits.maxDepth := by
  have hMost := (run_covers (m := m) m.limits.maxDepth method entry ⟨.after entry, m.limits.maxNodes⟩).exceeds
  refine ⟨fun callee depth => wellFounded_turn _ (context_frugal callee depth), fun callee depth state s => ?_,
    fun g h => ?_, hMost⟩
  · have hTurns := explore_turns (m := m) (callAt_frugal (m := m) depth) callee state s
    have hNodes (g : Graph) (t : Supply) := @allNodes_eq m (m.limits.maxDepth - depth) callee state s t g
    rw [← run_eq] at hTurns
    unfold Run.Ends at hTurns ⊢
    rcases hRun : m.run (m.limits.maxDepth - depth) callee state s with ⟨e | g, t⟩
    · rw [hRun] at hTurns
      exact hTurns
    · rw [hRun] at hTurns
      exact ⟨hTurns, hNodes g t hRun⟩
  · obtain ⟨_, g₀, t, hRun, rfl⟩ := execute_eq_ok_iff.mp h
    obtain ⟨hNodes, hPiles⟩ := explore_within (callAt_frugal 0) hRun
    have hSame : m.run m.limits.maxDepth = m.explore (m.callAt 0) := run_eq m 0
    have hAll := @allNodes_eq m m.limits.maxDepth method entry _ _ _ (by rw [hSame]; exact hRun)
    exact ⟨hNodes, hPiles, hAll ▸ hMost⟩

/-- A method that calls itself before it returns. -/
def divingMethod : Method where
  reference := ⟨⟨"La;"⟩, "dive", [], .void⟩
  flags := { static := true }
  locals := 0
  code := [.invoke .static ⟨⟨"La;"⟩, "dive", [], .void⟩ [], .returnVoid]
  tries := []

/-- A machine with one node, and calls that may be nested twice. -/
def divingMachine : Machine := ⟨⟨[⟨⟨"La;"⟩, [divingMethod]⟩]⟩, ⟨1, 5, 2⟩⟩

/-- The limit is reached: each of the three calls makes a node from a budget of one. -/
theorem execute_terminates_divingMethod :
    ∃ g, divingMachine.execute divingMethod (initialState divingMethod) = .ok g ∧ g.nodes.size = 1 ∧
      g.nodes.size + divingMachine.nestedNodes 2 divingMethod (initialState divingMethod)
        ⟨.after (initialState divingMethod), 1⟩ = 3 ∧
      divingMachine.allNodes 2 divingMethod (initialState divingMethod)
        ⟨.after (initialState divingMethod), 1⟩ ≤ 1 + 2 := by
  have hRun : divingMachine.execute divingMethod (initialState divingMethod) =
      .ok (divingMachine.graphOf divingMethod (initialState divingMethod)) :=
    execute_eq_graphOf (by decide +kernel)
  exact ⟨_, hRun, by decide +kernel, by decide +kernel,
    (execute_terminates divingMachine divingMethod (initialState divingMethod)).2.2.2⟩

end Machine

end Dalvik
