import Dalvik.Proofs.Recording

/-!
The exploration of a method as a loop. Each turn takes the execution that has waited longest from the queue, and
either cuts it off or performs its step. No sequence of turns goes on forever, whatever the calls do that the steps
make, and an exploration ends where its loop does.
-/

namespace Dalvik

open Run (Frugal)

namespace Exploration

/-- An exploration between two turns: what waits to be explored, the graph, the counts and the supply. -/
structure Loop where
  queue : List Pending
  graph : Graph
  visits : List (Address × Nat)
  supply : Supply

/-- Where a loop begins. -/
def Loop.first (method : Method) (entry : State) (s : Supply) : Loop :=
  ⟨[⟨none, 0, entry⟩], .start method entry, [], s⟩

variable {maxVisits : Nat} {c : Semantics.Context}

/-- One turn of the loop. -/
inductive Turn (maxVisits : Nat) (c : Semantics.Context) : Loop → Loop → Prop
  | nodes {p : Pending} {q : List Pending} {g : Graph} {v : List (Address × Nat)} {s : Supply}
      (hBudget : s.budget = 0) : Turn maxVisits c ⟨p :: q, g, v, s⟩ ⟨q, g.cut .nodes p.parent, v, s⟩
  | visits {p : Pending} {q : List Pending} {g : Graph} {v : List (Address × Nat)} {s : Supply}
      (hBudget : s.budget ≠ 0) (hMost : maxVisits ≤ (v.lookup p.address).getD 0) :
      Turn maxVisits c ⟨p :: q, g, v, s⟩ ⟨q, g.cut .visits p.parent, v, s⟩
  | record {p : Pending} {q : List Pending} {g : Graph} {v : List (Address × Nat)} {s t : Supply} {step : Step}
      (hBudget : s.budget ≠ 0) (hMost : (v.lookup p.address).getD 0 < maxVisits)
      (hApply : c.apply p.address p.pre s = (.ok step, t)) :
      Turn maxVisits c ⟨p :: q, g, v, s⟩
        ⟨q ++ nextOf g.nodes.size step, g.add p.address p.pre step.post p.parent, countVisit p.address v,
          { t with budget := t.budget - 1 }⟩

/-- The loop fails: the step of the execution that is explored next does. -/
def Loop.Fails (maxVisits : Nat) (c : Semantics.Context) (k : Loop) (e : Error) (t : Supply) : Prop :=
  ∃ p q, k.queue = p :: q ∧ k.supply.budget ≠ 0 ∧ (k.visits.lookup p.address).getD 0 < maxVisits ∧
    c.apply p.address p.pre k.supply = (.error e, t)

/-- How far a loop is from its end: each turn uses up a part of the budget, or else shortens the queue. -/
def Loop.rest (k : Loop) : Nat × Nat := (k.supply.budget, k.queue.length)

theorem Turn.rest_lt (hc : ∀ a pre, Frugal (c.apply a pre)) {k k' : Loop} (h : Turn maxVisits c k k') :
    Prod.Lex (· < ·) (· < ·) k'.rest k.rest := by
  cases h with
  | nodes => exact .right _ (Nat.lt_succ_self _)
  | visits => exact .right _ (Nat.lt_succ_self _)
  | @record p q g v s t step hBudget _ hApply =>
      have hSpent := (hc p.address p.pre s).2
      rw [hApply] at hSpent
      dsimp only at hSpent
      exact .left _ _ (show t.budget - 1 < s.budget by omega)

/-- No sequence of turns goes on forever. -/
theorem wellFounded_turn (maxVisits : Nat) (hc : ∀ a pre, Frugal (c.apply a pre)) :
    WellFounded fun k' k => Turn maxVisits c k k' :=
  Subrelation.wf (fun h => Turn.rest_lt hc h)
    (InvImage.wf Loop.rest (Prod.lex ⟨_, Nat.lt_wfRel.wf⟩ ⟨_, Nat.lt_wfRel.wf⟩).wf)

end Exploration

namespace Machine

open Exploration Relation

variable {m : Machine}

/-- The turns from the beginning of a loop keep to what an exploration visits. -/
theorem preserves_turns (maxVisits : Nat) (c : Semantics.Context) (k : Loop) :
    Preserves maxVisits c (fun q g v s => ReflTransGen (Turn maxVisits c) k ⟨q, g, v, s⟩)
      fun e t => ∃ k', ReflTransGen (Turn maxVisits c) k k' ∧ k'.Fails maxVisits c e t where
  nodes p q g v s h hBudget := h.tail (.nodes hBudget)
  visits p q g v s h hBudget hMost := h.tail (.visits hBudget hMost)
  record p q g v s h hBudget hMost := by
    unfold Run.Ends
    rcases hApply : c.apply p.address p.pre s with ⟨e | step, t⟩
    · exact ⟨_, h, p, q, rfl, hBudget, hMost, hApply⟩
    · exact h.tail (.record hBudget hMost hApply)

/-- An exploration ends where its loop does: with the graph when nothing is left in the queue, or with the error of
a step. A method without instructions is not explored. -/
theorem explore_turns {call : Method → List Value → Run (Option Effect)}
    (hCall : ∀ callee values, Frugal (call callee values)) (method : Method) (entry : State) (s : Supply) :
    Run.Ends (m.explore call method entry) s
      (fun g t => (method.code = [] ∧ g = .start method entry ∧ t = s) ∨
        ∃ v, ReflTransGen (Turn m.limits.maxVisits ⟨m.classes, method, call⟩) (.first method entry s)
          ⟨[], g, v, t⟩)
      (fun e t => ∃ k, ReflTransGen (Turn m.limits.maxVisits ⟨m.classes, method, call⟩)
        (.first method entry s) k ∧ k.Fails m.limits.maxVisits ⟨m.classes, method, call⟩ e t) :=
  (explore_ends hCall (preserves_turns m.limits.maxVisits ⟨m.classes, method, call⟩ (.first method entry s))
    fun _ => .refl).imp (fun _ _ h => h.imp_right fun h => h.2) fun _ _ he => he

end Machine

end Dalvik
