import Dalvik.Proofs.Recording

/-!
How the limits of an exploration bound its graph. Every node uses up a part of the budget, and a step that
runs no body of a local method uses up nothing else.
-/

namespace Dalvik

namespace Run

variable {α β : Type}

/-- A computation that leaves the budget alone. -/
def Thrifty (r : Run α) : Prop := ∀ s, (r s).2.budget = s.budget

theorem thrifty_pure (v : α) : Thrifty (pure v : Run α) := fun _ => rfl

theorem thrifty_ofExcept (r : Except Error α) : Thrifty (ofExcept r) := fun _ => rfl

theorem thrifty_onHeap (f : Heap → α × Heap) : Thrifty (onHeap f) := fun _ => rfl

theorem thrifty_onHeap? (f : Heap → Except Error (α × Heap)) : Thrifty (onHeap? f) := by
  intro s
  unfold onHeap?
  cases f s.heap <;> rfl

theorem Thrifty.bind {r : Run α} {f : α → Run β} (hr : Thrifty r) (hf : ∀ v, Thrifty (f v)) :
    Thrifty (r >>= f) := by
  intro s
  rw [stateful_bind_apply]
  have hFirst := hr s
  cases hRun : r s with
  | mk result t =>
      rw [hRun] at hFirst
      cases result with
      | error e => exact hFirst
      | ok v => exact (hf v t).trans hFirst

end Run

namespace Semantics

open Run (Thrifty)

theorem newArray_thrifty (pre post : State) (dst size : Register) (type : Descriptor) :
    Thrifty (newArray pre post dst size type) := by
  apply (Run.thrifty_ofExcept _).bind
  intro n
  split
  · exact (Run.thrifty_onHeap _).bind fun _ => Run.thrifty_ofExcept _
  · split
    · exact Run.thrifty_pure _
    · exact (Run.thrifty_onHeap _).bind fun _ => Run.thrifty_ofExcept _

theorem fillArray_thrifty (pre post : State) (array : Register) (data : List Literal) :
    Thrifty (fillArray pre post array data) := by
  apply (Run.thrifty_ofExcept _).bind
  intro v
  split
  · exact Run.thrifty_pure _
  · split
    · exact Run.thrifty_pure _
    · split
      · exact (Run.thrifty_onHeap _).bind fun _ => Run.thrifty_pure _
      · exact Run.thrifty_pure _
  · exact Run.thrifty_pure _
  · exact Run.thrifty_pure _

namespace Context

variable {c : Context} {i : Instruction Address}

theorem conclude_thrifty (post : State) (m : MethodReference) (args : List Register) (effect : Option Effect) :
    Thrifty (conclude post m args effect) := by
  unfold conclude
  cases effect with
  | none => exact (Run.thrifty_ofExcept _).bind fun _ => Run.thrifty_pure _
  | some e =>
      dsimp only
      split
      · exact (Run.thrifty_ofExcept _).bind fun _ => Run.thrifty_pure _
      · exact Run.thrifty_ofExcept _

theorem invokePresent_thrifty {kind : InvokeKind} {m : MethodReference} {args : List Register}
    (hCalls : c.RunsNoBody (.invoke kind m args)) (values : List Value) (post : State) :
    Thrifty (c.invokePresent kind m args values post) := by
  unfold invokePresent
  split
  · apply (Run.thrifty_onHeap? _).bind
    intro e
    split
    · exact (Run.thrifty_ofExcept _).bind fun _ => Run.thrifty_pure _
    · exact Run.thrifty_ofExcept _
  · rename_i hNone
    rw [invokeOther_eq, hCalls kind m args rfl hNone]
    exact (Run.thrifty_pure none).bind (conclude_thrifty _ m args)

theorem execute_thrifty (hCalls : c.RunsNoBody i) (a : Address) (pre post : State) :
    Thrifty (c.execute a i pre post) := by
  cases i with
  | const dst l => exact (Run.thrifty_onHeap _).bind fun _ => Run.thrifty_ofExcept _
  | newArray dst size d => exact newArray_thrifty pre post dst size d
  | fillArray array data => exact fillArray_thrifty pre post array data
  | invoke kind m args =>
      apply (Run.thrifty_ofExcept _).bind
      intro values
      split
      · exact Run.thrifty_pure _
      · exact invokePresent_thrifty hCalls values post
  | nop | returnVoid | goto _ => exact Run.thrifty_pure _
  | _ => exact Run.thrifty_ofExcept _

theorem apply_thrifty {a : Address} (hi : c.method.code.at? a = some i) (hCalls : c.RunsNoBody i)
    (pre : State) : Thrifty (c.apply a pre) := by
  unfold apply
  rw [hi]
  apply (execute_thrifty hCalls a pre _).bind
  intro o
  exact (Run.thrifty_ofExcept _).bind fun _ => Run.thrifty_pure _

end Context

end Semantics

namespace Exploration

variable {maxVisits : Nat} {c : Semantics.Context}

theorem lookup_countVisit (a b : Address) (v : List (Address × Nat)) :
    ((countVisit a v).lookup b).getD 0 =
      if b = a then (v.lookup b).getD 0 + 1 else (v.lookup b).getD 0 :=
  Lookup.lookup_updated (· + 1) (countVisit a) rfl (fun _ _ => rfl) b v

/-- What the limits leave: nodes only from the budget, and visits that are counted by the piles. -/
structure Within (maxVisits budget : Nat) (g : Graph) (v : List (Address × Nat)) (s : Supply) : Prop where
  nodes : g.nodes.size + s.budget ≤ budget
  visits : ∀ a, (v.lookup a).getD 0 = (g.pile a).length
  most : ∀ a, (g.pile a).length ≤ maxVisits

theorem Within.cut {budget : Nat} {g : Graph} {v : List (Address × Nat)} {s : Supply}
    (h : Within maxVisits budget g v s) (ceiling : Ceiling) (parent : Option NodeId) :
    Within maxVisits budget (g.cut ceiling parent) v s := by
  have hPile : (g.cut ceiling parent).pile = g.pile := by
    funext a
    rw [Graph.cut_eq]
    rfl
  refine ⟨?_, ?_, ?_⟩
  · rw [Graph.size_cut]
    exact h.nodes
  · rw [hPile]
    exact h.visits
  · rw [hPile]
    exact h.most

theorem preserves_within (hc : ∀ a pre, Run.Frugal (c.apply a pre)) (budget : Nat) :
    Preserves maxVisits c (fun _ g v s => Within maxVisits budget g v s) fun _ _ => True where
  nodes p q g v s h _ := h.cut _ _
  visits p q g v s h _ _ := h.cut _ _
  record p q g v s h hBudget hMost := by
    have hSpent := (hc p.address p.pre s).2
    unfold Run.Ends
    cases hRun : c.apply p.address p.pre s with
    | mk result t =>
        rw [hRun] at hSpent
        cases result with
        | error e => trivial
        | ok step =>
            have hSome := h.nodes
            have hLess : t.budget ≤ s.budget := hSpent
            refine ⟨?_, fun a => ?_, fun a => ?_⟩
            · rw [Graph.size_add]
              dsimp only
              omega
            · rw [lookup_countVisit, Graph.pile_add, h.visits]
              split <;> simp
            · rw [Graph.pile_add]
              split
              · rename_i hHere
                rw [List.length_append, List.length_singleton, hHere, ← h.visits]
                exact hMost
              · exact h.most a

end Exploration

namespace Machine

open Exploration

/-- The graph of an exploration has no more nodes than the budget had, and no more executions of an
instruction than may be visited. -/
theorem explore_within {m : Machine} {call : Method → List Value → Run (Option Effect)}
    (hCall : ∀ callee values, Run.Frugal (call callee values)) {method : Method} {entry : State}
    {s t : Supply} {g : Graph} (h : m.explore call method entry s = (.ok g, t)) :
    g.nodes.size ≤ s.budget ∧ ∀ a, (g.pile a).length ≤ m.limits.maxVisits := by
  have hEmpty : (Graph.start method entry).nodes.size = 0 ∧
      ∀ a, ((Graph.start method entry).pile a).length = 0 := ⟨rfl, fun _ => rfl⟩
  have hEnds : Run.Ends (m.explore call method entry) s
      (fun g _ => g.nodes.size ≤ s.budget ∧ ∀ a, (g.pile a).length ≤ m.limits.maxVisits)
      fun _ _ => True := by
    unfold explore
    split
    · exact ⟨hEmpty.1 ▸ Nat.zero_le _, fun a => hEmpty.2 a ▸ Nat.zero_le _⟩
    · rw [Run.ends_bind, Run.ends_budget, Run.ends_bind]
      have hc (a : Address) (pre : State) :
          Run.Frugal ((⟨m.classes, method, call⟩ : Semantics.Context).apply a pre) :=
        Semantics.Context.apply_frugal (fun _ _ _ _ _ _ _ _ callee _ values => hCall callee values) a pre
      have hStart : Within m.limits.maxVisits s.budget (.start method entry) [] s :=
        ⟨by rw [hEmpty.1, Nat.zero_add], fun a => (hEmpty.2 a).symm, fun a => hEmpty.2 a ▸ Nat.zero_le _⟩
      refine (rounds_ends (e := ⟨.start method entry, [], [⟨none, 0, entry⟩]⟩)
        (preserves_within hc s.budget) hStart).imp (fun e t hWithin => ?_) fun _ _ _ => trivial
      have hNodes := hWithin.nodes
      exact ⟨by omega, hWithin.most⟩
  unfold Run.Ends at hEnds
  rwa [h] at hEnds

end Machine

end Dalvik
