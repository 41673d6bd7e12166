import Dalvik.Proofs.Consistency
import Dalvik.Proofs.Frugal
import Mathlib.Logic.Relation

/-!
What the graph of an exploration records. Every node is one step, performed on the supply that the step
before it has left; what a step leads to is either recorded below its node or cut off with a mark.
-/

namespace Dalvik

open Run (Frugal)

namespace Exploration

variable {maxVisits : Nat} {c : Semantics.Context}

/-- A visit finds something only if it uses up a part of the budget. -/
theorem visit_spends (hc : ∀ a pre, Frugal (c.apply a pre)) (e : Exploration) (p : Pending)
    (s : Supply) :
    Run.Ends (visit maxVisits c e p) s
      (fun e' t => t.budget < s.budget ∨ t.budget = s.budget ∧ e'.found = e.found)
      fun _ _ => True := by
  unfold visit
  rw [Run.ends_bind, Run.ends_budget]
  split
  · exact .inr ⟨rfl, rfl⟩
  · rename_i hBudget
    split
    · exact .inr ⟨rfl, rfl⟩
    · rw [Run.ends_bind]
      have hLess := (hc p.address p.pre s).2
      unfold Run.Ends
      cases hRun : c.apply p.address p.pre s with
      | mk result t =>
          rw [hRun] at hLess
          cases result with
          | error _ => trivial
          | ok step =>
              refine .inl ?_
              change t.budget - 1 < s.budget
              dsimp only at hLess
              omega

theorem foldlM_visit_spends (maxVisits : Nat) (hc : ∀ a pre, Frugal (c.apply a pre)) (rest : List Pending)
    (e : Exploration) (s : Supply) :
    Run.Ends (rest.foldlM (visit maxVisits c) e) s
      (fun e' t => t.budget < s.budget ∨ t.budget = s.budget ∧ e'.found = e.found)
      fun _ _ => True := by
  induction rest generalizing e s with
  | nil => exact .inr ⟨rfl, rfl⟩
  | cons p rest ih =>
      rw [List.foldlM_cons, Run.ends_bind]
      refine (visit_spends hc e p s).imp (fun e' t hFirst => ?_) fun _ _ _ => trivial
      refine (ih e' t).imp (fun e'' u hRest => ?_) fun _ _ _ => trivial
      rcases hFirst with hLess | ⟨hSame, hFound⟩
      · rcases hRest with hLess' | ⟨hSame', _⟩ <;> exact .inl (by omega)
      · rcases hRest with hLess' | ⟨hSame', hFound'⟩
        · exact .inl (by omega)
        · exact .inr ⟨by omega, hFound'.trans hFound⟩

/-- One round more than the budget is enough to explore all that is found. -/
theorem rounds_exhaust (hc : ∀ a pre, Frugal (c.apply a pre)) {n : Nat} {e : Exploration} {s : Supply}
    (hRounds : s.budget < n ∨ e.found = []) :
    Run.Ends (rounds maxVisits c n e) s (fun e' _ => e'.found = []) fun _ _ => True := by
  induction n generalizing e s with
  | zero => exact hRounds.resolve_left (Nat.not_lt_zero _)
  | succ n ih =>
      unfold rounds
      split
      · rename_i hEmpty
        exact List.isEmpty_iff.mp hEmpty
      · rename_i hFound
        have hBudget := hRounds.resolve_right fun hNone => hFound (by rw [hNone]; rfl)
        rw [Run.ends_bind]
        refine (foldlM_visit_spends maxVisits hc _ _ s).imp (fun e' t hRound => ?_) fun _ _ _ => trivial
        refine ih ?_
        rcases hRound with hLess | ⟨_, hNone⟩
        · exact .inl (by omega)
        · exact .inr hNone

theorem visit_frugal (hc : ∀ a pre, Frugal (c.apply a pre)) (e : Exploration) (p : Pending) :
    Frugal (visit maxVisits c e p) := by
  refine Run.frugal_budget.bind fun budget => ?_
  split
  · exact Run.frugal_pure _
  · split
    · exact Run.frugal_pure _
    · exact (hc p.address p.pre).bind fun step => Run.frugal_charge.bind fun _ => Run.frugal_pure _

theorem foldlM_visit_frugal (hc : ∀ a pre, Frugal (c.apply a pre)) (rest : List Pending)
    (e : Exploration) : Frugal (rest.foldlM (visit maxVisits c) e) := by
  induction rest generalizing e with
  | nil => exact Run.frugal_pure _
  | cons p rest ih =>
      rw [List.foldlM_cons]
      exact (visit_frugal hc e p).bind ih

theorem rounds_frugal (hc : ∀ a pre, Frugal (c.apply a pre)) (n : Nat) (e : Exploration) :
    Frugal (rounds maxVisits c n e) := by
  induction n generalizing e with
  | zero => exact Run.frugal_pure _
  | succ n ih =>
      unfold rounds
      split
      · exact Run.frugal_pure _
      · exact (foldlM_visit_frugal hc _ _).bind ih

end Exploration

namespace Machine

variable {m : Machine}

theorem explore_frugal {call : Method → List Value → Run (Option Effect)}
    (hCall : ∀ callee values, Frugal (call callee values)) (method : Method) (entry : State) :
    Frugal (m.explore call method entry) := by
  unfold explore
  split
  · exact Run.frugal_pure _
  · refine Run.frugal_budget.bind fun budget => ?_
    refine Frugal.bind ?_ fun e => Run.frugal_pure _
    refine Exploration.rounds_frugal (fun a pre => ?_) _ _
    exact Semantics.Context.apply_frugal
      (fun _ _ _ _ _ _ _ _ callee _ values => hCall callee values) a pre

theorem callWith_frugal {run : Method → State → Run Graph} (hRun : ∀ callee entry, Frugal (run callee entry))
    (callee : Method) (values : List Value) : Frugal (callWith run callee values) := by
  refine Run.frugal_budget.bind fun budget => ?_
  split
  · exact Run.frugal_pure _
  · split
    · exact Run.frugal_pure _
    · rename_i entry _
      refine (hRun callee entry).attempt.bind fun result => ?_
      split
      · exact Run.frugal_pure _
      · exact Run.frugal_throw _
      · exact Run.frugal_pure _

theorem run_frugal (depth : Nat) (method : Method) (entry : State) :
    Frugal (m.run depth method entry) := by
  induction depth generalizing method entry with
  | zero => exact explore_frugal (fun _ _ => Run.frugal_pure _) method entry
  | succ depth ih => exact explore_frugal (callWith_frugal ih) method entry

theorem callAt_frugal (depth : Nat) (callee : Method) (values : List Value) :
    Frugal (m.callAt depth callee values) := by
  unfold callAt
  cases m.limits.maxDepth - depth with
  | zero => exact Run.frugal_pure _
  | succ below => exact callWith_frugal (run_frugal below) callee values

/-- Whatever a method of a machine does, the heap only grows and the budget only shrinks. -/
theorem context_frugal (method : Method) (depth : Nat) (a : Address) (pre : State) :
    Frugal ((m.context method depth).apply a pre) :=
  Semantics.Context.apply_frugal (fun _ _ _ _ _ _ _ _ callee _ values => callAt_frugal depth callee values)
    a pre

end Machine

/-- A step as it was performed, with the supply before it and the one after it. -/
structure Performance where
  before : Supply
  step : Step
  after : Supply

/-- Steps performed one after another. Each starts with what the one before it has left, less the node
that it used up. -/
def Successive (s : Supply) : List Performance → Supply → Prop
  | [], t => t = s
  | p :: ps, t => p.before = s ∧ Successive { p.after with budget := p.after.budget - 1 } ps t

theorem Successive.snoc {s : Supply} {ps : List Performance} {p : Performance}
    (h : Successive s ps p.before) :
    Successive s (ps ++ [p]) { p.after with budget := p.after.budget - 1 } := by
  induction ps generalizing s with
  | nil => exact ⟨h, rfl⟩
  | cons r ps ih => exact ⟨h.1, ih h.2⟩

namespace Graph

variable {g : Graph}

/-- The executions with some names: where they take place, and in which states. -/
def places (g : Graph) (ids : List NodeId) : List (Address × State) :=
  ids.filterMap fun id => (g.node? id).map fun n => (n.address, n.pre)

theorem places_append (g : Graph) (ids ids' : List NodeId) :
    g.places (ids ++ ids') = g.places ids ++ g.places ids' := List.filterMap_append

theorem places_cut (ceiling : Ceiling) (parent : Option NodeId) (ids : List NodeId) :
    (g.cut ceiling parent).places ids = g.places ids := by
  apply List.filterMap_congr
  intro id _
  rw [node?_cut]
  split <;> simp [Function.comp_def]

theorem places_add {ids : List NodeId} (hIds : ∀ id ∈ ids, id < g.nodes.size) (a : Address)
    (pre post : State) (parent : Option NodeId) :
    (g.add a pre post parent).places ids = g.places ids := by
  apply List.filterMap_congr
  intro id hid
  rw [node?_add, if_neg (Nat.ne_of_lt (hIds id hid))]
  split <;> simp [Function.comp_def]

theorem places_add_self (a : Address) (pre post : State) (parent : Option NodeId) :
    (g.add a pre post parent).places [g.nodes.size] = [(a, pre)] := by
  simp [places, node?_add]

/-- The nodes follow one that has the address zero and the state that the execution was entered with;
each other node follows exactly one, which was made before it. -/
structure Rooted (g : Graph) (entry : State) : Prop where
  root : g.root = some 0
  first : ∃ n, g.node? 0 = some n ∧ n.address = 0 ∧ n.pre = entry ∧ n.parents = []
  later : ∀ id n, g.node? id = some n → id ≠ 0 → ∃ p < id, n.parents = [p]

theorem Rooted.cut {entry : State} (h : g.Rooted entry) (ceiling : Ceiling) (parent : Option NodeId) :
    (g.cut ceiling parent).Rooted entry where
  root := by
    rw [cut_eq]
    exact h.root
  first := by
    obtain ⟨n, hn, hAddress, hPre, hParents⟩ := h.first
    rw [node?_cut]
    split
    · exact ⟨{ n with truncated := true }, by rw [hn]; rfl, hAddress, hPre, hParents⟩
    · exact ⟨n, hn, hAddress, hPre, hParents⟩
  later id n hn hid := by
    rw [node?_cut] at hn
    split at hn
    · obtain ⟨old, hOld, rfl⟩ := Option.map_eq_some_iff.mp hn
      exact h.later id old hOld hid
    · exact h.later id n hn hid

theorem Rooted.add {entry : State} (h : g.Rooted entry) {parent : NodeId}
    (hParent : parent < g.nodes.size) (a : Address) (pre post : State) :
    (g.add a pre post (some parent)).Rooted entry where
  root := by
    rw [add_eq]
    exact h.root
  first := by
    obtain ⟨n, hn, hAddress, hPre, hParents⟩ := h.first
    rw [node?_add, if_neg (Nat.ne_of_lt (Nat.zero_lt_of_lt hParent))]
    split
    · exact ⟨{ n with children := n.children ++ [g.nodes.size] }, by rw [hn]; rfl, hAddress, hPre,
        hParents⟩
    · exact ⟨n, hn, hAddress, hPre, hParents⟩
  later id n hn hid := by
    rw [node?_add] at hn
    split at hn
    · rename_i hNew
      obtain rfl := Option.some.inj hn
      exact ⟨parent, hNew ▸ hParent, rfl⟩
    · split at hn
      · obtain ⟨old, hOld, rfl⟩ := Option.map_eq_some_iff.mp hn
        exact h.later id old hOld hid
      · exact h.later id n hn hid

theorem Rooted.start (hEmpty : g.nodes.size = 0) (entry post : State) :
    (g.add 0 entry post none).Rooted entry where
  root := by
    rw [add_eq, hEmpty]
    rfl
  first := ⟨_, by rw [node?_add, if_pos hEmpty.symm], rfl, rfl, rfl⟩
  later id n hn hid := by
    rw [node?_add, hEmpty, if_neg hid, if_neg (by simp), node?_of_size_le (by omega)] at hn
    cases hn

end Graph

/-- What a node records of the step that was performed for it. Its children are executions that the step
leads to, in order, and all of them unless it is marked. -/
structure Node.Records (g : Graph) (c : Semantics.Context) (n : Node) (p : Performance) : Prop where
  applied : c.apply n.address n.pre p.before = (.ok p.step, p.after)
  post : n.post = p.step.post
  children : (g.places n.children).Sublist p.step.successors
  complete : n.truncated = false ↔ g.places n.children = p.step.successors

/-- What a node records of the step that was performed for it while some of what that leads to waits to
be explored. -/
structure Node.Accounts (g : Graph) (c : Semantics.Context) (n : Node) (p : Performance)
    (waiting : List (Address × State)) : Prop where
  applied : c.apply n.address n.pre p.before = (.ok p.step, p.after)
  post : n.post = p.step.post
  done : ∃ done, p.step.successors = done ++ waiting ∧ (g.places n.children).Sublist done ∧
    (n.truncated = true ↔ (g.places n.children).length < done.length)

theorem Node.Accounts.records {g : Graph} {c : Semantics.Context} {n : Node} {p : Performance}
    (h : n.Accounts g c p []) : n.Records g c p := by
  obtain ⟨done, hDone, hChildren, hMark⟩ := h.done
  rw [List.append_nil] at hDone
  subst hDone
  refine ⟨h.applied, h.post, hChildren, ?_⟩
  rw [← Bool.not_eq_true, hMark]
  constructor
  · intro hAll
    exact hChildren.eq_of_length_le (Nat.le_of_not_lt hAll)
  · intro hAll
    rw [hAll]
    exact Nat.lt_irrefl _

namespace Exploration

/-- What waits in a queue to be recorded below a node. -/
def waiting (id : NodeId) (q : List Pending) : List (Address × State) :=
  (q.filter fun p => p.parent = some id).map fun p => (p.address, p.pre)

variable {id k : NodeId} {p : Pending} {q : List Pending} {step : Step}

theorem waiting_cons_self (h : p.parent = some id) :
    waiting id (p :: q) = (p.address, p.pre) :: waiting id q := by
  simp [waiting, h]

theorem waiting_cons_of_ne (h : p.parent ≠ some id) : waiting id (p :: q) = waiting id q := by
  simp [waiting, h]

theorem waiting_next_self (h : ∀ p ∈ q, p.parent ≠ some id) :
    waiting id (q ++ nextOf id step) = step.successors := by
  have hOld : q.filter (fun p => p.parent = some id) = [] := by
    rw [List.filter_eq_nil_iff]
    simpa using h
  have hNew : (nextOf id step).filter (fun p => p.parent = some id) = nextOf id step := by
    rw [List.filter_eq_self]
    intro p hp
    obtain ⟨_, _, rfl⟩ := List.mem_map.mp hp
    simp
  unfold waiting
  rw [List.filter_append, hOld, hNew, List.nil_append, nextOf, List.map_map]
  exact List.map_id _

theorem waiting_next_of_ne (h : id ≠ k) : waiting id (q ++ nextOf k step) = waiting id q := by
  have hNew : (nextOf k step).filter (fun p => p.parent = some id) = [] := by
    rw [List.filter_eq_nil_iff]
    intro p hp
    obtain ⟨_, _, rfl⟩ := List.mem_map.mp hp
    simpa using Ne.symm h
  unfold waiting
  rw [List.filter_append, hNew, List.append_nil]

variable {g : Graph} {maxVisits : Nat} {c : Semantics.Context} {entry : State} {s₀ s : Supply}
  {log : List Performance} {r : Performance}

/-- What every node records while an exploration is under way, and what names there are. -/
structure Logged (c : Semantics.Context) (s₀ : Supply) (log : List Performance) (q : List Pending)
    (g : Graph) (s : Supply) : Prop where
  size : log.length = g.nodes.size
  successive : Successive s₀ log s
  accounts : ∀ id n, g.node? id = some n → ∃ r, log[id]? = some r ∧ n.Accounts g c r (waiting id q)
  live : ∀ id < g.nodes.size, g.isLive id = true
  ascending : ∀ id n, g.node? id = some n → n.children.Pairwise (· < ·)

theorem Logged.start (c : Semantics.Context) (entry : State) (s₀ : Supply) (q : List Pending) :
    Logged c s₀ [] q (.start c.method entry) s₀ where
  size := rfl
  successive := rfl
  accounts id n h := by simp [Graph.node?, Graph.start] at h
  live id h := by simp [Graph.start] at h
  ascending id n h := by simp [Graph.node?, Graph.start] at h

/-- A cut takes one execution from what waits below a node, and marks the node. -/
theorem Logged.cut (h : Logged c s₀ log (p :: q) g s) (ceiling : Ceiling) :
    Logged c s₀ log q (g.cut ceiling p.parent) s where
  size := by rw [Graph.size_cut, h.size]
  successive := h.successive
  accounts id n hn := by
    rw [Graph.node?_cut] at hn
    split at hn
    · rename_i hParent
      obtain ⟨old, hOld, rfl⟩ := Option.map_eq_some_iff.mp hn
      obtain ⟨r, hr, hApplied, hPost, done, hDone, hChildren, _⟩ := h.accounts id old hOld
      refine ⟨r, hr, hApplied, hPost, done ++ [(p.address, p.pre)], ?_, ?_, ?_⟩
      · rw [hDone, waiting_cons_self hParent, List.append_assoc, List.singleton_append]
      · rw [Graph.places_cut]
        exact hChildren.trans (List.sublist_append_left _ _)
      · have hLess := hChildren.length_le
        rw [Graph.places_cut, List.length_append, List.length_singleton]
        exact ⟨fun _ => Nat.lt_succ_of_le hLess, fun _ => rfl⟩
    · rename_i hParent
      obtain ⟨r, hr, hApplied, hPost, done, hDone, hChildren, hMark⟩ := h.accounts id n hn
      refine ⟨r, hr, hApplied, hPost, done, ?_, ?_, ?_⟩
      · rw [hDone, waiting_cons_of_ne hParent]
      · rwa [Graph.places_cut]
      · rwa [Graph.places_cut]
  live id hid := by
    rw [Graph.size_cut] at hid
    rw [(Graph.bare_children_cut ceiling p.parent id).2.2.1]
    exact h.live id hid
  ascending id n hn := by
    rw [Graph.node?_cut] at hn
    split at hn
    · obtain ⟨old, hOld, rfl⟩ := Option.map_eq_some_iff.mp hn
      exact h.ascending id old hOld
    · exact h.ascending id n hn

/-- An execution that is recorded is a child of the node it follows, and what it leads to waits in the
end of the queue. -/
theorem Logged.add (h : Logged c s₀ log (p :: q) g s)
    (hParents : ∀ r ∈ p :: q, ∀ id, r.parent = some id → id < g.nodes.size)
    (hChildren : ∀ id n, g.node? id = some n → ∀ k ∈ n.children, k < g.nodes.size)
    (hBefore : r.before = s) (hApplied : c.apply p.address p.pre s = (.ok r.step, r.after)) :
    Logged c s₀ (log ++ [r]) (q ++ nextOf g.nodes.size r.step)
      (g.add p.address p.pre r.step.post p.parent) { r.after with budget := r.after.budget - 1 } where
  size := by rw [List.length_append, h.size, Graph.size_add, List.length_singleton]
  successive := Successive.snoc (by rw [hBefore]; exact h.successive)
  accounts id n hn := by
    rw [Graph.node?_add] at hn
    split at hn
    · rename_i hNew
      subst hNew
      obtain rfl := Option.some.inj hn
      refine ⟨r, by rw [← h.size]; simp, ?_, rfl, [], ?_, ?_, ?_⟩
      · rw [hBefore]
        exact hApplied
      · rw [waiting_next_self]
        · rfl
        · intro r hr hParent
          exact Nat.lt_irrefl _ (hParents r (.tail _ hr) _ hParent)
      · exact List.Sublist.refl []
      · simp
    · rename_i hOld
      have hLog {old : Node} (hNode : g.node? id = some old) {r' : Performance}
          (hr' : log[id]? = some r') : (log ++ [r])[id]? = some r' := by
        rw [List.getElem?_append_left]
        · exact hr'
        · rw [h.size]
          exact Graph.lt_size_of_isLive (Graph.isLive_iff.mpr ⟨old, hNode⟩)
      have hWaiting : waiting id (q ++ nextOf g.nodes.size r.step) = waiting id q :=
        waiting_next_of_ne hOld
      split at hn
      · rename_i hParent
        obtain ⟨old, hNode, rfl⟩ := Option.map_eq_some_iff.mp hn
        obtain ⟨r', hr', hApplied', hPost, done, hDone, hBelow, hMark⟩ := h.accounts id old hNode
        have hPlaces : (g.add p.address p.pre r.step.post p.parent).places
            (old.children ++ [g.nodes.size]) = g.places old.children ++ [(p.address, p.pre)] := by
          rw [Graph.places_append, Graph.places_add (hChildren id old hNode), Graph.places_add_self]
        refine ⟨r', hLog hNode hr', hApplied', hPost, done ++ [(p.address, p.pre)], ?_, ?_, ?_⟩
        · rw [hDone, waiting_cons_self hParent, hWaiting, List.append_assoc, List.singleton_append]
        · dsimp only
          rw [hPlaces]
          exact hBelow.append_right _
        · dsimp only
          rw [hPlaces, hMark, List.length_append, List.length_append]
          simp
      · rename_i hParent
        obtain ⟨r', hr', hApplied', hPost, done, hDone, hBelow, hMark⟩ := h.accounts id n hn
        refine ⟨r', hLog hn hr', hApplied', hPost, done, ?_, ?_, ?_⟩
        · rw [hDone, waiting_cons_of_ne hParent, hWaiting]
        · rwa [Graph.places_add (hChildren id n hn)]
        · rwa [Graph.places_add (hChildren id n hn)]
  live id hid := by
    rw [Graph.size_add] at hid
    rw [Graph.isLive_add]
    by_cases hNew : id = g.nodes.size
    · exact .inl hNew
    · exact .inr (h.live id (by omega))
  ascending id n hn := by
    rw [Graph.node?_add] at hn
    split at hn
    · obtain rfl := Option.some.inj hn
      exact .nil
    · split at hn
      · obtain ⟨old, hNode, rfl⟩ := Option.map_eq_some_iff.mp hn
        refine List.pairwise_append.mpr ⟨h.ascending id old hNode, by simp, fun k hk k' hk' => ?_⟩
        obtain rfl := List.mem_singleton.mp hk'
        exact hChildren id old hNode k hk
      · exact h.ascending id n hn

/-- How an exploration stands with its entry: it waits to be executed, it has been cut off, or all nodes
follow it. -/
inductive Begun (maxVisits : Nat) (method : Method) (entry : State) (s₀ : Supply) (q : List Pending)
    (g : Graph) (v : List (Address × Nat)) (s : Supply) : Prop where
  | waits (graph : g = .start method entry) (queue : q = [⟨none, 0, entry⟩]) (visits : v = [])
      (supply : s = s₀)
  | cutOff (nodes : g.nodes.size = 0) (root : g.root = none) (queue : q = [])
      (status : g.status ≠ .completed) (limit : s₀.budget = 0 ∨ maxVisits = 0)
  | follows (rooted : g.Rooted entry) (queue : ∀ p ∈ q, p.parent ≠ none) (budget : s₀.budget ≠ 0)
      (visits : maxVisits ≠ 0)
      (status : g.status = .completed ↔ ∀ id n, g.node? id = some n → n.truncated = false)

variable {method : Method} {v : List (Address × Nat)}

theorem status_cut (g : Graph) (ceiling : Ceiling) (parent : Option NodeId) :
    (g.cut ceiling parent).status ≠ .completed := by
  unfold Graph.cut
  dsimp only
  split
  · exact Status.noConfusion
  · rename_i hStatus
    rw [hStatus]
    exact Status.noConfusion

/-- A cut happens at a limit. -/
theorem Begun.cut (h : Begun maxVisits method entry s₀ (p :: q) g v s)
    (hParents : ∀ id, p.parent = some id → g.isLive id = true) (ceiling : Ceiling)
    (hLimit : s.budget = 0 ∨ maxVisits ≤ (v.lookup p.address).getD 0) :
    Begun maxVisits method entry s₀ q (g.cut ceiling p.parent) v s := by
  cases h with
  | waits hGraph hQueue hVisits hSupply =>
      obtain ⟨rfl, rfl⟩ := List.cons.inj hQueue
      subst hGraph hVisits hSupply
      refine .cutOff (Graph.size_cut _ _) rfl rfl (status_cut _ _ _) (hLimit.imp_right fun hMost => ?_)
      exact Nat.le_zero.mp hMost
  | cutOff _ _ hQueue => cases hQueue
  | follows hRooted hQueue hBudget hMost hStatus =>
      refine .follows (hRooted.cut _ _) (fun r hr => hQueue r (.tail _ hr)) hBudget hMost ?_
      refine iff_of_false (status_cut _ _ _) fun hUnmarked => ?_
      cases hParent : p.parent with
      | none => exact hQueue p (.head _) hParent
      | some id =>
          obtain ⟨n, hn⟩ := Graph.isLive_iff.mp (hParents id hParent)
          have hMarked := hUnmarked id { n with truncated := true } (by
            rw [Graph.node?_cut, if_pos hParent, hn]
            rfl)
          cases hMarked

theorem Begun.add (h : Begun maxVisits method entry s₀ (p :: q) g v s)
    (hParents : ∀ id, p.parent = some id → id < g.nodes.size) (hBudget : s.budget ≠ 0)
    (hMost : (v.lookup p.address).getD 0 < maxVisits) (step : Step) (v' : List (Address × Nat))
    (t : Supply) :
    Begun maxVisits method entry s₀ (q ++ nextOf g.nodes.size step)
      (g.add p.address p.pre step.post p.parent) v' t := by
  have hNext : ∀ r ∈ nextOf g.nodes.size step, r.parent ≠ none := by
    intro r hr
    obtain ⟨_, _, rfl⟩ := List.mem_map.mp hr
    exact Option.some_ne_none _
  cases h with
  | waits hGraph hQueue hVisits hSupply =>
      obtain ⟨rfl, rfl⟩ := List.cons.inj hQueue
      subst hGraph hVisits hSupply
      refine .follows (.start rfl _ _) hNext hBudget (Nat.ne_zero_of_lt hMost) ?_
      refine iff_of_true rfl fun id n hn => ?_
      rw [Graph.node?_add] at hn
      split at hn
      · obtain rfl := Option.some.inj hn
        rfl
      · rw [if_neg (by simp)] at hn
        simp [Graph.node?, Graph.start] at hn
  | cutOff _ _ hQueue => cases hQueue
  | follows hRooted hQueue hBudget₀ hMost₀ hStatus =>
      cases hParent : p.parent with
      | none => exact absurd hParent (hQueue p (.head _))
      | some k =>
          refine .follows (hRooted.add (hParents k hParent) _ _ _) (fun r hr => ?_) hBudget₀ hMost₀ ?_
          · rcases List.mem_append.mp hr with hOld | hNew
            · exact hQueue r (.tail _ hOld)
            · exact hNext r hNew
          · have hSame : (g.add p.address p.pre step.post (some k)).status = g.status := by
              rw [Graph.add_eq]
            rw [hSame, hStatus]
            constructor
            · intro hUnmarked id n hn
              rw [Graph.node?_add] at hn
              split at hn
              · obtain rfl := Option.some.inj hn
                rfl
              · split at hn
                · obtain ⟨old, hOld, rfl⟩ := Option.map_eq_some_iff.mp hn
                  exact hUnmarked id old hOld
                · exact hUnmarked id n hn
            · intro hUnmarked id n hn
              have hOld : id ≠ g.nodes.size :=
                Nat.ne_of_lt (Graph.lt_size_of_isLive (Graph.isLive_iff.mpr ⟨n, hn⟩))
              have hNow := Graph.node?_add (g := g) p.address p.pre step.post (some k) id
              rw [if_neg hOld, hn] at hNow
              split at hNow
              · exact hUnmarked id { n with children := n.children ++ [g.nodes.size] } hNow
              · exact hUnmarked id n hNow

/-- What an exploration keeps, with the steps that it has performed so far. Every step has found something left of the
budget. -/
structure Underway (maxVisits : Nat) (c : Semantics.Context) (entry : State) (s₀ : Supply)
    (log : List Performance) (q : List Pending) (g : Graph) (v : List (Address × Nat)) (s : Supply) : Prop where
  structured : Machine.Structured c.method entry q g
  logged : Logged c s₀ log q g s
  begun : Begun maxVisits c.method entry s₀ q g v s
  found : ∀ r ∈ log, r.before.budget ≠ 0

theorem Underway.cut (h : Underway maxVisits c entry s₀ log (p :: q) g v s) (ceiling : Ceiling)
    (hLimit : s.budget = 0 ∨ maxVisits ≤ (v.lookup p.address).getD 0) :
    Underway maxVisits c entry s₀ log q (g.cut ceiling p.parent) v s where
  structured := h.structured.cut ceiling
  logged := h.logged.cut ceiling
  begun := h.begun.cut (fun id hid => h.structured.parents p (.head _) id hid) ceiling hLimit
  found := h.found

theorem preserves_underway (maxVisits : Nat) (c : Semantics.Context) (entry : State) (s₀ : Supply) :
    Preserves maxVisits c (fun q g v s => ∃ log, Underway maxVisits c entry s₀ log q g v s)
      fun _ _ => True where
  nodes p q g v s h hBudget := by
    obtain ⟨log, hUnderway⟩ := h
    exact ⟨log, hUnderway.cut _ (.inl hBudget)⟩
  visits p q g v s h _ hMost := by
    obtain ⟨log, hUnderway⟩ := h
    exact ⟨log, hUnderway.cut _ (.inr hMost)⟩
  record p q g v s h hBudget hMost := by
    obtain ⟨log, hUnderway⟩ := h
    have hStructured := (Machine.preserves_structured maxVisits c entry).record p q g v s
      hUnderway.structured hBudget hMost
    have hParents : ∀ r ∈ p :: q, ∀ id, r.parent = some id → id < g.nodes.size :=
      fun r hr id hid => Graph.lt_size_of_isLive (hUnderway.structured.parents r hr id hid)
    have hChildren : ∀ id n, g.node? id = some n → ∀ k ∈ n.children, k < g.nodes.size := by
      intro id n hn k hk
      have hChild : k ∈ g.childrenOf id := by simpa [Graph.childrenOf, hn] using hk
      exact Graph.lt_size_of_isLive (hUnderway.structured.linked.live_of_child hChild).2
    refine hStructured.noting.imp (fun step t hBoth => ?_) fun _ _ _ => trivial
    obtain ⟨hRun, hNow⟩ := hBoth
    refine ⟨log ++ [⟨s, step, t⟩], hNow, ?_, ?_, fun r hr => ?_⟩
    · exact hUnderway.logged.add hParents hChildren rfl hRun
    · exact hUnderway.begun.add (fun id hid => hParents p (.head _) id hid) hBudget hMost step _ _
    · rcases List.mem_append.mp hr with hOld | hNew
      · exact hUnderway.found r hOld
      · obtain rfl := List.mem_singleton.mp hNew
        exact hBudget

end Exploration

/-- What the graph of an exploration from a supply records, with the steps that were performed and the
supply that they left. -/
structure Graph.Recording (g : Graph) (c : Semantics.Context) (maxVisits : Nat) (entry : State)
    (s : Supply) (log : List Performance) (t : Supply) : Prop where
  sameMethod : g.method = c.method
  sameEntry : g.entry = entry
  entered : (g.nodes.size = 0 ∧ g.root = none ∧ (c.method.code = [] ∨ s.budget = 0 ∨ maxVisits = 0)) ∨
    (g.Rooted entry ∧ c.method.code ≠ [] ∧ s.budget ≠ 0 ∧ maxVisits ≠ 0)
  linked : g.Linked
  piled : g.Piled c.method.code
  live : ∀ id < g.nodes.size, g.isLive id = true
  ascending : ∀ id n, g.node? id = some n → n.children.Pairwise (· < ·)
  length : log.length = g.nodes.size
  successive : Successive s log t
  records : ∀ id n, g.node? id = some n → ∃ r, log[id]? = some r ∧ n.Records g c r
  completed : g.status = .completed ↔ (c.method.code = [] ∨ g.nodes.size ≠ 0) ∧
    ∀ id n r, g.node? id = some n → log[id]? = some r → g.places n.children = r.step.successors
  unmarked : g.status = .completed → ∀ id n, g.node? id = some n → n.truncated = false

namespace Graph.Recording

variable {g : Graph} {c : Semantics.Context} {maxVisits : Nat} {entry : State} {s t : Supply}
  {log : List Performance}

theorem of_empty (hEmpty : c.method.code = []) (maxVisits : Nat) (entry : State) (s : Supply) :
    Recording (.start c.method entry) c maxVisits entry s [] s where
  sameMethod := rfl
  sameEntry := rfl
  entered := .inl ⟨rfl, rfl, .inl hEmpty⟩
  linked := (Machine.structured_start c.method entry [] (by simp)).linked
  piled := (Machine.structured_start c.method entry [] (by simp)).piled
  live id h := absurd h (Nat.not_lt_zero id)
  ascending id n h := by simp [node?, start] at h
  length := rfl
  successive := rfl
  records id n h := by simp [node?, start] at h
  completed := iff_of_true rfl ⟨.inl hEmpty, fun id n r h => by simp [node?, start] at h⟩
  unmarked _ id n h := by simp [node?, start] at h

/-- An exploration is done when nothing is left in the queue. -/
theorem of_logged {v : List (Address × Nat)} (hCode : c.method.code ≠ [])
    (hStructured : Machine.Structured c.method entry [] g) (hLog : Exploration.Logged c s log [] g t)
    (hBegun : Exploration.Begun maxVisits c.method entry s [] g v t) :
    g.Recording c maxVisits entry s log t := by
  obtain ⟨hMethod, hEntry, hLinked, hPiled, _⟩ := hStructured
  have hRecords : ∀ id n, g.node? id = some n → ∃ r, log[id]? = some r ∧ n.Records g c r := by
    intro id n hn
    obtain ⟨r, hr, hAccounts⟩ := hLog.accounts id n hn
    exact ⟨r, hr, hAccounts.records⟩
  have hUnmarked : (∀ id n, g.node? id = some n → n.truncated = false) ↔
      ∀ id n r, g.node? id = some n → log[id]? = some r →
        g.places n.children = r.step.successors := by
    constructor
    · intro hAll id n r hn hr
      obtain ⟨r', hr', hRecorded⟩ := hRecords id n hn
      obtain rfl := Option.some.inj (hr'.symm.trans hr)
      exact hRecorded.complete.mp (hAll id n hn)
    · intro hAll id n hn
      obtain ⟨r, hr, hRecorded⟩ := hRecords id n hn
      exact hRecorded.complete.mpr (hAll id n r hn hr)
  refine ⟨hMethod, hEntry, ?_, hLinked, hPiled, hLog.live, hLog.ascending, hLog.size,
    hLog.successive, hRecords, ?_, ?_⟩
  · cases hBegun with
    | waits _ hQueue => cases hQueue
    | cutOff hNodes hRoot _ _ hLimit => exact .inl ⟨hNodes, hRoot, .inr hLimit⟩
    | follows hRooted _ hBudget hMost => exact .inr ⟨hRooted, hCode, hBudget, hMost⟩
  · cases hBegun with
    | waits _ hQueue => cases hQueue
    | cutOff hNodes _ _ hStatus =>
        exact iff_of_false hStatus fun hAll => hAll.1.elim hCode fun hSome => hSome hNodes
    | follows hRooted _ _ _ hStatus =>
        have hSome : g.nodes.size ≠ 0 := by
          obtain ⟨n, hn, _⟩ := hRooted.first
          exact Nat.ne_zero_of_lt (lt_size_of_isLive (isLive_iff.mpr ⟨n, hn⟩))
        rw [hStatus, hUnmarked]
        exact ⟨fun hAll => ⟨.inr hSome, hAll⟩, fun hAll => hAll.2⟩
  · cases hBegun with
    | waits _ hQueue => cases hQueue
    | cutOff _ _ _ hStatus => exact fun hDone => absurd hDone hStatus
    | follows _ _ _ _ hStatus => exact hStatus.mp

/-- What the heap of a graph says is not part of what it records. -/
theorem withHeap (h : g.Recording c maxVisits entry s log t) (heap : Heap) :
    ({ g with heap } : Graph).Recording c maxVisits entry s log t :=
  ⟨h.sameMethod, h.sameEntry, h.entered.imp id fun ⟨hRooted, hRest⟩ =>
      ⟨⟨hRooted.root, hRooted.first, hRooted.later⟩, hRest⟩,
    ⟨h.linked.both, h.linked.root⟩, ⟨h.piled.keys, h.piled.addresses, h.piled.mem_iff, h.piled.nodup⟩,
    h.live, h.ascending, h.length, h.successive,
    fun id n hn => by
      obtain ⟨r, hr, hRecords⟩ := h.records id n hn
      exact ⟨r, hr, hRecords.applied, hRecords.post, hRecords.children, hRecords.complete⟩,
    h.completed, h.unmarked⟩

/-- Every node is reached from the first one along children. -/
theorem reached (h : g.Recording c maxVisits entry s log t) {id : NodeId} (hLive : g.isLive id = true) :
    Relation.ReflTransGen (fun k k' => k' ∈ g.childrenOf k) 0 id := by
  induction id using Nat.strongRecOn with
  | ind id ih =>
      rcases h.entered with ⟨hNone, _⟩ | ⟨hRooted, _⟩
      · exact absurd (hNone ▸ lt_size_of_isLive hLive) (Nat.not_lt_zero id)
      · by_cases hFirst : id = 0
        · rw [hFirst]
        · obtain ⟨n, hn⟩ := isLive_iff.mp hLive
          obtain ⟨p, hp, hParents⟩ := hRooted.later id n hn hFirst
          have hChild : id ∈ g.childrenOf p := by
            rw [h.linked.both]
            simp [parentsOf, hn, hParents]
          exact .tail (ih p hp (h.linked.live_of_child hChild).1) hChild

end Graph.Recording

namespace Machine

open Exploration

/-- What visits preserve holds of an exploration when nothing is left in the queue. A method without
instructions is not explored. -/
theorem explore_ends {m : Machine} {call : Method → List Value → Run (Option Effect)}
    (hCall : ∀ callee values, Frugal (call callee values)) {method : Method} {entry : State} {s : Supply}
    {Inv : List Pending → Graph → List (Address × Nat) → Supply → Prop} {Err : Error → Supply → Prop}
    (hPreserves : Preserves m.limits.maxVisits ⟨m.classes, method, call⟩ Inv Err)
    (hStart : method.code ≠ [] → Inv [⟨none, 0, entry⟩] (.start method entry) [] s) :
    Run.Ends (m.explore call method entry) s
      (fun g t => (method.code = [] ∧ g = .start method entry ∧ t = s) ∨
        (method.code ≠ [] ∧ ∃ v, Inv [] g v t)) Err := by
  unfold explore
  split
  · rename_i hEmpty
    exact .inl ⟨List.isEmpty_iff.mp hEmpty, rfl, rfl⟩
  · rename_i hCode
    have hSome : method.code ≠ [] := by simpa using hCode
    rw [Run.ends_bind, Run.ends_budget, Run.ends_bind]
    let c : Semantics.Context := ⟨m.classes, method, call⟩
    have hc (a : Address) (pre : State) : Frugal (c.apply a pre) :=
      Semantics.Context.apply_frugal (fun _ _ _ _ _ _ _ _ callee _ values => hCall callee values) a pre
    have hKept := rounds_ends (n := s.budget + 1) (e := ⟨.start method entry, [], [⟨none, 0, entry⟩]⟩)
      hPreserves (hStart hSome)
    have hDone : Run.Ends (rounds m.limits.maxVisits c (s.budget + 1)
        ⟨.start method entry, [], [⟨none, 0, entry⟩]⟩) s (fun e _ => e.found = []) fun _ _ => True :=
      rounds_exhaust hc (.inl (Nat.lt_succ_self _))
    unfold Run.Ends at hKept hDone ⊢
    split at hKept
    · rename_i e t hRun
      rw [hRun] at hDone
      dsimp only at hDone
      rw [hDone] at hKept
      exact .inr ⟨hSome, e.visits, hKept⟩
    · exact hKept

/-- The graph of an exploration records exactly what was explored. Every step has found something left of the
budget. -/
theorem explore_funded {m : Machine} {call : Method → List Value → Run (Option Effect)}
    (hCall : ∀ callee values, Frugal (call callee values)) {method : Method} {entry : State}
    {s t : Supply} {g : Graph} (h : m.explore call method entry s = (.ok g, t)) :
    ∃ log, g.Recording ⟨m.classes, method, call⟩ m.limits.maxVisits entry s log t ∧
      ∀ r ∈ log, r.before.budget ≠ 0 := by
  let c : Semantics.Context := ⟨m.classes, method, call⟩
  have hEnds := explore_ends hCall (preserves_underway m.limits.maxVisits c entry s) fun _ =>
    ⟨[], structured_start method entry _ (by simp), Logged.start c entry s _, .waits rfl rfl rfl rfl,
      List.forall_mem_nil _⟩
  unfold Run.Ends at hEnds
  rw [h] at hEnds
  rcases hEnds with ⟨hEmpty, rfl, rfl⟩ | ⟨hCode, v, log, hUnderway⟩
  · exact ⟨[], Graph.Recording.of_empty (c := c) hEmpty _ entry t, List.forall_mem_nil _⟩
  · exact ⟨log, Graph.Recording.of_logged (c := c) hCode hUnderway.structured hUnderway.logged hUnderway.begun,
      hUnderway.found⟩

theorem explore_recording {m : Machine} {call : Method → List Value → Run (Option Effect)}
    (hCall : ∀ callee values, Frugal (call callee values)) {method : Method} {entry : State}
    {s t : Supply} {g : Graph} (h : m.explore call method entry s = (.ok g, t)) :
    ∃ log, g.Recording ⟨m.classes, method, call⟩ m.limits.maxVisits entry s log t := by
  obtain ⟨log, hRecording, _⟩ := explore_funded hCall h
  exact ⟨log, hRecording⟩

theorem run_eq (m : Machine) (depth : Nat) :
    m.run (m.limits.maxDepth - depth) = m.explore (m.callAt depth) := by
  unfold callAt
  cases m.limits.maxDepth - depth <;> rfl

/-- What an execution has explored has been recorded. -/
theorem execute_recording {m : Machine} {method : Method} {entry : State} {g : Graph}
    (h : m.execute method entry = .ok g) :
    ∃ (g₀ : Graph) (log : List Performance) (t : Supply), g = { g₀ with heap := t.heap } ∧
      g₀.Recording (m.context method 0) m.limits.maxVisits entry ⟨.after entry, m.limits.maxNodes⟩
        log t := by
  obtain ⟨_, g₀, t, hRun, rfl⟩ := execute_eq_ok_iff.mp h
  obtain ⟨log, hRecording⟩ := explore_recording (callAt_frugal 0) hRun
  exact ⟨g₀, log, t, rfl, hRecording⟩

/-- In an execution every step has found something left of the budget. -/
theorem execute_funded {m : Machine} {method : Method} {entry : State} {g : Graph}
    (h : m.execute method entry = .ok g) :
    ∃ log t, g.Recording (m.context method 0) m.limits.maxVisits entry ⟨.after entry, m.limits.maxNodes⟩ log t ∧
      g.heap = t.heap ∧ ∀ r ∈ log, r.before.budget ≠ 0 := by
  obtain ⟨_, g₀, t, hRun, rfl⟩ := execute_eq_ok_iff.mp h
  obtain ⟨log, hRecording, hFound⟩ := explore_funded (callAt_frugal 0) hRun
  exact ⟨log, t, hRecording.withHeap t.heap, rfl, hFound⟩

/-- The graph of an execution, which has no nodes if the execution fails. -/
def graphOf (m : Machine) (method : Method) (entry : State) : Graph :=
  match m.execute method entry with
  | .ok g => g
  | .error _ => .start method entry

theorem execute_eq_graphOf {m : Machine} {method : Method} {entry : State}
    (h : (m.execute method entry).toOption.isSome = true) :
    m.execute method entry = .ok (m.graphOf method entry) := by
  unfold graphOf
  cases hRun : m.execute method entry with
  | ok g => rfl
  | error e =>
      rw [hRun] at h
      cases h

/-- The graph of a method that is explored at some depth of calls is a tree below the entry, unless that
is not executed at all. It records every step, on the supply that the one before it has left, with all
that it leads to, unless a mark says that something was cut off, which its status then says too. -/
theorem run_recording {m : Machine} {method : Method} {depth : Nat} {entry : State} {s t : Supply}
    {g : Graph} (h : m.run (m.limits.maxDepth - depth) method entry s = (.ok g, t)) :
    ∃ log, g.Recording (m.context method depth) m.limits.maxVisits entry s log t ∧
      ∀ id, g.isLive id = true → Relation.ReflTransGen (fun k k' => k' ∈ g.childrenOf k) 0 id := by
  rw [run_eq] at h
  obtain ⟨log, hRecording⟩ := explore_recording (callAt_frugal depth) h
  exact ⟨log, hRecording, fun id hLive => hRecording.reached hLive⟩

/-- A method that loops until its argument is zero. -/
def loopingMethod : Method where
  reference := ⟨⟨"La;"⟩, "run", [.int], .void⟩
  flags := { static := true }
  locals := 0
  code := [.branch .ne 0 none 0, .returnVoid]
  tries := []

/-- A machine with tight limits. -/
def tightMachine : Machine := ⟨.empty, ⟨8, 3, 1⟩⟩

/-- The graph of `loopingMethod`, which is cut off at the limit of visits. -/
def loopingGraph : Graph :=
  match (tightMachine.run 1 loopingMethod (initialState loopingMethod) ⟨.empty, 8⟩).1 with
  | .ok g => g
  | .error _ => .start loopingMethod (initialState loopingMethod)

theorem run_recording_loopingMethod :
    ∃ log, loopingGraph.Recording (tightMachine.context loopingMethod 0) 3 (initialState loopingMethod)
        ⟨.empty, 8⟩ log ⟨.empty, 2⟩ ∧
      ∀ id, loopingGraph.isLive id = true →
        Relation.ReflTransGen (fun k k' => k' ∈ loopingGraph.childrenOf k) 0 id :=
  have hRun : tightMachine.run (tightMachine.limits.maxDepth - 0) loopingMethod
      (initialState loopingMethod) ⟨.empty, 8⟩ = (.ok loopingGraph, ⟨.empty, 2⟩) := rfl
  run_recording hRun

end Machine

end Dalvik
