import Dalvik.Proofs.Limits
import Dalvik.Proofs.Simulation
import Mathlib.Algebra.Order.BigOperators.Group.List
import Mathlib.Algebra.Order.Group.Nat
import Mathlib.Data.List.Perm.Subperm

/-!
The graph of an exploration as a tree, and explorations that walk down such a tree. Such a walk meets no
node of the tree twice, so that it reaches no limit that the tree has been kept within.
-/

namespace Dalvik

namespace Graph

/-- A node is another one or follows it, directly or through other nodes. -/
def Below (g : Graph) (p id : NodeId) : Prop :=
  Relation.ReflTransGen (fun k k' => k' ∈ g.childrenOf k) p id

namespace Recording

variable {g : Graph} {c : Semantics.Context} {maxVisits : Nat} {entry : State} {s t : Supply}
  {log : List Performance}

/-- A node follows one node only, which was made before it. -/
theorem parent_of_child (h : g.Recording c maxVisits entry s log t) {p k : NodeId}
    (hChild : k ∈ g.childrenOf p) : p < k ∧ g.parentsOf k = [p] := by
  obtain ⟨n, hn⟩ := isLive_iff.mp (h.linked.live_of_child hChild).2
  have hParent : p ∈ n.parents := by rwa [← mem_parents hn, ← h.linked.both]
  have hOwn : g.parentsOf k = n.parents := by simp [parentsOf, hn]
  obtain ⟨hRooted, _⟩ := h.rooted hn
  by_cases hFirst : k = 0
  · obtain ⟨n₀, hn₀, _, _, hNone⟩ := hRooted.first
    rw [hFirst, hn₀] at hn
    obtain rfl := Option.some.inj hn
    rw [hNone] at hParent
    cases hParent
  · obtain ⟨q, hq, hOne⟩ := hRooted.later k n hn hFirst
    rw [hOne] at hParent
    obtain rfl := List.mem_singleton.mp hParent
    exact ⟨hq, hOwn.trans hOne⟩

theorem parent_unique (h : g.Recording c maxVisits entry s log t) {p q k : NodeId}
    (hp : k ∈ g.childrenOf p) (hq : k ∈ g.childrenOf q) : p = q := by
  have hSame := (h.parent_of_child hp).2.symm.trans (h.parent_of_child hq).2
  exact (List.cons.inj hSame).1

theorem le_of_below (h : g.Recording c maxVisits entry s log t) {p k : NodeId} (hBelow : g.Below p k) :
    p ≤ k := by
  induction hBelow with
  | refl => exact Nat.le_refl _
  | tail _ hChild ih => exact Nat.le_trans ih (Nat.le_of_lt (h.parent_of_child hChild).1)

/-- Of two nodes that one node follows, one follows the other. -/
theorem below_or_below (h : g.Recording c maxVisits entry s log t) {p q k : NodeId}
    (hp : g.Below p k) (hq : g.Below q k) : g.Below p q ∨ g.Below q p := by
  induction hp with
  | refl => exact .inr hq
  | @tail k k' hUpper hChild ih =>
      rcases Relation.ReflTransGen.cases_tail hq with rfl | ⟨l, hLower, hChild'⟩
      · exact .inl (hUpper.tail hChild)
      · obtain rfl := h.parent_unique hChild hChild'
        exact ih hLower

/-- No node follows two children of a node. -/
theorem child_eq_of_below (h : g.Recording c maxVisits entry s log t) {p k k' l : NodeId}
    (hk : k ∈ g.childrenOf p) (hk' : k' ∈ g.childrenOf p) (hl : g.Below k l) (hl' : g.Below k' l) :
    k = k' := by
  have hDown {a b : NodeId} (ha : a ∈ g.childrenOf p) (hb : b ∈ g.childrenOf p) (hBelow : g.Below a b) :
      a = b := by
    rcases Relation.ReflTransGen.cases_tail hBelow with rfl | ⟨q, hUpper, hChild⟩
    · rfl
    · obtain rfl := h.parent_unique hb hChild
      have hLess := (h.parent_of_child ha).1
      have hMore := h.le_of_below hUpper
      exact absurd hLess (Nat.not_lt_of_le hMore)
  rcases h.below_or_below hl hl' with hBelow | hBelow
  · exact hDown hk hk' hBelow
  · exact (hDown hk' hk hBelow).symm

end Recording

/-- No node follows both of two nodes. -/
def Separate (g : Graph) (p q : NodeId) : Prop := ∀ k, g.Below p k → ¬ g.Below q k

theorem Separate.below {g : Graph} {p q p' q' : NodeId} (h : g.Separate p q) (hp : g.Below p p')
    (hq : g.Below q q') : g.Separate p' q' :=
  fun k hk hk' => h k (hp.trans hk) (hq.trans hk')

/-- The executions of a method walk down a graph. `mate` says, given what has been handed out so far, which
node of the graph an execution has for its mate, and `place` where that is. What an execution leads to has
its mates in different branches below its own mate, and it costs as much as that. `mayFail` says that a step
may fail instead of leading on. -/
structure Tours (c : Semantics.Context) (G : Graph) (maxVisits : Nat) (place : NodeId → Address)
    (cost : NodeId → Nat) (mayFail : Prop) (mate : Heap → Address → State → NodeId → Prop) : Prop where
  live : ∀ h a pre K, mate h a pre K → G.isLive K = true
  place : ∀ h a pre K, mate h a pre K → place K = a
  most : ∀ a, ∃ pile : List NodeId, pile.length ≤ maxVisits ∧
    ∀ h pre K, mate h a pre K → K ∈ pile
  grow : ∀ h h' a pre K, mate h a pre K → h.Grows h' → mate h' a pre K
  charged : ∀ h a pre K, mate h a pre K → cost K ≠ 0
  step : ∀ s a pre K, mate s.heap a pre K → cost K ≤ s.budget →
    Run.Ends (c.apply a pre) s
      (fun step t => s.heap.Grows t.heap ∧ t.budget + cost K = s.budget + 1 ∧
        ∃ Ks, List.Forall₂ (fun p K' => mate t.heap p.1 p.2 K') step.successors Ks ∧
          Ks.Pairwise G.Separate ∧ ∀ K' ∈ Ks, G.Below K K' ∧ K < K')
      fun _ _ => mayFail

end Graph

namespace Exploration

variable {c : Semantics.Context} {G : Graph} {place : NodeId → Address} {cost : NodeId → Nat}
  {mayFail : Prop} {mate : Heap → Address → State → NodeId → Prop} {maxVisits budget : Nat}

/-- How an exploration that walks down a graph stands: `Ks` are the mates of its nodes and `Ls` those of
what is in the queue, none of which has been met. -/
structure Touring (G : Graph) (place : NodeId → Address) (cost : NodeId → Nat)
    (mate : Heap → Address → State → NodeId → Prop) (budget : Nat) (Ks Ls : List NodeId)
    (q : List Pending) (g : Graph) (v : List (Address × Nat)) (s : Supply) : Prop where
  queue : List.Forall₂ (fun p K => mate s.heap p.address p.pre K) q Ls
  apart : Ls.Pairwise G.Separate
  mates : ∀ K ∈ Ks, ∃ h a pre, mate h a pre K
  nodup : Ks.Nodup
  unmet : ∀ K ∈ Ks, ∀ L ∈ Ls, ¬ G.Below L K
  visits : ∀ a, (v.lookup a).getD 0 = (Ks.filter fun K => place K = a).length
  budget : (Ks.map cost).sum + s.budget = budget
  completed : g.status = .completed

variable {Ks Ls : List NodeId} {p : Pending} {q : List Pending} {g : Graph} {v : List (Address × Nat)}
  {s : Supply} {K : NodeId}

theorem Touring.nodup_cons (h : Touring G place cost mate budget Ks (K :: Ls) q g v s) : (K :: Ks).Nodup :=
  List.nodup_cons.mpr ⟨fun hMet => h.unmet K hMet K (.head _) .refl, h.nodup⟩

theorem sum_le_of_subset (cost : NodeId → Nat) {Ks Ls : List NodeId} (hNodup : Ks.Nodup) (hAll : Ks ⊆ Ls) :
    (Ks.map cost).sum ≤ (Ls.map cost).sum := by
  obtain ⟨Ms, hPerm, hSublist⟩ := List.subperm_of_subset hNodup hAll
  rw [← (hPerm.map cost).sum_eq]
  exact (hSublist.map cost).sum_le_sum fun _ _ => Nat.zero_le _

/-- As long as something is in the queue, what it costs is left of the budget. -/
theorem Touring.cost_le (hTours : G.Tours c maxVisits place cost mayFail mate)
    (hTotal : ((List.range G.nodes.size).map cost).sum ≤ budget)
    (h : Touring G place cost mate budget Ks (K :: Ls) (p :: q) g v s) : cost K ≤ s.budget := by
  have hAll : K :: Ks ⊆ List.range G.nodes.size := by
    intro k hk
    rw [List.mem_range]
    rcases List.mem_cons.mp hk with rfl | hk
    · exact Graph.lt_size_of_isLive (hTours.live _ _ _ _ (List.forall₂_cons.mp h.queue).1)
    · obtain ⟨_, _, _, hMate⟩ := h.mates k hk
      exact Graph.lt_size_of_isLive (hTours.live _ _ _ _ hMate)
  have hCost := sum_le_of_subset cost h.nodup_cons hAll
  have hBudget := h.budget
  rw [List.map_cons, List.sum_cons] at hCost
  omega

/-- As long as something at a place is in the queue, not all of the graph that is there has been met. -/
theorem Touring.visits_lt (hTours : G.Tours c maxVisits place cost mayFail mate)
    (h : Touring G place cost mate budget Ks (K :: Ls) (p :: q) g v s) :
    (v.lookup p.address).getD 0 < maxVisits := by
  obtain ⟨pile, hMost, hPile⟩ := hTours.most p.address
  have hNodup : (K :: Ks.filter fun k => place k = p.address).Nodup :=
    List.Nodup.sublist (List.Sublist.cons_cons K List.filter_sublist) h.nodup_cons
  have hAll : (K :: Ks.filter fun k => place k = p.address) ⊆ pile := by
    intro k hk
    rcases List.mem_cons.mp hk with rfl | hk
    · exact hPile _ _ _ (List.forall₂_cons.mp h.queue).1
    · obtain ⟨hMem, hPlace⟩ := List.mem_filter.mp hk
      obtain ⟨h', a, pre, hMate⟩ := h.mates k hMem
      obtain rfl : a = p.address := (hTours.place _ _ _ _ hMate).symm.trans (by simpa using hPlace)
      exact hPile _ _ _ hMate
  have hLength := (List.subperm_of_subset hNodup hAll).length_le
  rw [List.length_cons, ← h.visits] at hLength
  exact Nat.lt_of_lt_of_le hLength hMost

/-- An execution is recorded with its mate, and what it leads to is put in the end of the queue. -/
theorem Touring.add (hTours : G.Tours c maxVisits place cost mayFail mate)
    (hDown : ∀ k k', G.Below k k' → k ≤ k')
    (h : Touring G place cost mate budget Ks (K :: Ls) (p :: q) g v s) {step : Step} {t : Supply}
    (hGrows : s.heap.Grows t.heap) (hSpent : t.budget + cost K = s.budget + 1) (hPaid : cost K ≤ s.budget)
    {Ks' : List NodeId}
    (hNext : List.Forall₂ (fun p K' => mate t.heap p.1 p.2 K') step.successors Ks')
    (hApart : Ks'.Pairwise G.Separate) (hBelow : ∀ K' ∈ Ks', G.Below K K' ∧ K < K') :
    Touring G place cost mate budget (Ks ++ [K]) (Ls ++ Ks') (q ++ nextOf g.nodes.size step)
      (g.add p.address p.pre step.post p.parent) (countVisit p.address v)
      { t with budget := t.budget - 1 } := by
  obtain ⟨hMate, hQueue⟩ := List.forall₂_cons.mp h.queue
  obtain ⟨hHead, hTail⟩ := List.pairwise_cons.mp h.apart
  have hPlace := hTours.place _ _ _ _ hMate
  refine ⟨?_, ?_, ?_, ?_, ?_, ?_, ?_, ?_⟩
  · refine List.rel_append (hQueue.imp fun r L hr => hTours.grow _ _ _ _ _ hr hGrows) ?_
    exact List.forall₂_map_left_iff.mpr hNext
  · refine List.pairwise_append.mpr ⟨hTail, hApart, fun L hL K' hK' => ?_⟩
    intro k hk hk'
    exact hHead L hL k ((hBelow K' hK').1.trans hk') hk
  · intro k hk
    rcases List.mem_append.mp hk with hOld | hNew
    · exact h.mates k hOld
    · rw [List.mem_singleton.mp hNew]
      exact ⟨_, _, _, hMate⟩
  · exact (List.perm_append_singleton K Ks).nodup_iff.mpr h.nodup_cons
  · intro k hk L hL hBoth
    rcases List.mem_append.mp hk with hOld | hNew <;> rcases List.mem_append.mp hL with hWaits | hFound
    · exact h.unmet k hOld L (.tail _ hWaits) hBoth
    · exact h.unmet k hOld K (.head _) ((hBelow L hFound).1.trans hBoth)
    · rw [List.mem_singleton.mp hNew] at hBoth
      exact hHead L hWaits K .refl hBoth
    · rw [List.mem_singleton.mp hNew] at hBoth
      exact absurd (hDown _ _ hBoth) (Nat.not_le_of_lt (hBelow L hFound).2)
  · intro a
    rw [lookup_countVisit, List.filter_append, List.length_append, h.visits]
    by_cases hHere : a = p.address
    · simp [hHere, hPlace]
    · simp [hHere, hPlace, Ne.symm hHere]
  · have hBudget := h.budget
    rw [List.map_append, List.sum_append, List.map_singleton, List.sum_singleton]
    dsimp only
    omega
  · rw [Graph.add_eq]
    exact h.completed

theorem preserves_touring (hTours : G.Tours c maxVisits place cost mayFail mate)
    (hDown : ∀ k k', G.Below k k' → k ≤ k')
    (hTotal : ((List.range G.nodes.size).map cost).sum ≤ budget) :
    Preserves maxVisits c (fun q g v s => ∃ Ks Ls, Touring G place cost mate budget Ks Ls q g v s)
      fun _ _ => mayFail where
  nodes p q g v s h hBudget := by
    obtain ⟨Ks, Ls, hTouring⟩ := h
    obtain ⟨K, Ls, hMate, _, rfl⟩ := List.forall₂_cons_left_iff.mp hTouring.queue
    have hPaid := hTouring.cost_le hTours hTotal
    have hSome := hTours.charged _ _ _ _ hMate
    omega
  visits p q g v s h _ hMost := by
    obtain ⟨Ks, Ls, hTouring⟩ := h
    obtain ⟨K, Ls, _, _, rfl⟩ := List.forall₂_cons_left_iff.mp hTouring.queue
    exact absurd (hTouring.visits_lt hTours) (Nat.not_lt_of_le hMost)
  record p q g v s h _ _ := by
    obtain ⟨Ks, Ls, hTouring⟩ := h
    obtain ⟨K, Ls, hMate, _, rfl⟩ := List.forall₂_cons_left_iff.mp hTouring.queue
    have hPaid := hTouring.cost_le hTours hTotal
    refine (hTours.step s p.address p.pre K hMate hPaid).imp (fun step t hStep => ?_) fun _ _ h => h
    obtain ⟨hGrows, hSpent, Ks', hNext, hApart, hBelow⟩ := hStep
    exact ⟨_, _, hTouring.add hTours hDown hGrows hSpent hPaid hNext hApart hBelow⟩

end Exploration

namespace Machine

open Exploration

variable {m : Machine} {call : Method → List Value → Run (Option Effect)} {method : Method}
  {entry : State} {G : Graph} {place : NodeId → Address}
  {mate : Heap → Address → State → NodeId → Prop} {s : Supply}

/-- An exploration that walks down a graph within the limits is complete, unless it fails. -/
theorem explore_tours {cost : NodeId → Nat} {mayFail : Prop}
    (hTours : G.Tours ⟨m.classes, method, call⟩ m.limits.maxVisits place cost mayFail mate)
    (hDown : ∀ k k', G.Below k k' → k ≤ k')
    (hTotal : ((List.range G.nodes.size).map cost).sum ≤ s.budget)
    (hEntry : method.code ≠ [] → ∃ K, mate s.heap 0 entry K) :
    Run.Ends (m.explore call method entry) s (fun g _ => g.status = .completed) fun _ _ => mayFail := by
  unfold explore
  split
  · rfl
  · rename_i hCode
    rw [Run.ends_bind, Run.ends_budget, Run.ends_bind]
    obtain ⟨K, hMate⟩ := hEntry (by simpa using hCode)
    have hStart : ∃ Ks Ls, Touring G place cost mate s.budget Ks Ls [⟨none, 0, entry⟩]
        (.start method entry) [] s :=
      ⟨[], [K], .cons hMate .nil, List.pairwise_singleton _ _, by simp, .nil, by simp,
        fun _ => rfl, Nat.zero_add _, rfl⟩
    refine (rounds_ends (e := ⟨.start method entry, [], [⟨none, 0, entry⟩]⟩)
      (preserves_touring hTours hDown hTotal) hStart).imp (fun e t h => ?_) fun _ _ h => h
    obtain ⟨_, _, hTouring⟩ := h
    exact hTouring.completed

end Machine

end Dalvik
