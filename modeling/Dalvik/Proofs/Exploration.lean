import Dalvik.Exploration
import Dalvik.Proofs.Linking
import Dalvik.Proofs.Step

/-!
Explorations as work on a queue. What every visit preserves holds of the whole exploration, and of its
graph when it is done.
-/

namespace Dalvik

namespace Exploration

/-- The executions that an execution leads to, as they are found after it got a name. -/
def nextOf (id : NodeId) (step : Step) : List Pending :=
  step.successors.map fun s => ⟨some id, s.1, s.2⟩

/-- What visits preserve of the queue, the graph, the counts and the supply, and the errors that they
may end with. -/
structure Preserves (maxVisits : Nat) (c : Semantics.Context)
    (Inv : List Pending → Graph → List (Address × Nat) → Supply → Prop)
    (Err : Error → Supply → Prop) : Prop where
  nodes : ∀ p q g v s, Inv (p :: q) g v s → s.budget = 0 → Inv q (g.cut .nodes p.parent) v s
  visits : ∀ p q g v s, Inv (p :: q) g v s → s.budget ≠ 0 →
    maxVisits ≤ (v.lookup p.address).getD 0 → Inv q (g.cut .visits p.parent) v s
  record : ∀ p q g v s, Inv (p :: q) g v s → s.budget ≠ 0 →
    (v.lookup p.address).getD 0 < maxVisits →
    Run.Ends (c.apply p.address p.pre) s
      (fun step t => Inv (q ++ nextOf g.nodes.size step)
        (g.add p.address p.pre step.post p.parent) (countVisit p.address v)
        { t with budget := t.budget - 1 }) Err

/-- What a visit does: it cuts off what there is no budget for and what has been visited too often, and records
the step of anything else. -/
theorem visit_eq (maxVisits : Nat) (c : Semantics.Context) (e : Exploration) (p : Pending) (s : Supply) :
    visit maxVisits c e p s =
      if s.budget = 0 then (.ok (e.cut .nodes p.parent), s)
      else if maxVisits ≤ e.visitsOf p.address then (.ok (e.cut .visits p.parent), s)
      else match c.apply p.address p.pre s with
        | (.ok step, t) => (.ok (e.record p step), { t with budget := t.budget - 1 })
        | (.error err, t) => (.error err, t) := by
  unfold visit
  rw [stateful_bind_apply]
  dsimp only [Run.budget]
  split
  · rfl
  · split
    · rfl
    · rw [stateful_bind_apply]
      rcases c.apply p.address p.pre s with ⟨_ | _, _⟩ <;> rfl

variable {maxVisits : Nat} {c : Semantics.Context}
  {Inv : List Pending → Graph → List (Address × Nat) → Supply → Prop} {Err : Error → Supply → Prop}

/-- The queue is what is left of the present round before what it has found. -/
theorem visit_ends (h : Preserves maxVisits c Inv Err) {e : Exploration} {p : Pending}
    {rest : List Pending} {s : Supply}
    (hInv : Inv (p :: rest ++ e.found.reverse) e.graph e.visits s) :
    Run.Ends (visit maxVisits c e p) s
      (fun e t => Inv (rest ++ e.found.reverse) e.graph e.visits t) Err := by
  unfold visit
  rw [Run.ends_bind, Run.ends_budget]
  by_cases hBudget : s.budget = 0
  · rw [if_pos hBudget]
    exact h.nodes _ _ _ _ _ hInv hBudget
  · rw [if_neg hBudget]
    by_cases hVisits : maxVisits ≤ e.visitsOf p.address
    · rw [if_pos hVisits]
      exact h.visits _ _ _ _ _ hInv hBudget hVisits
    · rw [if_neg hVisits, Run.ends_bind]
      refine (h.record _ _ _ _ _ hInv hBudget (Nat.lt_of_not_le hVisits)).imp
        (fun step t ht => ?_) fun _ _ he => he
      rw [Run.ends_bind, Run.ends_charge]
      simpa [record, nextOf] using ht

theorem foldlM_visit_ends (h : Preserves maxVisits c Inv Err) {rest : List Pending}
    {e : Exploration} {s : Supply} (hInv : Inv (rest ++ e.found.reverse) e.graph e.visits s) :
    Run.Ends (rest.foldlM (visit maxVisits c) e) s
      (fun e t => Inv e.found.reverse e.graph e.visits t) Err := by
  induction rest generalizing e s with
  | nil => exact hInv
  | cons p rest ih =>
      rw [List.foldlM_cons, Run.ends_bind]
      exact (visit_ends h hInv).imp (fun e t ht => ih ht) fun _ _ he => he

theorem rounds_ends (h : Preserves maxVisits c Inv Err) {n : Nat} {e : Exploration} {s : Supply}
    (hInv : Inv e.found.reverse e.graph e.visits s) :
    Run.Ends (rounds maxVisits c n e) s
      (fun e t => Inv e.found.reverse e.graph e.visits t) Err := by
  induction n generalizing e s with
  | zero => exact hInv
  | succ n ih =>
      unfold rounds
      split
      · exact hInv
      · rw [Run.ends_bind]
        have hRound : Inv (e.found.reverse ++ ({ e with found := [] } : Exploration).found.reverse)
            e.graph e.visits s := by simpa using hInv
        exact (foldlM_visit_ends (e := { e with found := [] }) h hRound).imp (fun e t ht => ih ht)
          fun _ _ he => he

end Exploration

namespace Graph

variable {g : Graph}

theorem node?_truncate (parent : Option NodeId) (k : NodeId) :
    (g.truncate parent).node? k =
      if parent = some k then (g.node? k).map fun n => { n with truncated := true }
      else g.node? k := by
  unfold truncate
  cases parent with
  | none => simp
  | some p =>
      rw [node?_modify]
      by_cases h : k = p <;> simp [h, eq_comm]

theorem truncate_eq (g : Graph) (parent : Option NodeId) :
    g.truncate parent = { g with nodes := (g.truncate parent).nodes } := by
  unfold truncate
  split <;> rfl

theorem cut_eq (g : Graph) (ceiling : Ceiling) (parent : Option NodeId) :
    g.cut ceiling parent =
      { g with nodes := (g.truncate parent).nodes, status := (g.cut ceiling parent).status } := by
  unfold cut
  rw [truncate_eq]
  cases g.status <;> rfl

theorem node?_cut (ceiling : Ceiling) (parent : Option NodeId) (k : NodeId) :
    (g.cut ceiling parent).node? k =
      if parent = some k then (g.node? k).map fun n => { n with truncated := true }
      else g.node? k := by
  rw [← node?_truncate, cut_eq]
  rfl

theorem size_cut (ceiling : Ceiling) (parent : Option NodeId) :
    (g.cut ceiling parent).nodes.size = g.nodes.size := by
  rw [cut_eq]
  unfold truncate modify
  split <;> simp

theorem lookup_addToPile (a b : Address) (id : NodeId) (piles : List (Address × List NodeId)) :
    ((addToPile a id piles).lookup b).getD [] =
      if b = a then (piles.lookup b).getD [] ++ [id] else (piles.lookup b).getD [] :=
  Lookup.lookup_updated (· ++ [id]) (addToPile a id) rfl (fun _ _ => rfl) b piles

theorem mem_keys_addToPile {a b : Address} {id : NodeId} {piles : List (Address × List NodeId)} :
    b ∈ (addToPile a id piles).map Prod.fst ↔ b = a ∨ b ∈ piles.map Prod.fst := by
  induction piles with
  | nil => simp [addToPile]
  | cons p r ih =>
      unfold addToPile
      split
      · rename_i hKey
        simp [hKey]
      · rw [List.map_cons, List.mem_cons, ih, List.map_cons, List.mem_cons]
        tauto

theorem nodup_addToPile {a : Address} {id : NodeId} {piles : List (Address × List NodeId)}
    (h : (piles.map Prod.fst).Nodup) : ((addToPile a id piles).map Prod.fst).Nodup := by
  induction piles with
  | nil => simp [addToPile]
  | cons p r ih =>
      obtain ⟨hHead, hTail⟩ := List.nodup_cons.mp h
      unfold addToPile
      split
      · rename_i hKey
        subst hKey
        exact h
      · rename_i hKey
        rw [List.map_cons, List.nodup_cons, mem_keys_addToPile]
        exact ⟨fun hBad => hBad.elim hKey hHead, ih hTail⟩

theorem size_add (a : Address) (pre post : State) (parent : Option NodeId) :
    (g.add a pre post parent).nodes.size = g.nodes.size + 1 := by
  cases parent <;> simp [add, modify]

theorem node?_of_size_le {k : NodeId} (h : g.nodes.size ≤ k) : g.node? k = none := by
  simp [node?, h]

theorem lt_size_of_isLive {k : NodeId} (h : g.isLive k = true) : k < g.nodes.size := by
  by_contra hBeyond
  simp [isLive, node?_of_size_le (Nat.le_of_not_lt hBeyond)] at h

/-- The new node, its parent with one more child, and every other node as it was. -/
theorem node?_add (a : Address) (pre post : State) (parent : Option NodeId) (k : NodeId) :
    (g.add a pre post parent).node? k =
      if k = g.nodes.size then some ⟨a, pre, post, parent.toList, [], false⟩
      else if parent = some k then
        (g.node? k).map fun n => { n with children := n.children ++ [g.nodes.size] }
      else g.node? k := by
  have hPush (nodes : Array (Option Node)) (hSize : nodes.size = g.nodes.size) (n : Node) :
      ((nodes.push (some n))[k]?).join =
        if k = g.nodes.size then some n else (nodes[k]?).join := by
    rw [Array.getElem?_push, hSize]
    split <;> simp_all
  cases parent with
  | none =>
      simp only [add, node?]
      rw [hPush g.nodes rfl]
      simp
  | some p =>
      have hParent := node?_modify (g := g) p
        (fun n => { n with children := n.children ++ [g.nodes.size] }) k
      simp only [node?] at hParent
      simp only [add, node?]
      rw [hPush _ (by simp [modify]), hParent]
      by_cases h : k = p <;> simp [h, eq_comm]

theorem add_eq (a : Address) (pre post : State) (parent : Option NodeId) :
    g.add a pre post parent =
      { g with
        nodes := (g.add a pre post parent).nodes
        piles := addToPile a g.nodes.size g.piles
        root := if parent = none then some g.nodes.size else g.root } := by
  cases parent <;> simp [add, modify]

theorem pile_add (a b : Address) (pre post : State) (parent : Option NodeId) :
    (g.add a pre post parent).pile b =
      if b = a then g.pile b ++ [g.nodes.size] else g.pile b := by
  rw [add_eq]
  exact lookup_addToPile a b _ _

theorem Piled.add {code : Code} (hg : g.Piled code) {a : Address} (ha : code.HasAddress a)
    (pre post : State) (parent : Option NodeId) : (g.add a pre post parent).Piled code where
  keys := by
    rw [add_eq]
    exact nodup_addToPile hg.keys
  addresses p hp := by
    rw [add_eq] at hp
    have hKey := mem_keys_addToPile.mp (List.mem_map_of_mem hp)
    rcases hKey with hHere | hOld
    · rwa [hHere]
    · obtain ⟨q, hq, hSame⟩ := List.mem_map.mp hOld
      exact hSame ▸ hg.addresses q hq
  mem_iff b id := by
    have hOld := hg.mem_iff b id
    rw [pile_add, node?_add]
    by_cases hNew : id = g.nodes.size
    · subst hNew
      have hNone : g.nodes.size ∉ g.pile b := fun h => by
        obtain ⟨n, hn, _⟩ := hOld.mp h
        rw [node?_of_size_le (Nat.le_refl _)] at hn
        cases hn
      by_cases hb : b = a
      · simp [hb]
      · simp [hb, hNone, Ne.symm hb]
    · have hMem : (id ∈ if b = a then g.pile b ++ [g.nodes.size] else g.pile b) ↔ id ∈ g.pile b := by
        split <;> simp [hNew]
      rw [hMem, if_neg hNew, hOld]
      split
      · simp [Option.map_eq_some_iff]
      · exact Iff.rfl
  nodup b := by
    rw [pile_add]
    split
    · refine List.nodup_append.mpr ⟨hg.nodup b, by simp, fun id hid other hOther => ?_⟩
      obtain ⟨n, hn, _⟩ := (hg.mem_iff b id).mp hid
      have hLess : id < g.nodes.size := lt_size_of_isLive (isLive_iff.mpr ⟨n, hn⟩)
      rw [List.mem_singleton] at hOther
      exact hOther ▸ Nat.ne_of_lt hLess
    · exact hg.nodup b

theorem childrenOf_add {parent : Option NodeId}
    (hParent : ∀ p, parent = some p → g.isLive p = true) (a : Address) (pre post : State)
    (p : NodeId) :
    (g.add a pre post parent).childrenOf p =
      if parent = some p then g.childrenOf p ++ [g.nodes.size] else g.childrenOf p := by
  unfold childrenOf
  rw [node?_add]
  by_cases hNew : p = g.nodes.size
  · subst hNew
    have hNone : g.node? g.nodes.size = none := node?_of_size_le (Nat.le_refl _)
    have hApart : parent ≠ some g.nodes.size := fun h => by
      have hLive := hParent _ h
      simp [isLive, hNone] at hLive
    simp [hApart, hNone]
  · by_cases hLink : parent = some p
    · obtain ⟨n, hn⟩ := isLive_iff.mp (hParent p hLink)
      simp [hNew, hLink, hn]
    · simp [hNew, hLink]

theorem parentsOf_add (a : Address) (pre post : State) (parent : Option NodeId) (c : NodeId) :
    (g.add a pre post parent).parentsOf c =
      if c = g.nodes.size then parent.toList else g.parentsOf c := by
  unfold parentsOf
  rw [node?_add]
  by_cases hNew : c = g.nodes.size
  · simp [hNew]
  · by_cases hLink : parent = some c <;> simp [hNew, hLink, Function.comp_def]

theorem isLive_add {a : Address} {pre post : State} {parent : Option NodeId} {k : NodeId} :
    (g.add a pre post parent).isLive k = true ↔ k = g.nodes.size ∨ g.isLive k = true := by
  unfold isLive
  rw [node?_add]
  by_cases hNew : k = g.nodes.size
  · simp [hNew]
  · by_cases hLink : parent = some k <;> simp [hNew, hLink]

theorem Linked.add (hg : g.Linked) {parent : Option NodeId}
    (hParent : ∀ p, parent = some p → g.isLive p = true) (a : Address) (pre post : State) :
    (g.add a pre post parent).Linked where
  both p c := by
    have hOld := hg.both p c
    have hBound (h : c ∈ g.childrenOf p) : c ≠ g.nodes.size :=
      Nat.ne_of_lt (lt_size_of_isLive (hg.live_of_child h).2)
    rw [childrenOf_add hParent, parentsOf_add]
    by_cases hNew : c = g.nodes.size
    · have hNone : c ∉ g.childrenOf p := fun h => hBound h hNew
      by_cases hLink : parent = some p
      · simp [hNew, hLink]
      · simp [hNew, hLink, hNew ▸ hNone]
    · by_cases hLink : parent = some p <;> simp [hNew, hLink, hOld]
  root id h := by
    rw [isLive_add]
    rw [add_eq] at h
    dsimp only at h
    split at h
    · exact .inl (Option.some.inj h).symm
    · exact .inr (hg.root id h)

theorem bare_children_cut (ceiling : Ceiling) (parent : Option NodeId) (k : NodeId) :
    (g.cut ceiling parent).childrenOf k = g.childrenOf k ∧
      (g.cut ceiling parent).parentsOf k = g.parentsOf k ∧
      (g.cut ceiling parent).isLive k = g.isLive k ∧
      ((g.cut ceiling parent).bare? k).map Node.address = (g.bare? k).map Node.address := by
  unfold childrenOf parentsOf isLive bare?
  rw [node?_cut]
  split <;> simp [Function.comp_def, Node.bare]

theorem Linked.cut (hg : g.Linked) (ceiling : Ceiling) (parent : Option NodeId) :
    (g.cut ceiling parent).Linked where
  both p c := by
    rw [(bare_children_cut ceiling parent p).1, (bare_children_cut ceiling parent c).2.1]
    exact hg.both p c
  root id h := by
    rw [(bare_children_cut ceiling parent id).2.2.1]
    exact hg.root id (by rwa [cut_eq] at h)

theorem Piled.cut {code : Code} (hg : g.Piled code) (ceiling : Ceiling) (parent : Option NodeId) :
    (g.cut ceiling parent).Piled code where
  keys := by
    rw [cut_eq]
    exact hg.keys
  addresses p hp := by
    rw [cut_eq] at hp
    exact hg.addresses p hp
  mem_iff a id := by
    rw [exists_address_iff, (bare_children_cut ceiling parent id).2.2.2, ← exists_address_iff,
      ← hg.mem_iff, cut_eq]
    rfl
  nodup a := by
    rw [cut_eq]
    exact hg.nodup a

end Graph

end Dalvik
