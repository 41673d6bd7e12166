import Dalvik.Graph.Edit
import Dalvik.Proofs.Splicing

/-!
The links and the piles of a graph under edits. Removing a node joins its parents to its children;
moving instructions renames the piles and changes no link.
-/

namespace Dalvik

/-- A node without its links. -/
def Node.bare (n : Node) : Node := { n with parents := [], children := [] }

namespace Graph

variable {g : Graph}

/-- The node with a name, without its links. -/
def bare? (g : Graph) (id : NodeId) : Option Node := (g.node? id).map Node.bare

/-- The names of the nodes that a node leads to, none if it has been removed. -/
def childrenOf (g : Graph) (id : NodeId) : List NodeId :=
  ((g.node? id).map Node.children).getD []

/-- The names of the nodes that lead to a node, none if it has been removed. -/
def parentsOf (g : Graph) (id : NodeId) : List NodeId :=
  ((g.node? id).map Node.parents).getD []

/-- Links are recorded at both ends, so that they join nodes that exist. -/
structure Linked (g : Graph) : Prop where
  both : ∀ p c, c ∈ g.childrenOf p ↔ p ∈ g.parentsOf c
  root : ∀ id, g.root = some id → g.isLive id = true

/-- The piles hold every node once, at its own address, which is that of an instruction. -/
structure Piled (g : Graph) (code : Code) : Prop where
  keys : (g.piles.map Prod.fst).Nodup
  addresses : ∀ p ∈ g.piles, code.HasAddress p.1
  mem_iff : ∀ a id, id ∈ g.pile a ↔ ∃ n, g.node? id = some n ∧ n.address = a
  nodup : ∀ a, (g.pile a).Nodup

theorem isLive_iff {id : NodeId} : g.isLive id = true ↔ ∃ n, g.node? id = some n := by
  simp [isLive, Option.isSome_iff_exists]

theorem exists_address_iff {id : NodeId} {a : Address} :
    (∃ n, g.node? id = some n ∧ n.address = a) ↔ (g.bare? id).map Node.address = some a := by
  simp [bare?, Option.map_eq_some_iff, Node.bare]

theorem Linked.live_of_child (hg : g.Linked) {p c : NodeId} (h : c ∈ g.childrenOf p) :
    g.isLive p = true ∧ g.isLive c = true := by
  have hBack := (hg.both p c).mp h
  simp only [isLive, childrenOf, parentsOf] at *
  cases hp : g.node? p with
  | none => simp [hp] at h
  | some n =>
      cases hc : g.node? c with
      | none => simp [hc] at hBack
      | some k => simp

theorem Piled.hasAddress {code : Code} (hg : g.Piled code) {id : NodeId} {n : Node}
    (hn : g.node? id = some n) : code.HasAddress n.address := by
  have hMem : id ∈ g.pile n.address := (hg.mem_iff _ _).mpr ⟨n, hn, rfl⟩
  unfold pile at hMem
  cases hPile : g.piles.lookup n.address with
  | none => simp [hPile] at hMem
  | some ids => exact hg.addresses _ (Lookup.mem_of_lookup hPile)

@[simp] theorem node?_modify (id : NodeId) (f : Node → Node) (k : NodeId) :
    (g.modify id f).node? k = if k = id then (g.node? k).map f else g.node? k := by
  unfold node? modify
  rw [Array.getElem?_modify]
  by_cases h : k = id
  · subst h
    cases hk : g.nodes[k]? with
    | none => simp
    | some n => cases n <;> simp
  · simp [Ne.symm h, h]

/-- Nothing but the nodes is touched when some of them are modified one after another. -/
theorem foldl_modify_eq (f : Node → Node) (ids : List NodeId) (g : Graph) :
    ids.foldl (fun g id => g.modify id f) g =
      { g with nodes := (ids.foldl (fun g id => g.modify id f) g).nodes } := by
  induction ids generalizing g with
  | nil => rfl
  | cons id ids ih =>
      rw [List.foldl_cons, ih]
      simp [modify]

/-- A change that is the same when it is made twice is made once to each of the nodes. -/
theorem node?_foldl_modify {f : Node → Node} {ids : List NodeId}
    (hf : ∀ n, f (f n) = f n) (g : Graph) (k : NodeId) :
    (ids.foldl (fun g id => g.modify id f) g).node? k =
      if k ∈ ids then (g.node? k).map f else g.node? k := by
  induction ids generalizing g with
  | nil => simp
  | cons id ids ih =>
      rw [List.foldl_cons, ih, node?_modify]
      by_cases hHere : k = id
      · by_cases hAgain : k ∈ ids
        · cases g.node? k <;> simp [hHere, hf]
        · subst hHere
          simp [hAgain]
      · simp [hHere]

theorem mem_addMissing {ids new : List NodeId} {c : NodeId} :
    c ∈ addMissing ids new ↔ c ∈ ids ∨ c ∈ new := by
  unfold addMissing
  induction new generalizing ids with
  | nil => simp
  | cons id new ih =>
      rw [List.foldl_cons, ih]
      by_cases h : id ∈ ids
      · simp only [h, if_true, List.mem_cons]
        constructor
        · rintro (hOld | hNew)
          · exact .inl hOld
          · exact .inr (.inr hNew)
        · rintro (hOld | rfl | hNew)
          · exact .inl hOld
          · exact .inl h
          · exact .inr hNew
      · simp [h, or_assoc]

theorem mem_replaceLink {id : NodeId} {new ids : List NodeId} {c : NodeId} :
    c ∈ replaceLink id new ids ↔ c ∈ ids ∧ c ≠ id ∨ c ∈ new := by
  simp [replaceLink, mem_addMissing]

theorem addMissing_of_subset {ids new : List NodeId} (h : ∀ c ∈ new, c ∈ ids) :
    addMissing ids new = ids := by
  unfold addMissing
  induction new with
  | nil => rfl
  | cons id new ih =>
      rw [List.foldl_cons, if_pos (h id (.head _))]
      exact ih fun c hc => h c (.tail _ hc)

/-- A node that is not among its own replacements is replaced once and for all. -/
theorem replaceLink_replaceLink {id : NodeId} {new : List NodeId} (h : id ∉ new)
    (ids : List NodeId) : replaceLink id new (replaceLink id new ids) = replaceLink id new ids := by
  have hGone : (replaceLink id new ids).filter (fun c => decide (c ≠ id)) = replaceLink id new ids := by
    refine List.filter_eq_self.mpr fun c hc => ?_
    rcases mem_replaceLink.mp hc with ⟨_, hOther⟩ | hNew
    · simpa using hOther
    · simpa using fun hSame : c = id => h (hSame ▸ hNew)
  calc
    replaceLink id new (replaceLink id new ids)
      = addMissing (replaceLink id new ids) new := by rw [replaceLink, hGone]
    _ = replaceLink id new ids :=
        addMissing_of_subset fun c hc => mem_replaceLink.mpr (.inr hc)

/-- A node after another one has been removed: what led to that one leads to its children. -/
def bypass (id : NodeId) (parents children : List NodeId) (k : NodeId) (n : Node) : Node :=
  { n with
    children := if k ∈ parents then replaceLink id children n.children else n.children
    parents := if k ∈ children then replaceLink id parents n.parents else n.parents }

/-- The graph in which a node is not there any more, but still linked to. -/
def drop (g : Graph) (id : NodeId) : Graph := { g with nodes := g.nodes.modify id fun _ => none }

theorem node?_drop (id k : NodeId) : (g.drop id).node? k = if k = id then none else g.node? k := by
  unfold node? drop
  rw [Array.getElem?_modify]
  by_cases h : k = id
  · subst h
    cases g.nodes[k]? <;> simp
  · simp [Ne.symm h, h]

/-- A removal of a node, without its root and with its links as plain functions of the old ones. -/
theorem removeNode_spec {id : NodeId} {n : Node} (hn : g.node? id = some n) :
    (∀ k, (g.removeNode id).node? k =
      if k = id then none
      else (g.node? k).map (bypass id (n.parents.filter (g.drop id).isLive)
        (n.children.filter (g.drop id).isLive) k)) ∧
    (g.removeNode id).root =
      (if g.root = some id then (n.children.filter (g.drop id).isLive).head? else g.root) ∧
    (g.removeNode id).method = g.method ∧ (g.removeNode id).entry = g.entry ∧
    (g.removeNode id).piles = g.piles ∧ (g.removeNode id).status = g.status ∧
    (g.removeNode id).heap = g.heap := by
  have hDead : (g.drop id).isLive id = false := by simp [isLive, node?_drop]
  generalize hParents : n.parents.filter (g.drop id).isLive = parents
  generalize hChildren : n.children.filter (g.drop id).isLive = children
  have hNoParent : id ∉ parents := by simp [← hParents, hDead]
  have hNoChild : id ∉ children := by simp [← hChildren, hDead]
  let toChildren : Node → Node := fun m => { m with children := replaceLink id children m.children }
  let toParents : Node → Node := fun m => { m with parents := replaceLink id parents m.parents }
  let joined := children.foldl (fun g c => g.modify c toParents)
    (parents.foldl (fun g p => g.modify p toChildren) (g.drop id))
  have hRemoved : g.removeNode id =
      if joined.root = some id then { joined with root := children.head? } else joined := by
    simp only [removeNode, hn]
    simp only [joined, toChildren, toParents, ← hParents, ← hChildren, drop]
  have hJoined : joined = { g.drop id with nodes := joined.nodes } := by
    simp only [joined]
    rw [foldl_modify_eq, foldl_modify_eq]
  have hRoot : joined.root = g.root := by rw [hJoined]; rfl
  have hNode (k : NodeId) : joined.node? k =
      if k = id then none else (g.node? k).map (bypass id parents children k) := by
    have hTwiceChildren (m : Node) : toChildren (toChildren m) = toChildren m := by
      simp [toChildren, replaceLink_replaceLink hNoChild]
    have hTwiceParents (m : Node) : toParents (toParents m) = toParents m := by
      simp [toParents, replaceLink_replaceLink hNoParent]
    simp only [joined]
    rw [node?_foldl_modify hTwiceParents, node?_foldl_modify hTwiceChildren, node?_drop]
    by_cases hHere : k = id
    · simp [hHere, hNoParent, hNoChild]
    · cases g.node? k with
      | none => simp
      | some m =>
          by_cases hp : k ∈ parents <;> by_cases hc : k ∈ children <;>
            simp [hHere, hp, hc, bypass, toChildren, toParents]
  rw [hRemoved, hRoot]
  have hFields : joined.method = g.method ∧ joined.entry = g.entry ∧ joined.piles = g.piles ∧
      joined.status = g.status ∧ joined.heap = g.heap := by
    rw [hJoined]
    exact ⟨rfl, rfl, rfl, rfl, rfl⟩
  split
  · exact ⟨hNode, rfl, hFields⟩
  · exact ⟨hNode, hRoot, hFields⟩

theorem isLive_drop {id k : NodeId} :
    (g.drop id).isLive k = true ↔ k ≠ id ∧ g.isLive k = true := by
  unfold isLive
  rw [node?_drop]
  by_cases h : k = id <;> simp [h]

/-- Removing a node joins everything that led to it to everything that it led to. -/
theorem mem_childrenOf_removeNode (hg : g.Linked) {id p c : NodeId} {n : Node}
    (hn : g.node? id = some n) :
    c ∈ (g.removeNode id).childrenOf p ↔
      p ≠ id ∧ c ≠ id ∧ (c ∈ g.childrenOf p ∨ p ∈ g.parentsOf id ∧ c ∈ g.childrenOf id) := by
  have hChildren : g.childrenOf id = n.children := by simp [childrenOf, hn]
  have hParents : g.parentsOf id = n.parents := by simp [parentsOf, hn]
  have hKept (c : NodeId) : c ∈ n.children.filter (g.drop id).isLive ↔ c ∈ n.children ∧ c ≠ id := by
    rw [List.mem_filter, isLive_drop, ← hChildren]
    exact ⟨fun h => ⟨h.1, h.2.1⟩, fun h => ⟨h.1, h.2, (hg.live_of_child h.1).2⟩⟩
  by_cases hHere : p = id
  · simp [childrenOf, (removeNode_spec hn).1, hHere]
  · cases hp : g.node? p with
    | none =>
        have hOrphan : p ∉ g.parentsOf id := fun h => by
          have hLive := (hg.live_of_child ((hg.both p id).mpr h)).1
          simp [isLive, hp] at hLive
        have hNone : g.childrenOf p = [] := by simp [childrenOf, hp]
        simp [childrenOf, (removeNode_spec hn).1, hHere, hp, hOrphan]
    | some m =>
        have hOwn : g.childrenOf p = m.children := by simp [childrenOf, hp]
        have hLive : (g.drop id).isLive p = true := isLive_drop.mpr ⟨hHere, by simp [isLive, hp]⟩
        have hResult : (g.removeNode id).childrenOf p =
            if p ∈ n.parents then replaceLink id (n.children.filter (g.drop id).isLive) m.children
            else m.children := by
          simp [childrenOf, (removeNode_spec hn).1, hHere, hp, bypass, hLive]
        rw [hResult, hOwn, hParents, hChildren]
        by_cases hParent : p ∈ n.parents
        · rw [if_pos hParent, mem_replaceLink, hKept]
          tauto
        · have hApart : c ∈ m.children → c ≠ id := fun hc hSame => by
            rw [← hParents, ← hg.both, hOwn, ← hSame] at hParent
            exact hParent hc
          rw [if_neg hParent]
          tauto

theorem mem_parentsOf_removeNode (hg : g.Linked) {id p c : NodeId} {n : Node}
    (hn : g.node? id = some n) :
    p ∈ (g.removeNode id).parentsOf c ↔
      p ≠ id ∧ c ≠ id ∧ (c ∈ g.childrenOf p ∨ p ∈ g.parentsOf id ∧ c ∈ g.childrenOf id) := by
  have hChildren : g.childrenOf id = n.children := by simp [childrenOf, hn]
  have hParents : g.parentsOf id = n.parents := by simp [parentsOf, hn]
  have hKept (p : NodeId) : p ∈ n.parents.filter (g.drop id).isLive ↔ p ∈ n.parents ∧ p ≠ id := by
    rw [List.mem_filter, isLive_drop, ← hParents]
    exact ⟨fun h => ⟨h.1, h.2.1⟩,
      fun h => ⟨h.1, h.2, (hg.live_of_child ((hg.both p id).mpr h.1)).1⟩⟩
  by_cases hHere : c = id
  · simp [parentsOf, (removeNode_spec hn).1, hHere]
  · cases hc : g.node? c with
    | none =>
        have hOrphan (p : NodeId) : c ∉ g.childrenOf p := fun h => by
          have hLive := (hg.live_of_child h).2
          simp [isLive, hc] at hLive
        simp [parentsOf, (removeNode_spec hn).1, hHere, hc, hOrphan]
    | some m =>
        have hOwn : g.parentsOf c = m.parents := by simp [parentsOf, hc]
        have hLive : (g.drop id).isLive c = true := isLive_drop.mpr ⟨hHere, by simp [isLive, hc]⟩
        have hResult : (g.removeNode id).parentsOf c =
            if c ∈ n.children then replaceLink id (n.parents.filter (g.drop id).isLive) m.parents
            else m.parents := by
          simp [parentsOf, (removeNode_spec hn).1, hHere, hc, bypass, hLive]
        rw [hResult, hg.both, hOwn, hParents, hChildren]
        by_cases hChild : c ∈ n.children
        · rw [if_pos hChild, mem_replaceLink, hKept]
          tauto
        · have hApart : p ∈ m.parents → p ≠ id := fun hp hSame => by
            rw [← hChildren, hg.both, hOwn, ← hSame] at hChild
            exact hChild hp
          rw [if_neg hChild]
          tauto

theorem isLive_removeNode {id k : NodeId} {n : Node} (hn : g.node? id = some n) :
    (g.removeNode id).isLive k = true ↔ k ≠ id ∧ g.isLive k = true := by
  unfold isLive
  rw [(removeNode_spec hn).1]
  by_cases h : k = id <;> simp [h]

theorem Linked.removeNode (hg : g.Linked) (id : NodeId) : (g.removeNode id).Linked := by
  cases hn : g.node? id with
  | none => simpa [Graph.removeNode, hn] using hg
  | some n =>
      refine ⟨fun p c => ?_, fun k hk => ?_⟩
      · rw [mem_childrenOf_removeNode hg hn, mem_parentsOf_removeNode hg hn]
      · rw [(removeNode_spec hn).2.1] at hk
        rw [isLive_removeNode hn]
        split at hk
        · have hChild := List.mem_of_head? hk
          rw [List.mem_filter, isLive_drop] at hChild
          exact hChild.2
        · rename_i hOther
          exact ⟨fun hSame => hOther (hSame ▸ hk), hg.root k hk⟩

/-- A removal leaves everything but the links of the other nodes as it is. -/
theorem bare?_removeNode (id k : NodeId) :
    (g.removeNode id).bare? k = if k = id then none else g.bare? k := by
  cases hn : g.node? id with
  | none =>
      have hSame : g.removeNode id = g := by simp [Graph.removeNode, hn]
      rw [hSame]
      by_cases hHere : k = id
      · simp [bare?, hHere, hn]
      · simp [hHere]
  | some n =>
      unfold bare?
      rw [(removeNode_spec hn).1]
      by_cases hHere : k = id
      · simp [hHere]
      · rw [if_neg hHere, if_neg hHere, Option.map_map]
        rfl

theorem removeNode_eq (g : Graph) (id : NodeId) :
    g.removeNode id =
      { g with nodes := (g.removeNode id).nodes, root := (g.removeNode id).root } := by
  cases hn : g.node? id with
  | none => simp [Graph.removeNode, hn]
  | some n =>
      obtain ⟨_, _, hMethod, hEntry, hPiles, hStatus, hHeap⟩ := removeNode_spec hn
      cases hRemoved : g.removeNode id
      simp_all

theorem foldl_removeNode_eq (ids : List NodeId) (g : Graph) :
    ids.foldl removeNode g =
      { g with nodes := (ids.foldl removeNode g).nodes, root := (ids.foldl removeNode g).root } := by
  induction ids generalizing g with
  | nil => rfl
  | cons id ids ih =>
      rw [List.foldl_cons, ih, removeNode_eq]

theorem bare?_foldl_removeNode (ids : List NodeId) (g : Graph) (k : NodeId) :
    (ids.foldl removeNode g).bare? k = if k ∈ ids then none else g.bare? k := by
  induction ids generalizing g with
  | nil => simp
  | cons id ids ih =>
      rw [List.foldl_cons, ih, bare?_removeNode]
      by_cases hHere : k = id <;> simp [hHere]

theorem Linked.foldl_removeNode (hg : g.Linked) (ids : List NodeId) :
    (ids.foldl Graph.removeNode g).Linked := by
  induction ids generalizing g with
  | nil => exact hg
  | cons id ids ih => exact ih (hg.removeNode id)

theorem Linked.of_eq {g' : Graph} (hg : g.Linked) (hNodes : g'.nodes = g.nodes)
    (hRoot : g'.root = g.root) : g'.Linked := by
  have hNode : g'.node? = g.node? := by
    funext id
    simp [node?, hNodes]
  refine ⟨fun p c => ?_, fun id h => ?_⟩
  · simpa [childrenOf, parentsOf, hNode] using hg.both p c
  · simpa [isLive, hNode] using hg.root id (hRoot ▸ h)

theorem removePile_eq (g : Graph) (a : Address) :
    g.removePile a = { g with
      piles := g.piles.filter fun p => p.1 ≠ a
      nodes := (g.removePile a).nodes
      root := (g.removePile a).root } := by
  unfold removePile
  rw [foldl_removeNode_eq]

theorem bare?_removePile (a : Address) (k : NodeId) :
    (g.removePile a).bare? k = if k ∈ g.pile a then none else g.bare? k :=
  bare?_foldl_removeNode _ _ _

theorem Linked.removePile (hg : g.Linked) (a : Address) : (g.removePile a).Linked := by
  have hAway : ({ g with piles := g.piles.filter fun p => p.1 ≠ a } : Graph).Linked :=
    hg.of_eq rfl rfl
  exact hAway.foldl_removeNode _

theorem pile_removePile (a b : Address) :
    (g.removePile a).pile b = if b = a then [] else g.pile b := by
  have hPiles : (g.removePile a).piles = g.piles.filter fun p => p.1 ≠ a := by rw [removePile_eq]
  unfold pile
  rw [hPiles]
  induction g.piles with
  | nil => simp
  | cons p r ih =>
      obtain ⟨c, ids⟩ := p
      by_cases hc : c = a
      · subst hc
        rw [List.filter_cons_of_neg (by simp), ih]
        by_cases hb : b = c
        · simp [hb]
        · simp [List.lookup_cons, beq_false_of_ne hb, hb]
      · rw [List.filter_cons_of_pos (by simpa using hc), List.lookup_cons, List.lookup_cons]
        by_cases hb : b = c
        · simp [hb, hc]
        · simpa [beq_false_of_ne hb] using ih

theorem Piled.removePile {code : Code} (hg : g.Piled code) (a : Address) :
    (g.removePile a).Piled code where
  keys := by
    rw [removePile_eq]
    exact hg.keys.sublist (List.filter_sublist.map _)
  addresses p hp := by
    rw [removePile_eq] at hp
    exact hg.addresses p (List.mem_of_mem_filter hp)
  mem_iff b id := by
    rw [pile_removePile, exists_address_iff, bare?_removePile]
    have hMem := hg.mem_iff b id
    have hHere := hg.mem_iff a id
    rw [exists_address_iff] at hMem hHere
    by_cases hPile : id ∈ g.pile a
    · have hAddress := hHere.mp hPile
      by_cases hb : b = a
      · simp [hb, hPile]
      · simp only [hPile, if_true, Option.map_none, reduceCtorEq, iff_false, hb, if_false, hMem,
          hAddress]
        exact fun hSame => hb (Option.some.inj hSame).symm
    · by_cases hb : b = a
      · subst hb
        simpa [hPile] using mt hHere.mpr hPile
      · simp [hb, hPile, hMem]
  nodup b := by
    rw [pile_removePile]
    split
    · exact List.nodup_nil
    · exact hg.nodup b

theorem mem_insertAddress {a b : Address} {as : List Address} :
    b ∈ insertAddress a as ↔ b = a ∨ b ∈ as := by
  induction as with
  | nil => simp [insertAddress]
  | cons c r ih =>
      unfold insertAddress
      split
      · simp
      · split
        · rename_i hSame
          simp [hSame]
        · simp only [List.mem_cons, ih]
          tauto

theorem mem_ascending {b : Address} {as : List Address} : b ∈ ascending as ↔ b ∈ as := by
  have hFold (sorted : List Address) :
      b ∈ as.foldl (fun sorted a => insertAddress a sorted) sorted ↔ b ∈ as ∨ b ∈ sorted := by
    induction as generalizing sorted with
    | nil => simp
    | cons a r ih =>
        rw [List.foldl_cons, ih, mem_insertAddress, List.mem_cons]
        tauto
  simpa [ascending] using hFold []

theorem insertAddress_pairwise {a : Address} {as : List Address} (h : as.Pairwise (· < ·)) :
    (insertAddress a as).Pairwise (· < ·) := by
  induction as with
  | nil => simp [insertAddress]
  | cons b r ih =>
      obtain ⟨hHead, hTail⟩ := List.pairwise_cons.mp h
      unfold insertAddress
      split
      · rename_i hLess
        refine List.pairwise_cons.mpr ⟨fun c hc => ?_, h⟩
        rcases List.mem_cons.mp hc with rfl | hc
        · exact hLess
        · exact Nat.lt_trans hLess (hHead c hc)
      · split
        · exact h
        · rename_i hNotLess hOther
          refine List.pairwise_cons.mpr ⟨fun c hc => ?_, ih hTail⟩
          rcases mem_insertAddress.mp hc with rfl | hc
          · exact Nat.lt_of_le_of_ne (Nat.le_of_not_lt hNotLess) (Ne.symm hOther)
          · exact hHead c hc

/-- The addresses in a list, each once, grow. -/
theorem ascending_pairwise (as : List Address) : (ascending as).Pairwise (· < ·) := by
  have hFold (sorted : List Address) (h : sorted.Pairwise (· < ·)) :
      (as.foldl (fun sorted a => insertAddress a sorted) sorted).Pairwise (· < ·) := by
    induction as generalizing sorted with
    | nil => exact h
    | cons a r ih => exact ih _ (insertAddress_pairwise h)
  exact hFold [] List.Pairwise.nil

theorem mem_reached {a : Address} :
    a ∈ g.reached ↔ ∃ p ∈ g.piles, p.2 ≠ [] ∧ p.1 = a := by
  simp [reached, mem_ascending, and_assoc]

theorem moveNodes_eq (g : Graph) (a : Address) (ids : List NodeId) :
    g.moveNodes a ids = { g with nodes := (g.moveNodes a ids).nodes } :=
  foldl_modify_eq _ _ _

theorem node?_moveNodes (g : Graph) (a : Address) (ids : List NodeId) (k : NodeId) :
    (g.moveNodes a ids).node? k =
      if k ∈ ids then (g.node? k).map fun n => { n with address := a } else g.node? k :=
  node?_foldl_modify (f := fun n => { n with address := a }) (fun _ => rfl) g k

theorem foldl_moveNodes_eq (moved : List (Address × List NodeId)) (g : Graph) :
    moved.foldl (fun g p => g.moveNodes p.1 p.2) g =
      { g with nodes := (moved.foldl (fun g p => g.moveNodes p.1 p.2) g).nodes } := by
  induction moved generalizing g with
  | nil => rfl
  | cons p r ih => rw [List.foldl_cons, ih, moveNodes_eq]

/-- Where all piles that hold a node have one address, the node ends up at that address. -/
theorem node?_foldl_moveNodes {moved : List (Address × List NodeId)} {k : NodeId} {a : Address}
    (h : ∀ p ∈ moved, k ∈ p.2 → p.1 = a) (g : Graph) :
    (moved.foldl (fun g p => g.moveNodes p.1 p.2) g).node? k =
      if ∃ p ∈ moved, k ∈ p.2 then (g.node? k).map fun n => { n with address := a }
      else g.node? k := by
  induction moved generalizing g with
  | nil => simp
  | cons p r ih =>
      have hRest := ih fun q hq => h q (.tail _ hq)
      rw [List.foldl_cons, hRest, node?_moveNodes]
      by_cases hHere : k ∈ p.2
      · have hAddress := h p (.head _) hHere
        by_cases hAgain : ∃ q ∈ r, k ∈ q.2
        · simp [hHere, hAgain, hAddress, Function.comp_def]
        · simp [hHere, hAgain, hAddress]
      · simp only [List.exists_mem_cons_iff, hHere, false_or, if_false]

/-- The piles with every address replaced by where its instruction is. -/
def movedPiles (g : Graph) (r : Relocation) : List (Address × List NodeId) :=
  g.piles.filterMap fun p => (r.insn? p.1).map fun a => (a, p.2)

theorem mem_movedPiles {r : Relocation} {p : Address × List NodeId} :
    p ∈ g.movedPiles r ↔ ∃ q ∈ g.piles, r.insn? q.1 = some p.1 ∧ q.2 = p.2 := by
  rw [movedPiles, List.mem_filterMap]
  constructor
  · rintro ⟨q, hq, hEntry⟩
    obtain ⟨a, ha, rfl⟩ := Option.map_eq_some_iff.mp hEntry
    exact ⟨q, hq, ha, rfl⟩
  · rintro ⟨q, hq, ha, hIds⟩
    exact ⟨q, hq, by simp [ha, hIds]⟩

theorem Piled.pile_of_mem {code : Code} (hg : g.Piled code) {p : Address × List NodeId}
    (hp : p ∈ g.piles) : g.pile p.1 = p.2 := by
  rw [pile, Lookup.lookup_of_mem hg.keys (k := p.1) (v := p.2) hp]
  rfl

theorem mem_pile_iff (hKeys : (g.piles.map Prod.fst).Nodup) {a : Address} {id : NodeId} :
    id ∈ g.pile a ↔ ∃ ids, (a, ids) ∈ g.piles ∧ id ∈ ids := by
  unfold pile
  constructor
  · intro h
    cases hPile : g.piles.lookup a with
    | none => simp [hPile] at h
    | some ids => exact ⟨ids, Lookup.mem_of_lookup hPile, by simpa [hPile] using h⟩
  · rintro ⟨ids, hMem, h⟩
    simpa [Lookup.lookup_of_mem hKeys hMem] using h

theorem mem_piles_of_pile {a : Address} (h : g.pile a ≠ []) : (a, g.pile a) ∈ g.piles := by
  unfold pile at h ⊢
  cases hPile : g.piles.lookup a with
  | none => simp [hPile] at h
  | some ids => exact Lookup.mem_of_lookup hPile

section Relocate

variable {r : Relocation} {code code' : Code} {move : Nat → Option Nat}

/-- Every instruction that was executed is found by the relocation. -/
theorem exists_insn?_of_kept (hg : g.Piled code) (hr : r.Moves code code' move)
    (hKept : ∀ i, i < code.length → g.pile (code.addressAt i) ≠ [] → (move i).isSome)
    {p : Address × List NodeId} (hp : p ∈ g.piles) (hFull : p.2 ≠ []) :
    ∃ a, r.insn? p.1 = some a := by
  obtain ⟨i, hi, hAddress⟩ := hg.addresses p hp
  have hPile : g.pile (code.addressAt i) ≠ [] := by rwa [hAddress, hg.pile_of_mem hp]
  obtain ⟨j, hj⟩ := Option.isSome_iff_exists.mp (hKept i hi hPile)
  exact ⟨code'.addressAt j, by rw [← hAddress, hr.insn, Code.indexOf?_addressAt hi]; simp [hj]⟩

/-- A node is in no other moved pile than that of the address its own address has become. -/
theorem node?_moved (hg : g.Piled code) (hr : r.Moves code code' move)
    (hKept : ∀ i, i < code.length → g.pile (code.addressAt i) ≠ [] → (move i).isSome)
    {away : Graph} {k : NodeId} (hAway : away.node? k = g.node? k) :
    ((g.movedPiles r).foldl (fun g p => g.moveNodes p.1 p.2) away).node? k =
      (g.node? k).map fun n => { n with address := (r.insn? n.address).getD n.address } := by
  have hHome : ∀ p ∈ g.movedPiles r, k ∈ p.2 →
      ∃ n, g.node? k = some n ∧ r.insn? n.address = some p.1 := fun p hp hIds => by
    obtain ⟨q, hq, hTo, hBoth⟩ := mem_movedPiles.mp hp
    obtain ⟨n, hn, hAt⟩ := (hg.mem_iff q.1 k).mp (by rwa [hg.pile_of_mem hq, hBoth])
    exact ⟨n, hn, hAt ▸ hTo⟩
  cases hk : g.node? k with
  | none =>
      have hNowhere : ∀ p ∈ g.movedPiles r, k ∉ p.2 := fun p hp hIds => by
        obtain ⟨n, hn, _⟩ := hHome p hp hIds
        rw [hk] at hn
        cases hn
      rw [node?_foldl_moveNodes (a := 0) fun p hp hIds => absurd hIds (hNowhere p hp)]
      simp [hAway, hk]
  | some n =>
      have hMem : k ∈ g.pile n.address := (hg.mem_iff _ _).mpr ⟨n, hk, rfl⟩
      have hPile := mem_piles_of_pile (List.ne_nil_of_mem hMem)
      obtain ⟨b, hb⟩ := exists_insn?_of_kept hg hr hKept hPile (List.ne_nil_of_mem hMem)
      have hSomewhere : ∃ p ∈ g.movedPiles r, k ∈ p.2 :=
        ⟨(b, g.pile n.address), mem_movedPiles.mpr ⟨_, hPile, hb, rfl⟩, hMem⟩
      have hOnly : ∀ p ∈ g.movedPiles r, k ∈ p.2 → p.1 = b := fun p hp hMoved => by
        obtain ⟨m, hm, hTo⟩ := hHome p hp hMoved
        rw [hk] at hm
        obtain rfl := Option.some.inj hm
        exact Option.some.inj (hTo.symm.trans hb)
      rw [node?_foldl_moveNodes hOnly, if_pos hSomewhere]
      simp [hAway, hk, hb]

/-- Moving instructions, where all that were executed are kept, takes every node along and changes
nothing else. -/
theorem relocate_spec (hg : g.Piled code) (hr : r.Moves code code' move)
    (hKept : ∀ i, i < code.length → g.pile (code.addressAt i) ≠ [] → (move i).isSome) :
    (∀ k, (g.relocate r).node? k =
      (g.node? k).map fun n => { n with address := (r.insn? n.address).getD n.address }) ∧
    g.relocate r = { g with nodes := (g.relocate r).nodes, piles := g.movedPiles r } := by
  have hNothing : g.reached.filter (fun a => (r.insn? a).isNone) = [] := by
    refine List.filter_eq_nil_iff.mpr fun a ha => ?_
    obtain ⟨p, hp, hFull, rfl⟩ := mem_reached.mp ha
    obtain ⟨b, hb⟩ := exists_insn?_of_kept hg hr hKept hp hFull
    simp [hb]
  have hResult : g.relocate r =
      (g.movedPiles r).foldl (fun g p => g.moveNodes p.1 p.2) { g with piles := g.movedPiles r } := by
    simp only [relocate, hNothing, List.foldl_nil, movedPiles]
  refine ⟨fun k => ?_, ?_⟩
  · rw [hResult]
    exact node?_moved hg hr hKept rfl
  · rw [hResult, foldl_moveNodes_eq]

/-- The position of the instruction that a node executes, in a body where it is at its address. -/
def positionIn (g : Graph) (code : Code) (id : NodeId) : Option Nat :=
  (g.node? id).bind fun n => code.indexOf? n.address

theorem positionIn_relocate (hg : g.Piled code) (hr : r.Moves code code' move)
    (hKept : ∀ i, i < code.length → g.pile (code.addressAt i) ≠ [] → (move i).isSome) (id : NodeId) :
    (g.relocate r).positionIn code' id = (g.positionIn code id).bind move := by
  unfold positionIn
  rw [(relocate_spec hg hr hKept).1]
  cases hn : g.node? id with
  | none => rfl
  | some n =>
      obtain ⟨i, hi, hAddress⟩ := hg.hasAddress hn
      have hPile : g.pile (code.addressAt i) ≠ [] :=
        List.ne_nil_of_mem ((hg.mem_iff _ id).mpr ⟨n, hn, hAddress.symm⟩)
      obtain ⟨j, hj⟩ := Option.isSome_iff_exists.mp (hKept i hi hPile)
      have hIndex : code.indexOf? n.address = some i := hAddress ▸ Code.indexOf?_addressAt hi
      simp [hr.insn, hIndex, hj, Code.indexOf?_addressAt (hr.bound i j hi hj)]

theorem Linked.relocate (hLinked : g.Linked) (hg : g.Piled code) (hr : r.Moves code code' move)
    (hKept : ∀ i, i < code.length → g.pile (code.addressAt i) ≠ [] → (move i).isSome) :
    (g.relocate r).Linked := by
  obtain ⟨hNode, hEq⟩ := relocate_spec hg hr hKept
  have hRoot : (g.relocate r).root = g.root := by rw [hEq]
  refine ⟨fun p c => ?_, fun id h => ?_⟩
  · simpa [childrenOf, parentsOf, hNode, Function.comp_def] using hLinked.both p c
  · simpa [isLive, hNode] using hLinked.root id (hRoot ▸ h)

theorem insn?_injective (hr : r.Moves code code' move) {a b c : Address}
    (ha : r.insn? a = some c) (hb : r.insn? b = some c) : a = b := by
  rw [hr.insn, Option.map_eq_some_iff] at ha hb
  obtain ⟨j, hj, rfl⟩ := ha
  obtain ⟨k, hk, hSame⟩ := hb
  obtain ⟨i, hi, hMove⟩ := Option.bind_eq_some_iff.mp hj
  obtain ⟨i', hi', hMove'⟩ := Option.bind_eq_some_iff.mp hk
  obtain ⟨hLess, rfl⟩ := Code.indexOf?_eq_some_iff.mp hi
  obtain ⟨hLess', rfl⟩ := Code.indexOf?_eq_some_iff.mp hi'
  obtain rfl := Code.addressAt_injective (Nat.le_of_lt (hr.bound _ _ hLess' hMove'))
    (Nat.le_of_lt (hr.bound _ _ hLess hMove)) hSame
  rw [hr.injective _ _ _ hMove hMove']

theorem Piled.relocate (hg : g.Piled code) (hr : r.Moves code code' move)
    (hKept : ∀ i, i < code.length → g.pile (code.addressAt i) ≠ [] → (move i).isSome) :
    (g.relocate r).Piled code' := by
  obtain ⟨hNode, hEq⟩ := relocate_spec hg hr hKept
  have hPiles : (g.relocate r).piles = g.movedPiles r := by rw [hEq]
  have hKeys : ((g.movedPiles r).map Prod.fst).Nodup := by
    have hFirst : (g.movedPiles r).map Prod.fst = (g.piles.map Prod.fst).filterMap r.insn? := by
      simp [movedPiles, List.map_filterMap, List.filterMap_map, Function.comp_def]
    rw [hFirst]
    exact hg.keys.filterMap fun a b c => insn?_injective hr
  have hMem (a : Address) (id : NodeId) :
      id ∈ (g.relocate r).pile a ↔ ∃ b, r.insn? b = some a ∧ id ∈ g.pile b := by
    rw [mem_pile_iff (hPiles ▸ hKeys), hPiles]
    constructor
    · rintro ⟨ids, hIds, h⟩
      obtain ⟨q, hq, hTo, rfl⟩ := mem_movedPiles.mp hIds
      exact ⟨q.1, hTo, by rwa [hg.pile_of_mem hq]⟩
    · rintro ⟨b, hTo, h⟩
      exact ⟨g.pile b,
        mem_movedPiles.mpr ⟨_, mem_piles_of_pile (List.ne_nil_of_mem h), hTo, rfl⟩, h⟩
  refine ⟨hPiles ▸ hKeys, fun p hp => ?_, fun a id => ?_, fun a => ?_⟩
  · obtain ⟨q, hq, hTo, _⟩ := mem_movedPiles.mp (hPiles ▸ hp)
    rw [hr.insn, Option.map_eq_some_iff] at hTo
    obtain ⟨j, hj, hAddress⟩ := hTo
    obtain ⟨i, hi, hMove⟩ := Option.bind_eq_some_iff.mp hj
    exact ⟨j, hr.bound i j (Code.indexOf?_eq_some_iff.mp hi).1 hMove, hAddress⟩
  · rw [hMem, hNode]
    constructor
    · rintro ⟨b, hTo, h⟩
      obtain ⟨n, hn, rfl⟩ := (hg.mem_iff b id).mp h
      exact ⟨_, by rw [hn]; rfl, by simp [hTo]⟩
    · rintro ⟨m, hm, rfl⟩
      obtain ⟨n, hn, rfl⟩ := Option.map_eq_some_iff.mp hm
      have hHome : id ∈ g.pile n.address := (hg.mem_iff _ id).mpr ⟨n, hn, rfl⟩
      obtain ⟨b, hb⟩ := exists_insn?_of_kept hg hr hKept
        (mem_piles_of_pile (List.ne_nil_of_mem hHome)) (List.ne_nil_of_mem hHome)
      exact ⟨n.address, by simp [hb], hHome⟩
  · by_cases hEmpty : (g.relocate r).pile a = []
    · rw [hEmpty]
      exact List.nodup_nil
    · have hEntry := mem_piles_of_pile hEmpty
      rw [hPiles] at hEntry
      obtain ⟨q, hq, _, hIds⟩ := mem_movedPiles.mp hEntry
      have hOld := hg.nodup q.1
      rwa [hg.pile_of_mem hq, hIds] at hOld

end Relocate

end Graph

end Dalvik
