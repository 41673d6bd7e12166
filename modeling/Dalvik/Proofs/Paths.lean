import Dalvik.Proofs.Bypassing

/-!
Paths along the links of a graph. Removing executions contracts the paths through them: what is left is joined by a path
if and only if it was before, also where links run in circles and removed executions follow each other.
-/

namespace Dalvik.Graph

/-- Links lead from a node to another one, or back to it, through some nodes. -/
inductive Path (g : Graph) : NodeId → List NodeId → NodeId → Prop
  | link {k l : NodeId} (hLink : l ∈ g.childrenOf k) : Path g k [] l
  | step {k c l : NodeId} {between : List NodeId} (hLink : c ∈ g.childrenOf k) (hRest : Path g c between l) :
    Path g k (c :: between) l

/-- There is a path of one link or more from a node to another one. -/
def Connects (g : Graph) (k l : NodeId) : Prop := ∃ between, g.Path k between l

/-- Piles hold executions of the instruction at their address, and there is one pile for an address. -/
structure Filed (g : Graph) : Prop where
  keys : (g.piles.map Prod.fst).Nodup
  address : ∀ p ∈ g.piles, ∀ id ∈ p.2, g.addressOf? id = some p.1

variable {g : Graph} {a : Address} {id k l c : NodeId} {between : List NodeId}

theorem Connects.link (h : l ∈ g.childrenOf k) : g.Connects k l := ⟨[], .link h⟩

theorem Connects.step (h : c ∈ g.childrenOf k) (hRest : g.Connects c l) : g.Connects k l := by
  obtain ⟨between, hPath⟩ := hRest
  exact ⟨c :: between, .step h hPath⟩

/-- Paths are a matter of the nodes alone. -/
theorem Path.of_nodes {g' : Graph} (hNodes : g'.nodes = g.nodes) (h : g.Path k between l) : g'.Path k between l := by
  have hSame : g'.childrenOf = g.childrenOf := by
    funext id
    simp [childrenOf, node?, hNodes]
  induction h with
  | link hLink => exact .link (hSame ▸ hLink)
  | step hLink _ ih => exact .step (hSame ▸ hLink) ih

/-- Links that are recorded at both ends where there are nodes are so everywhere. -/
theorem linked_of_forall_lt
    (hDown : ∀ k < g.nodes.size, ∀ l ∈ g.childrenOf k, k ∈ g.parentsOf l)
    (hUp : ∀ l < g.nodes.size, ∀ k ∈ g.parentsOf l, l ∈ g.childrenOf k)
    (hRoot : ∀ id, g.root = some id → g.isLive id = true) : g.Linked := by
  have hBound {k : NodeId} {n : Node} (hn : g.node? k = some n) : k < g.nodes.size :=
    lt_size_of_isLive (isLive_iff.mpr ⟨n, hn⟩)
  refine ⟨fun k l => ⟨fun h => ?_, fun h => ?_⟩, hRoot⟩
  · cases hk : g.node? k with
    | none => simp [childrenOf, hk] at h
    | some n => exact hDown k (hBound hk) l h
  · cases hl : g.node? l with
    | none => simp [parentsOf, hl] at h
    | some n => exact hUp l (hBound hl) k h

section RemoveNode

/-- What is joined by a path after a removal was joined before. -/
theorem connects_of_removeNode (hg : g.Linked) (h : (g.removeNode id).Path k between l) : g.Connects k l := by
  induction h with
  | link hLink =>
      obtain ⟨_, _, hOld | ⟨hIn, hOut⟩⟩ := (mem_childrenOf_removeNode_iff hg id).mp hLink
      · exact .link hOld
      · exact .step hIn (.link hOut)
  | step hLink _ ih =>
      obtain ⟨_, _, hOld | ⟨hIn, hOut⟩⟩ := (mem_childrenOf_removeNode_iff hg id).mp hLink
      · exact .step hOld ih
      · exact .step hIn (.step hOut ih)

/-- What was joined by a path is still joined. A path from the removed node itself goes on from a node that it led
to. -/
theorem removeNode_connects (hg : g.Linked) (h : g.Path k between l) (hEnd : l ≠ id) :
    (k ≠ id → (g.removeNode id).Connects k l) ∧
      (k = id → ∃ c ∈ g.childrenOf id, c ≠ id ∧ (c = l ∨ (g.removeNode id).Connects c l)) := by
  have hLinks {k c : NodeId} := mem_childrenOf_removeNode_iff hg id (k := k) (c := c)
  induction h with
  | link hLink =>
      refine ⟨fun hOther => .link (hLinks.mpr ⟨hOther, hEnd, .inl hLink⟩), ?_⟩
      rintro rfl
      exact ⟨_, hLink, hEnd, .inl rfl⟩
  | @step k c l between hLink _ ih =>
      obtain ⟨hElsewhere, hHere⟩ := ih hEnd
      by_cases hc : c = id
      · -- the path goes through the removed node, and so from its parent to one of its children
        obtain ⟨d, hd, hOther, hRest⟩ := hHere hc
        refine ⟨fun hk => ?_, fun _ => ⟨d, hd, hOther, hRest⟩⟩
        have hBypass : d ∈ (g.removeNode id).childrenOf k := hLinks.mpr ⟨hk, hOther, .inr ⟨hc ▸ hLink, hd⟩⟩
        rcases hRest with rfl | hRest
        · exact .link hBypass
        · exact .step hBypass hRest
      · refine ⟨fun hk => .step (hLinks.mpr ⟨hk, hc, .inl hLink⟩) (hElsewhere hc), ?_⟩
        rintro rfl
        exact ⟨c, hLink, hc, .inr (hElsewhere hc)⟩

theorem connects_removeNode_iff (hg : g.Linked) (hk : k ≠ id) (hl : l ≠ id) :
    (g.removeNode id).Connects k l ↔ g.Connects k l := by
  constructor
  · rintro ⟨between, hPath⟩
    exact connects_of_removeNode hg hPath
  · rintro ⟨between, hPath⟩
    exact (removeNode_connects hg hPath hl).1 hk

/-- Nodes are removed one after the other, also where they have been joined to each other by the removals before. -/
theorem connects_foldl_removeNode_iff (hg : g.Linked) {ids : List NodeId} (hk : k ∉ ids) (hl : l ∉ ids) :
    (ids.foldl removeNode g).Connects k l ↔ g.Connects k l := by
  induction ids generalizing g with
  | nil => rfl
  | cons id ids ih =>
      obtain ⟨hk, hkRest⟩ := List.ne_and_not_mem_of_not_mem_cons hk
      obtain ⟨hl, hlRest⟩ := List.ne_and_not_mem_of_not_mem_cons hl
      rw [List.foldl_cons, ih (hg.removeNode id) hkRest hlRest, connects_removeNode_iff hg hk hl]

end RemoveNode

section RemovePile

theorem isLive_removePile :
    (g.removePile a).isLive k = true ↔ g.isLive k = true ∧ k ∉ g.pile a := by
  have hLive (h : Graph) : h.isLive k = (h.bare? k).isSome := by simp [isLive, bare?]
  rw [hLive, hLive, bare?_removePile]
  by_cases hMem : k ∈ g.pile a <;> simp [hMem]

theorem addressOf?_removePile :
    (g.removePile a).addressOf? k = if k ∈ g.pile a then none else g.addressOf? k := by
  have hAddress (h : Graph) : h.addressOf? k = (h.bare? k).map Node.address := by
    simp only [addressOf?, bare?, Option.map_map]
    rfl
  rw [hAddress, hAddress, bare?_removePile]
  split <;> rfl

theorem Filed.removePile (hg : g.Filed) (a : Address) : (g.removePile a).Filed := by
  have hPiles : (g.removePile a).piles = g.piles.filter fun p => p.1 ≠ a := by rw [removePile_eq]
  refine ⟨hPiles ▸ hg.keys.sublist (List.filter_sublist.map _), fun p hp id hid => ?_⟩
  obtain ⟨hOld, hOther⟩ := List.mem_filter.mp (hPiles ▸ hp)
  have hHere := hg.address p hOld id hid
  rw [addressOf?_removePile, if_neg, hHere]
  intro hMem
  -- a node of the removed pile has the address of that pile
  obtain ⟨ids, hIds, hThere⟩ := (mem_pile_iff hg.keys).mp hMem
  have hBoth := hHere.symm.trans (hg.address _ hIds id hThere)
  simp [Option.some.inj hBoth] at hOther

theorem Filed.isLive (hg : g.Filed) {p : Address × List NodeId} (hp : p ∈ g.piles) (hk : k ∈ p.2) :
    g.isLive k = true := by
  obtain ⟨n, hn, _⟩ := addressOf?_eq_some_iff.mp (hg.address p hp k hk)
  exact isLive_iff.mpr ⟨n, hn⟩

/-- The executions of an instruction are removed, and nothing else. Links are still recorded at both ends, and what is
left is joined by a path if and only if it was before. No link and no root is what has been removed, and of what is left
only the links have changed. Where piles held the executions of their addresses they still do, and so none of them holds
what has been removed. -/
theorem removePile_contracts (hLinked : g.Linked) (a : Address) :
    (∀ k, (g.removePile a).isLive k = true ↔ g.isLive k = true ∧ k ∉ g.pile a) ∧
      (∀ k l, (g.removePile a).isLive k = true → (g.removePile a).isLive l = true →
        ((g.removePile a).Connects k l ↔ g.Connects k l)) ∧
      (g.removePile a).Linked ∧
      (∀ k, (g.removePile a).isLive k = false →
        (∀ l, k ∉ (g.removePile a).childrenOf l ∧ k ∉ (g.removePile a).parentsOf l) ∧
          (g.removePile a).root ≠ some k) ∧
      (g.Filed → (g.removePile a).Filed ∧
        ∀ k, (g.removePile a).isLive k = false → ∀ p ∈ (g.removePile a).piles, k ∉ p.2) ∧
      ∀ k n', (g.removePile a).node? k = some n' → ∃ n, g.node? k = some n ∧ n'.address = n.address ∧
        n'.pre = n.pre ∧ n'.post = n.post ∧ n'.truncated = n.truncated := by
  have hAway : ({ g with piles := g.piles.filter fun p => p.1 ≠ a } : Graph).Linked := hLinked.of_eq rfl rfl
  have hLinked' := hLinked.removePile a
  refine ⟨fun k => isLive_removePile, fun k l hk hl => ?_, hLinked', fun k hDead => ⟨fun l => ⟨?_, ?_⟩, ?_⟩,
    fun hFiled => ⟨hFiled.removePile a, fun k hDead p hp hMem => ?_⟩, fun k n' hn' => ?_⟩
  · refine (connects_foldl_removeNode_iff hAway (isLive_removePile.mp hk).2 (isLive_removePile.mp hl).2).trans ?_
    exact exists_congr fun between => ⟨.of_nodes rfl, .of_nodes rfl⟩
  · exact fun hChild => Bool.false_ne_true (hDead.symm.trans (hLinked'.live_of_child hChild).2)
  · exact fun hParent =>
      Bool.false_ne_true (hDead.symm.trans (hLinked'.live_of_child ((hLinked'.both k l).mpr hParent)).1)
  · exact fun hRoot => Bool.false_ne_true (hDead.symm.trans (hLinked'.root k hRoot))
  · exact Bool.false_ne_true (hDead.symm.trans ((hFiled.removePile a).isLive hp hMem))
  · have hBare : (g.removePile a).bare? k = some n'.bare := by rw [bare?, hn']; rfl
    rw [bare?_removePile] at hBare
    split at hBare
    · cases hBare
    · obtain ⟨n, hn, hSame⟩ := Option.map_eq_some_iff.mp hBare
      simp only [Node.bare, Node.mk.injEq] at hSame
      exact ⟨n, hn, hSame.1.symm, hSame.2.1.symm, hSame.2.2.1.symm, hSame.2.2.2.2.2.symm⟩

/-- Two executions of an instruction that lead to each other and to themselves, in a circle with one before them and
one after them. -/
def circlingGraph : Graph :=
  let s := State.blank 0 0
  { start ⟨⟨⟨"La;"⟩, "m", [], .void⟩, {}, 0, [], []⟩ s with
    nodes := #[some ⟨0, s, s, [3], [1], false⟩, some ⟨2, s, s, [0, 1, 2], [1, 2], false⟩,
      some ⟨2, s, s, [1, 2], [1, 2, 3], false⟩, some ⟨4, s, s, [2], [0], false⟩]
    piles := [(0, [0]), (2, [1, 2]), (4, [3])]
    root := some 1 }

theorem removePile_contracts_circlingGraph :
    circlingGraph.Linked ∧ circlingGraph.Filed ∧ (circlingGraph.removePile 2).ids = [0, 3] ∧
      (circlingGraph.removePile 2).root = some 3 ∧ (circlingGraph.removePile 2).Linked ∧
      (circlingGraph.removePile 2).Filed ∧ ((circlingGraph.removePile 2).Connects 0 0 ↔ circlingGraph.Connects 0 0) := by
  have hLinked : circlingGraph.Linked := by
    refine linked_of_forall_lt (by decide) (by decide) fun id hRoot => ?_
    obtain rfl := Option.some.inj hRoot
    decide
  have hFiled : circlingGraph.Filed := ⟨by decide, by decide⟩
  obtain ⟨_, hConnects, hLinks, _, hPiles, _⟩ := removePile_contracts hLinked 2
  exact ⟨hLinked, hFiled, by decide, by decide, hLinks, (hPiles hFiled).1,
    hConnects 0 0 (by decide) (by decide)⟩

end RemovePile

end Dalvik.Graph
