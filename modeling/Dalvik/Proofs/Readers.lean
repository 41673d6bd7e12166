import Dalvik.Proofs.Liveness
import Dalvik.Proofs.Paths
import Mathlib.Logic.Relation

/-!
The search for readers of a register is exact. It comes to an end on every graph, also where links run in circles, and
finds a reader if and only if there is a path to one on which nothing overwrites the register for certain.
-/

namespace Dalvik.DeadCode

open Relation (ReflTransGen)

/-- A node overwrites a register, whatever happens in it. -/
def Overwrites (g : Graph) (r : Register) (K : NodeId) : Prop :=
  ∃ n i, g.node? K = some n ∧ g.method.code.at? n.address = some i ∧ i.writes? = some r ∧ i.mayThrow = false

/-- A node reads a register, or it is not known what it does, or what follows it. -/
def Demands (g : Graph) (r : Register) (K : NodeId) : Prop :=
  ∃ n, g.node? K = some n ∧ ((∃ i, g.method.code.at? n.address = some i ∧ r ∈ i.reads) ∨ n.truncated = true ∨
    g.method.code.at? n.address = none)

variable {g : Graph} {r : Register} {K C T : NodeId} {between : List NodeId}

theorem Demands.needs (h : Demands g r T) : Needs g r T := by
  obtain ⟨n, hn, ⟨i, hi, hReads⟩ | hCut | hLost⟩ := h
  · exact .reads hn hi hReads
  · exact .cut hn hCut
  · exact .lost hn hLost

/-- A need of what follows a node is a need at the end of a path that keeps the register. -/
theorem Needs.exists_path (h : Needs g r C) (hChild : C ∈ g.childrenOf K) :
    ∃ between T, g.Path K between T ∧ (∀ B ∈ between, ¬ Overwrites g r B) ∧ Demands g r T := by
  have hEnds (hHere : Demands g r C) :
      ∃ between T, g.Path K between T ∧ (∀ B ∈ between, ¬ Overwrites g r B) ∧ Demands g r T :=
    ⟨[], C, .link hChild, List.forall_mem_nil _, hHere⟩
  induction h generalizing K with
  | cut hn hCut => exact hEnds ⟨_, hn, .inr (.inl hCut)⟩
  | lost hn hLost => exact hEnds ⟨_, hn, .inr (.inr hLost)⟩
  | reads hn hi hReads => exact hEnds ⟨_, hn, .inl ⟨_, hi, hReads⟩⟩
  | @later C D n i hn hi hKeeps hNext _ ih =>
      have hLink : D ∈ g.childrenOf C := by simpa [Graph.childrenOf, hn] using hNext
      obtain ⟨between, T, hPath, hFree, hDemands⟩ := ih hLink fun hHere =>
        ⟨[], D, .link hLink, List.forall_mem_nil _, hHere⟩
      refine ⟨C :: between, T, .step hChild hPath, List.forall_mem_cons.mpr ⟨?_, hFree⟩, hDemands⟩
      rintro ⟨m, j, hm, hj, hOver⟩
      obtain rfl := Option.some.inj (hm.symm.trans hn)
      obtain rfl := Option.some.inj (hj.symm.trans hi)
      exact hKeeps hOver

/-- What is at the end of a path that keeps the register is a need of what follows the node. -/
theorem exists_needs_of_path (h : g.Path K between T) (hFree : ∀ B ∈ between, ¬ Overwrites g r B)
    (hDemands : Demands g r T) : ∃ C ∈ g.childrenOf K, Needs g r C := by
  induction h with
  | link hLink => exact ⟨_, hLink, hDemands.needs⟩
  | @step K C T between hLink _ ih =>
      obtain ⟨hKeeps, hFree⟩ := List.forall_mem_cons.mp hFree
      obtain ⟨D, hNext, hNeeds⟩ := ih hFree hDemands
      refine ⟨C, hLink, ?_⟩
      cases hn : g.node? C with
      | none => simp [Graph.childrenOf, hn] at hNext
      | some n =>
          have hChild : D ∈ n.children := by simpa [Graph.childrenOf, hn] using hNext
          cases hi : g.method.code.at? n.address with
          | none => exact .lost hn hi
          | some i => exact .later hn hi (fun hOver => hKeeps ⟨n, i, hn, hi, hOver⟩) hChild hNeeds

namespace Search

/-- One turn of the search: the node that was found last is looked at, if no reader has been found. -/
inductive Turns (g : Graph) (r : Register) : Search → Search → Prop
  | pop {s : Search} {id : NodeId} {rest : List NodeId} (hGoesOn : s.found = false) (hNext : s.next = id :: rest) :
    Turns g r s (visit g r { s with next := rest } id)

variable {s t : Search} {id : NodeId} {n : Node} {start : List NodeId}

/-- A turn leaves fewer nodes that have not been looked at, or as many and fewer that are waiting. -/
theorem Turns.lighter (h : Turns g r s t) (hSize : s.seen.size = g.nodes.size) :
    t.seen.size = g.nodes.size ∧ Prod.Lex (· < ·) (· < ·) (t.unseen, t.next.length) (s.unseen, s.next.length) := by
  cases h with
  | @pop id rest _ hNext =>
      obtain ⟨hSame, hLess⟩ := visit_lighter (s := { s with next := rest }) g r id hSize
      refine ⟨hSame.trans hSize, ?_⟩
      rcases hLess with hLess | ⟨hUnseen, hRest⟩
      · exact .left _ _ hLess
      · rw [hUnseen, hRest, hNext]
        exact .right _ (Nat.lt_succ_self _)

/-- The search comes to an end. -/
theorem acc_turns (hSize : s.seen.size = g.nodes.size) : Acc (fun t s => Turns g r s t) s := by
  have hOrder : WellFounded (Prod.Lex (· < · : Nat → Nat → Prop) (· < · : Nat → Nat → Prop)) :=
    (Prod.lex Nat.lt_wfRel Nat.lt_wfRel).wf
  induction hMeasure : (s.unseen, s.next.length) using hOrder.induction generalizing s with
  | h m ih =>
      refine .intro s fun t hTurn => ?_
      obtain ⟨hSame, hLighter⟩ := hTurn.lighter hSize
      exact ih _ (hMeasure ▸ hLighter) hSame rfl

/-- What is known of a search while it goes on: what has been looked at has no need of the register but by what is
waiting, and what has been found is a need. -/
structure Stands (g : Graph) (r : Register) (start : List NodeId) (s : Search) : Prop where
  tracks : s.found = false → Tracks g r start s []
  promises : Promises g r (∃ C ∈ start, Needs g r C) s []

theorem Stands.turn (h : Stands g r start s) (hTurn : Turns g r s t) : Stands g r start t := by
  cases hTurn with
  | @pop id rest hGoesOn hNext =>
      constructor
      · intro hFound
        have hWaits : Tracks g r start { s with next := rest } [id] :=
          (h.tracks hGoesOn).imp rfl (fun K hK => by
            rcases hK with hNone | hSaw | hWaits | hMore
            · exact .inl hNone
            · exact .inr (.inl hSaw)
            · cases hWaits
            · rw [hNext] at hMore
              rcases List.mem_cons.mp hMore with rfl | hRest
              · exact .inr (.inr (.inl (.head _)))
              · exact .inr (.inr (.inr hRest))) fun K n hSaw _ => .inl hSaw
        exact (hWaits.visit hFound).1
      · have hWaits : Promises g r (∃ C ∈ start, Needs g r C) { s with next := rest } [id] :=
          ⟨h.promises.found, fun K hK => h.promises.next K (by simp_all), fun K hK => h.promises.next K (by simp_all)⟩
        exact hWaits.visit

theorem stands_start (g : Graph) (r : Register) (n : Node) : Stands g r n.children (.start g n) :=
  ⟨fun _ => tracks_start g r n, promises_start g r n⟩

/-- A search at its end has found a reader if something that follows the node has need of the register. -/
theorem Stands.found_iff (h : Stands g r start s) (hEnd : ∀ t, ¬ Turns g r s t) :
    s.found = true ↔ ∃ C ∈ start, Needs g r C := by
  refine ⟨h.promises.found, ?_⟩
  rintro ⟨C, hC, hNeeds⟩
  by_contra hNone
  have hGoesOn : s.found = false := by simpa using hNone
  have hDone : s.next = [] := by
    cases hNext : s.next with
    | nil => rfl
    | cons id rest => exact absurd (Turns.pop hGoesOn hNext) (hEnd _)
  exact (h.tracks hGoesOn).not_needs_start hDone hC hNeeds

end Search

theorem isReadLater_iff_needs {n : Node} (hn : g.node? K = some n) :
    isReadLater g r K = true ↔ n.truncated = true ∨ ∃ C ∈ n.children, Needs g r C := by
  refine ⟨exists_needs_of_isReadLater hn, ?_⟩
  rintro (hCut | ⟨C, hC, hNeeds⟩)
  · simp [isReadLater, hn, hCut]
  · by_contra hNone
    exact not_needs_of_isReadLater hn (by simpa using hNone) hC hNeeds

/-- The search from a node comes to an end, and every search that has come to its end tells the same. A register is
read later if and only if successors of the node were not recorded, or there is a path of one link or more to a node
that reads the register, or of which not all is known, and no node between them overwrites the register for certain. -/
theorem isReadLater_exact (g : Graph) (r : Register) (K : NodeId) (n : Node) (hn : g.node? K = some n) :
    Acc (fun t s => Search.Turns g r s t) (.start g n) ∧
      (∀ t, ReflTransGen (Search.Turns g r) (.start g n) t → (∀ u, ¬ Search.Turns g r t u) →
        (isReadLater g r K = true ↔ n.truncated = true ∨ t.found = true)) ∧
      (isReadLater g r K = true ↔ n.truncated = true ∨
        ∃ between T, g.Path K between T ∧ (∀ B ∈ between, ¬ Overwrites g r B) ∧ Demands g r T) := by
  have hChildren : g.childrenOf K = n.children := by simp [Graph.childrenOf, hn]
  refine ⟨Search.acc_turns Array.size_replicate, fun t hRuns hEnd => ?_, ?_⟩
  · have hStands : Search.Stands g r n.children t := by
      clear hEnd
      induction hRuns with
      | refl => exact Search.stands_start g r n
      | tail _ hTurn ih => exact ih.turn hTurn
    rw [isReadLater_iff_needs hn, hStands.found_iff hEnd]
  · rw [isReadLater_iff_needs hn, ← hChildren]
    refine or_congr_right ⟨?_, ?_⟩
    · rintro ⟨C, hC, hNeeds⟩
      exact hNeeds.exists_path hC
    · rintro ⟨between, T, hPath, hFree, hDemands⟩
      exact exists_needs_of_path hPath hFree hDemands

/-- A loop of a nop and a branch, behind which a register is returned. -/
def loopingGraph : Graph :=
  let s := State.blank 1 1
  { Graph.start ⟨⟨⟨"La;"⟩, "m", [.int], .int⟩, {}, 1, [.nop, .branch .eq 1 none 0, .returnValue 0], []⟩ s with
    nodes := #[some ⟨0, s, s, [1], [1], false⟩, some ⟨1, s, s, [0], [0, 2], false⟩, some ⟨3, s, s, [1], [], false⟩]
    piles := [(0, [0]), (1, [1]), (3, [2])]
    root := some 0 }

theorem isReadLater_exact_loopingGraph :
    ∃ n, loopingGraph.node? 0 = some n ∧ n.truncated = false ∧ isReadLater loopingGraph 0 0 = true ∧
      isReadLater loopingGraph 1 2 = false ∧ ∃ between T, loopingGraph.Path 0 between T ∧
        (∀ B ∈ between, ¬ Overwrites loopingGraph 0 B) ∧ Demands loopingGraph 0 T := by
  let n : Node := ⟨0, .blank 1 1, .blank 1 1, [1], [1], false⟩
  have hRead : isReadLater loopingGraph 0 0 = true := by decide
  obtain ⟨_, _, hExact⟩ := isReadLater_exact loopingGraph 0 0 n rfl
  exact ⟨n, rfl, rfl, hRead, by decide, (hExact.mp hRead).resolve_left Bool.false_ne_true⟩

end Dalvik.DeadCode
