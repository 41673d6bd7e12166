import Dalvik.Pass.DeadCode
import Dalvik.Proofs.Exploration

/-!
What the search for readers of a register finds out. If it finds none then no path that the graph records leads
to an instruction that reads the register before it is overwritten.
-/

namespace Dalvik.DeadCode

/-- An execution, or one that follows it, may read a register before it is overwritten. What is not known of a
path counts as a read. -/
inductive Needs (g : Graph) (r : Register) : NodeId → Prop
  | cut {K : NodeId} {n : Node} (hn : g.node? K = some n) (hCut : n.truncated = true) : Needs g r K
  | lost {K : NodeId} {n : Node} (hn : g.node? K = some n) (hLost : g.method.code.at? n.address = none) :
    Needs g r K
  | reads {K : NodeId} {n : Node} {i : Instruction Address} (hn : g.node? K = some n)
    (hi : g.method.code.at? n.address = some i) (hReads : r ∈ i.reads) : Needs g r K
  | later {K C : NodeId} {n : Node} {i : Instruction Address} (hn : g.node? K = some n)
    (hi : g.method.code.at? n.address = some i) (hKeeps : ¬ (i.writes? = some r ∧ i.mayThrow = false))
    (hChild : C ∈ n.children) (hNeeds : Needs g r C) : Needs g r K

theorem Needs.exists_node {g : Graph} {r : Register} {K : NodeId} (h : Needs g r K) :
    ∃ n, g.node? K = some n := by
  cases h with
  | cut hn | lost hn | reads hn | later hn => exact ⟨_, hn⟩

/-- A node that does not read a register, and that overwrites it or leaves it to the nodes that follow. -/
def Clears (g : Graph) (r : Register) (n : Node) (met : NodeId → Prop) : Prop :=
  ∃ i, g.method.code.at? n.address = some i ∧ r ∉ i.reads ∧ n.truncated = false ∧
    (i.writes? = some r ∧ i.mayThrow = false ∨ ∀ C ∈ n.children, met C)

namespace Search

/-- A node has been looked at. -/
def Saw (s : Search) (K : NodeId) : Prop := s.seen[K]?.getD false = true

/-- A node has been looked at or is going to be, if it exists. -/
def Meets (g : Graph) (s : Search) (waiting : List NodeId) (K : NodeId) : Prop :=
  g.node? K = none ∨ s.Saw K ∨ K ∈ waiting ∨ K ∈ s.next

/-- How a search that began with some nodes stands while some of a round are still to be looked at. -/
structure Tracks (g : Graph) (r : Register) (start : List NodeId) (s : Search) (waiting : List NodeId) :
    Prop where
  size : s.seen.size = g.nodes.size
  start : ∀ K ∈ start, Meets g s waiting K
  cleared : ∀ K n, s.Saw K → g.node? K = some n → Clears g r n (Meets g s waiting)

/-- The search for what follows a node, before anything has been looked at. -/
def start (g : Graph) (n : Node) : Search := ⟨false, Array.replicate g.nodes.size false, n.children.reverse⟩

theorem tracks_start (g : Graph) (r : Register) (n : Node) : Tracks g r n.children (start g n) [] := by
  refine ⟨Array.size_replicate, fun K hK => .inr (.inr (.inr (List.mem_reverse.mpr hK))), fun K m hSaw _ => ?_⟩
  unfold Saw start at hSaw
  rw [Array.getElem?_replicate] at hSaw
  split at hSaw <;> cases hSaw

/-- The number of nodes that have not been looked at. -/
def unseen (s : Search) : Nat := s.seen.toList.count false

variable {g : Graph} {r : Register} {s t : Search} {start waiting waiting' : List NodeId} {K id : NodeId}

theorem Clears.imp {n : Node} {met met' : NodeId → Prop} (h : Clears g r n met) (hMet : ∀ C, met C → met' C) :
    Clears g r n met' := by
  obtain ⟨i, hi, hReads, hWhole, hRest⟩ := h
  exact ⟨i, hi, hReads, hWhole, hRest.imp_right fun hAll C hC => hMet C (hAll C hC)⟩

/-- A search that looks at no more nodes and finds no more is as it was. -/
theorem Tracks.imp (h : Tracks g r start s waiting) (hSize : t.seen.size = s.seen.size)
    (hMeets : ∀ K, Meets g s waiting K → Meets g t waiting' K)
    (hNew : ∀ K n, t.Saw K → g.node? K = some n → s.Saw K ∨ Clears g r n (Meets g t waiting')) :
    Tracks g r start t waiting' where
  size := hSize.trans h.size
  start K hK := hMeets K (h.start K hK)
  cleared K n hSaw hn := (hNew K n hSaw hn).elim
    (fun hOld => Clears.imp (h.cleared K n hOld hn) hMeets) fun hNow => hNow

/-- Looks at a node for the first time. -/
def mark (s : Search) (id : NodeId) : Search := { s with seen := s.seen.setIfInBounds id true }

theorem saw_mark (hBound : id < s.seen.size) : (s.mark id).Saw K ↔ K = id ∨ s.Saw K := by
  unfold Saw mark
  rw [Array.getElem?_setIfInBounds]
  by_cases hSame : id = K
  · simp [hSame, hSame ▸ hBound]
  · simp [hSame, Ne.symm hSame]

theorem mark_of_le (hBeyond : s.seen.size ≤ id) : s.mark id = s := by
  unfold mark
  rw [Array.setIfInBounds_eq_of_size_le hBeyond]

theorem unseen_mark (hBound : id < s.seen.size) (hNew : ¬ s.Saw id) : (s.mark id).unseen + 1 = s.unseen := by
  unfold Saw at hNew
  rw [Array.getElem?_eq_getElem hBound, Option.getD_some, Bool.not_eq_true] at hNew
  unfold unseen mark
  dsimp only
  rw [Array.toList_setIfInBounds, List.count_set (by simpa using hBound)]
  have hOne : 0 < s.seen.toList.count false := by
    refine List.count_pos_iff.mpr ?_
    rw [← hNew]
    exact Array.getElem_mem_toList hBound
  simpa [hNew] using Nat.sub_add_cancel hOne

theorem visit_of_saw (hSaw : s.found = true ∨ s.Saw id) : visit g r s id = s := by
  unfold visit
  rw [if_pos (by rcases hSaw with hFound | hSaw <;> simp_all [Saw])]

theorem visit_of_not_saw (hFound : s.found = false) (hNew : ¬ s.Saw id) :
    visit g r s id =
      match g.node? id with
      | none => s.mark id
      | some n =>
        match g.method.code.at? n.address with
        | none => { s.mark id with found := true }
        | some i =>
          if r ∈ i.reads || n.truncated then { s.mark id with found := true }
          else if i.writes? = some r && !i.mayThrow then s.mark id
          else { s.mark id with next := n.children.reverse ++ s.next } := by
  unfold visit
  rw [if_neg (by simp_all [Saw])]
  rfl

/-- A search goes on as it did once a node has been looked at that reads nothing. -/
theorem Tracks.mark (h : Tracks g r start s (id :: waiting)) (hSeen : t.seen = (s.mark id).seen)
    (hNext : s.next ⊆ t.next) (hClears : ∀ n, g.node? id = some n → Clears g r n (Meets g t waiting)) :
    Tracks g r start t waiting := by
  have hSaw (K : NodeId) : t.Saw K ↔ (s.mark id).Saw K := by rw [Saw, Saw, hSeen]
  by_cases hBound : id < s.seen.size
  · refine h.imp (by rw [hSeen]; exact Array.size_setIfInBounds) (fun K hK => ?_) fun K n hK hn => ?_
    · rcases hK with hNone | hK | hWaits | hMore
      · exact .inl hNone
      · exact .inr (.inl ((hSaw K).mpr ((saw_mark hBound).mpr (.inr hK))))
      · rcases List.mem_cons.mp hWaits with rfl | hWaits
        · exact .inr (.inl ((hSaw K).mpr ((saw_mark hBound).mpr (.inl rfl))))
        · exact .inr (.inr (.inl hWaits))
      · exact .inr (.inr (.inr (hNext hMore)))
    · rcases (saw_mark hBound).mp ((hSaw K).mp hK) with rfl | hOld
      · exact .inr (hClears n hn)
      · exact .inl hOld
  · -- nothing is recorded of what is no node
    have hBeyond := Nat.le_of_not_lt hBound
    rw [mark_of_le hBeyond] at hSeen hSaw
    refine h.imp (by rw [hSeen]) (fun K hK => ?_) fun K n hK _ => .inl ((hSaw K).mp hK)
    rcases hK with hNone | hK | hWaits | hMore
    · exact .inl hNone
    · exact .inr (.inl ((hSaw K).mpr hK))
    · rcases List.mem_cons.mp hWaits with rfl | hWaits
      · refine .inl (Option.eq_none_iff_forall_ne_some.mpr fun n hn => hBound ?_)
        rw [h.size]
        exact Graph.lt_size_of_isLive (Graph.isLive_iff.mpr ⟨n, hn⟩)
      · exact .inr (.inr (.inl hWaits))
    · exact .inr (.inr (.inr (hNext hMore)))

theorem size_mark : (s.mark id).seen.size = s.seen.size := Array.size_setIfInBounds

/-- To look at a node is to look at it for the first time, or to go on to the others. -/
theorem visit_lighter (g : Graph) (r : Register) (id : NodeId) (hSize : s.seen.size = g.nodes.size) :
    (visit g r s id).seen.size = s.seen.size ∧
      ((visit g r s id).unseen < s.unseen ∨
        (visit g r s id).unseen = s.unseen ∧ (visit g r s id).next = s.next) := by
  by_cases hSaw : s.found = true ∨ s.Saw id
  · rw [visit_of_saw hSaw]
    exact ⟨rfl, .inr ⟨rfl, rfl⟩⟩
  obtain ⟨hFound, hNew⟩ := not_or.mp hSaw
  rw [visit_of_not_saw (by simpa using hFound) hNew]
  cases hn : g.node? id with
  | none =>
      refine ⟨size_mark, ?_⟩
      by_cases hBound : id < s.seen.size
      · exact .inl (Nat.lt_of_succ_le (Nat.le_of_eq (unseen_mark hBound hNew)))
      · rw [mark_of_le (Nat.le_of_not_lt hBound)]
        exact .inr ⟨rfl, rfl⟩
  | some n =>
      have hBound : id < s.seen.size := hSize ▸ Graph.lt_size_of_isLive (Graph.isLive_iff.mpr ⟨n, hn⟩)
      have hLess : (s.mark id).unseen < s.unseen := Nat.lt_of_succ_le (Nat.le_of_eq (unseen_mark hBound hNew))
      -- the branches differ in what is found and in what comes next, but not in what has been looked at
      dsimp only
      split
      · exact ⟨size_mark, .inl hLess⟩
      · split
        · exact ⟨size_mark, .inl hLess⟩
        · split <;> exact ⟨size_mark, .inl hLess⟩

/-- After a node has been looked at, fewer of them have not, or the search is going to look at no others. -/
theorem Tracks.visit (h : Tracks g r start s (id :: waiting)) (hGoesOn : (visit g r s id).found = false) :
    Tracks g r start (visit g r s id) waiting ∧
      ((visit g r s id).unseen < s.unseen ∨
        (visit g r s id).unseen = s.unseen ∧ (visit g r s id).next = s.next) := by
  refine ⟨?_, (visit_lighter g r id h.size).2⟩
  by_cases hSaw : s.found = true ∨ s.Saw id
  · rw [visit_of_saw hSaw] at hGoesOn ⊢
    have hHere : s.Saw id := hSaw.resolve_left (by rw [hGoesOn]; exact Bool.false_ne_true)
    refine h.imp rfl (fun K hK => ?_) fun K n hK _ => .inl hK
    rcases hK with hNone | hK | hWaits | hMore
    · exact .inl hNone
    · exact .inr (.inl hK)
    · rcases List.mem_cons.mp hWaits with rfl | hWaits
      · exact .inr (.inl hHere)
      · exact .inr (.inr (.inl hWaits))
    · exact .inr (.inr (.inr hMore))
  · obtain ⟨hFound, hNew⟩ := not_or.mp hSaw
    rw [visit_of_not_saw (by simpa using hFound) hNew] at hGoesOn ⊢
    cases hn : g.node? id with
    | none => exact h.mark rfl (List.Subset.refl _) (by simp [hn])
    | some n =>
        have hOnly {P : Node → Prop} (hP : P n) : ∀ m, g.node? id = some m → P m := fun m hm =>
          Option.some.inj (hn.symm.trans hm) ▸ hP
        rw [hn] at hGoesOn
        dsimp only at hGoesOn ⊢
        cases hi : g.method.code.at? n.address with
        | none =>
            rw [hi] at hGoesOn
            cases hGoesOn
        | some i =>
            rw [hi] at hGoesOn
            dsimp only at hGoesOn ⊢
            split at hGoesOn
            · cases hGoesOn
            · rename_i hReads
              obtain ⟨hReads, hWhole⟩ : r ∉ i.reads ∧ n.truncated = false := by simpa using hReads
              rw [if_neg (by simpa using ⟨hReads, hWhole⟩)]
              split
              · rename_i hWrites
                have hOver : i.writes? = some r ∧ i.mayThrow = false := by simpa using hWrites
                exact h.mark rfl (List.Subset.refl _) (hOnly ⟨i, hi, hReads, hWhole, .inl hOver⟩)
              · refine h.mark rfl (List.subset_append_right _ _)
                  (hOnly ⟨i, hi, hReads, hWhole, .inr fun C hC => ?_⟩)
                exact .inr (.inr (.inr (List.mem_append_left _ (List.mem_reverse.mpr hC))))

theorem found_visit (g : Graph) (r : Register) (s : Search) (id : NodeId) (hFound : s.found = true) :
    (Search.visit g r s id).found = true := by
  rw [visit_of_saw (.inl hFound), hFound]

theorem found_foldl_visit (ids : List NodeId) (hFound : s.found = true) :
    (ids.foldl (Search.visit g r) s).found = true := by
  induction ids generalizing s with
  | nil => exact hFound
  | cons id ids ih => exact ih (found_visit g r s id hFound)

/-- A round leaves fewer nodes that have not been looked at, or none to be looked at next. -/
theorem Tracks.foldl_visit {ids : List NodeId} (h : Tracks g r start s ids)
    (hGoesOn : (ids.foldl (Search.visit g r) s).found = false) :
    Tracks g r start (ids.foldl (Search.visit g r) s) [] ∧
      ((ids.foldl (Search.visit g r) s).unseen < s.unseen ∨
        (ids.foldl (Search.visit g r) s).unseen = s.unseen ∧
          (ids.foldl (Search.visit g r) s).next = s.next) := by
  induction ids generalizing s with
  | nil => exact ⟨h, .inr ⟨rfl, rfl⟩⟩
  | cons id ids ih =>
      rw [List.foldl_cons] at hGoesOn ⊢
      have hHere : (Search.visit g r s id).found = false := by
        by_contra hFound
        rw [found_foldl_visit ids (by simpa using hFound)] at hGoesOn
        cases hGoesOn
      obtain ⟨hNow, hLess⟩ := h.visit hHere
      obtain ⟨hRest, hLess'⟩ := ih hNow hGoesOn
      refine ⟨hRest, ?_⟩
      rcases hLess with hLess | ⟨hSame, hNext⟩
      · exact .inl (Nat.lt_of_le_of_lt (hLess'.elim Nat.le_of_lt fun h => Nat.le_of_eq h.1) hLess)
      · rwa [hSame, hNext] at hLess'

theorem found_rounds (n : Nat) (hFound : s.found = true) : (Search.rounds g r n s).found = true := by
  cases n with
  | zero => exact hFound
  | succ n =>
      unfold Search.rounds
      rw [if_pos (by rw [hFound]; rfl), hFound]

/-- Enough rounds leave no nodes to be looked at next, unless a reader has been found. -/
theorem Tracks.rounds {n : Nat} (h : Tracks g r start s []) (hEnough : s.unseen < n ∨ s.next = [])
    (hGoesOn : (rounds g r n s).found = false) :
    Tracks g r start (rounds g r n s) [] ∧ (rounds g r n s).next = [] := by
  induction n generalizing s with
  | zero => exact ⟨h, hEnough.resolve_left (Nat.not_lt_zero _)⟩
  | succ n ih =>
      unfold Search.rounds at hGoesOn ⊢
      split
      · rename_i hDone
        rw [if_pos hDone] at hGoesOn
        rw [hGoesOn, Bool.false_or, List.isEmpty_iff] at hDone
        exact ⟨h, hDone⟩
      · rename_i hMore
        rw [if_neg hMore] at hGoesOn
        obtain ⟨_, hSome⟩ : s.found = false ∧ s.next ≠ [] := by simpa using hMore
        have hRound : Tracks g r start { s with next := [] } s.next.reverse :=
          h.imp rfl (fun K hK => by
            rcases hK with hNone | hSaw | hWaits | hNext
            · exact .inl hNone
            · exact .inr (.inl hSaw)
            · cases hWaits
            · exact .inr (.inr (.inl (List.mem_reverse.mpr hNext)))) fun K n hSaw _ => .inl hSaw
        have hHere : (s.next.reverse.foldl (Search.visit g r) { s with next := [] }).found = false := by
          by_contra hFound
          rw [found_rounds n (by simpa using hFound)] at hGoesOn
          cases hGoesOn
        obtain ⟨hNow, hLess⟩ := hRound.foldl_visit hHere
        refine ih hNow ?_ hGoesOn
        rcases hLess with hLess | ⟨_, hNone⟩
        · have hBefore := hEnough.resolve_right hSome
          exact .inl (Nat.lt_of_lt_of_le hLess (Nat.le_of_lt_succ hBefore))
        · exact .inr hNone

/-- What a finished search has looked at has no need of the register. -/
theorem Tracks.not_needs (h : Tracks g r start s []) (hDone : s.next = []) (hNeeds : Needs g r K)
    (hSaw : s.Saw K) : False := by
  have hMet {C : NodeId} (hC : Meets g s [] C) : g.node? C = none ∨ s.Saw C := by
    rcases hC with hNone | hSaw | hWaits | hNext
    · exact .inl hNone
    · exact .inr hSaw
    · cases hWaits
    · rw [hDone] at hNext
      cases hNext
  induction hNeeds with
  | cut hn hCut =>
      obtain ⟨_, _, _, hWhole, _⟩ := h.cleared _ _ hSaw hn
      rw [hWhole] at hCut
      cases hCut
  | lost hn hLost =>
      obtain ⟨i, hi, _⟩ := h.cleared _ _ hSaw hn
      rw [hLost] at hi
      cases hi
  | reads hn hi hReads =>
      obtain ⟨j, hj, hNot, _⟩ := h.cleared _ _ hSaw hn
      obtain rfl := Option.some.inj (hj.symm.trans hi)
      exact hNot hReads
  | later hn hi hKeeps hChild hNeeds ih =>
      obtain ⟨j, hj, _, _, hRest⟩ := h.cleared _ _ hSaw hn
      obtain rfl := Option.some.inj (hj.symm.trans hi)
      rcases hMet (hRest.resolve_left hKeeps _ hChild) with hNone | hSaw
      · obtain ⟨m, hm⟩ := hNeeds.exists_node
        rw [hNone] at hm
        cases hm
      · exact ih hSaw

/-- A finished search has looked at all that it began with. -/
theorem Tracks.not_needs_start (h : Tracks g r start s []) (hDone : s.next = []) (hK : K ∈ start) :
    ¬ Needs g r K := by
  intro hNeeds
  obtain ⟨m, hm⟩ := hNeeds.exists_node
  rcases h.start K hK with hNone | hSaw | hWaits | hNext
  · rw [hNone] at hm
    cases hm
  · exact h.not_needs hDone hNeeds hSaw
  · cases hWaits
  · rw [hDone] at hNext
    cases hNext

/-- What a search has found, and what it is going to find below some nodes, is enough for something. -/
structure Promises (g : Graph) (r : Register) (enough : Prop) (s : Search) (waiting : List NodeId) : Prop where
  found : s.found = true → enough
  waiting : ∀ K ∈ waiting, Needs g r K → enough
  next : ∀ K ∈ s.next, Needs g r K → enough

theorem promises_start (g : Graph) (r : Register) (n : Node) :
    Promises g r (∃ C ∈ n.children, Needs g r C) (Search.start g n) [] :=
  ⟨nofun, nofun, fun C hC hNeeds => ⟨C, List.mem_reverse.mp hC, hNeeds⟩⟩

theorem Promises.visit {enough : Prop} (h : Promises g r enough s (id :: waiting)) :
    Promises g r enough (Search.visit g r s id) waiting := by
  have hRest : ∀ K ∈ waiting, Needs g r K → enough := fun K hK => h.waiting K (.tail _ hK)
  have hMark : Promises g r enough (s.mark id) waiting := ⟨h.found, hRest, h.next⟩
  have hHere (hNeeds : Needs g r id) : Promises g r enough { s.mark id with found := true } waiting :=
    ⟨fun _ => h.waiting id (.head _) hNeeds, hRest, h.next⟩
  by_cases hSaw : s.found = true ∨ s.Saw id
  · rw [visit_of_saw hSaw]
    exact ⟨h.found, hRest, h.next⟩
  · obtain ⟨hFound, hNew⟩ := not_or.mp hSaw
    rw [visit_of_not_saw (by simpa using hFound) hNew]
    cases hn : g.node? id with
    | none => exact hMark
    | some n =>
        dsimp only
        cases hi : g.method.code.at? n.address with
        | none => exact hHere (.lost hn hi)
        | some i =>
            dsimp only
            split
            · rename_i hReads
              rcases Bool.or_eq_true_iff.mp hReads with hReads | hCut
              · exact hHere (.reads hn hi (of_decide_eq_true hReads))
              · exact hHere (.cut hn hCut)
            · split
              · exact hMark
              · rename_i hKeeps
                refine ⟨h.found, hRest, fun K hK hNeeds => ?_⟩
                rcases List.mem_append.mp hK with hChild | hOld
                · exact h.waiting id (.head _)
                    (.later hn hi (by simpa using hKeeps) (List.mem_reverse.mp hChild) hNeeds)
                · exact h.next K hOld hNeeds

theorem Promises.foldl_visit {enough : Prop} {ids : List NodeId} (h : Promises g r enough s ids) :
    Promises g r enough (ids.foldl (Search.visit g r) s) [] := by
  induction ids generalizing s with
  | nil => exact h
  | cons id ids ih => exact ih h.visit

theorem Promises.rounds {enough : Prop} (n : Nat) (h : Promises g r enough s []) :
    Promises g r enough (Search.rounds g r n s) [] := by
  induction n generalizing s with
  | zero => exact h
  | succ n ih =>
      unfold Search.rounds
      split
      · exact h
      · refine ih (Promises.foldl_visit ⟨h.found, fun K hK => h.next K (List.mem_reverse.mp hK), nofun⟩)

end Search

/-- If some path from an execution may read a register before it is overwritten, then it is not known where
the execution leads, or something that follows it has need of the register. -/
theorem exists_needs_of_isReadLater {g : Graph} {r : Register} {K : NodeId} {n : Node}
    (hn : g.node? K = some n) (h : isReadLater g r K = true) :
    n.truncated = true ∨ ∃ C ∈ n.children, Needs g r C := by
  unfold isReadLater at h
  rw [hn] at h
  refine (Bool.or_eq_true_iff.mp h).imp id fun hFound => ?_
  exact ((Search.promises_start g r n).rounds _).found hFound

/-- If no path from an execution reads a register before it is overwritten, then nothing that follows the
execution has need of it. -/
theorem not_needs_of_isReadLater {g : Graph} {r : Register} {K C : NodeId} {n : Node}
    (hn : g.node? K = some n) (h : isReadLater g r K = false) (hChild : C ∈ n.children) : ¬ Needs g r C := by
  unfold isReadLater at h
  rw [hn] at h
  obtain ⟨_, hGoesOn⟩ := Bool.or_eq_false_iff.mp h
  have hEnough : (Search.start g n).unseen < g.nodes.size + 1 := by
    simp [Search.unseen, Search.start]
  obtain ⟨hTracks, hDone⟩ := (Search.tracks_start g r n).rounds (.inl hEnough) hGoesOn
  exact hTracks.not_needs_start hDone hChild

end Dalvik.DeadCode
