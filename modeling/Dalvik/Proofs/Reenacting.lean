import Dalvik.Proofs.Descent
import Dalvik.Proofs.Simulation

/-!
Runs that are told by the graph of another run. Every execution takes the place of one that the graph
records, and executions of instructions that are gone are passed over. Such a run walks down the graph, and
leaves nothing of it out.
-/

namespace Dalvik

namespace Graph

/-- A step leads to the places where the children of an execution are joined, and to no others. -/
structure Continues (G : Graph) (joined : Heap → Address → State → NodeId → Prop) (K : NodeId) (step : Step)
    (k : Heap) : Prop where
  forward : ∀ p ∈ step.successors, ∃ C ∈ G.childrenOf K, joined k p.1 p.2 C
  backward : ∀ C ∈ G.childrenOf K, ∃ p ∈ step.successors, joined k p.1 p.2 C

/-- What makes a run one that a graph tells. `joined` says in which states executions of the run take the place of
one of the graph, or of what that leads to if its instruction is not kept. `label` says where the places of the
graph are in the run, `cost` what an execution of the graph takes of the budget, and `mayFail` whether a step of
the run may fail. -/
structure Tells (G : Graph) (c : Semantics.Context) (label : Address → Address) (kept : Address → Prop)
    (cost : NodeId → Nat) (mayFail : Prop) (joined : Heap → Address → State → NodeId → Prop) : Prop where
  node : ∀ k a pre K, joined k a pre K → ∃ N, G.node? K = some N ∧ a = label N.address
  grow : ∀ k k' a pre K, joined k a pre K → k.Grows k' → joined k' a pre K
  charged : ∀ k a pre K, joined k a pre K → cost K ≠ 0
  gone : ∀ k a pre K N, joined k a pre K → G.node? K = some N → ¬ kept N.address →
    (∃ C, C ∈ G.childrenOf K) ∧ ∀ C ∈ G.childrenOf K, joined k a pre C
  step : ∀ u a pre K N, joined u.heap a pre K → G.node? K = some N → kept N.address → cost K ≤ u.budget →
    Run.Ends (c.apply a pre) u
      (fun step v => u.heap.Grows v.heap ∧ v.budget + cost K = u.budget + 1 ∧
        G.Continues joined K step v.heap)
      fun _ _ => mayFail
  again : ∀ u v a pre K N step, joined u.heap a pre K → G.node? K = some N → kept N.address →
    c.apply a pre u = (.ok step, v) → v.budget ≠ 0 → G.Continues joined K step v.heap
  injective : ∀ K L N M, G.node? K = some N → G.node? L = some M → kept N.address → kept M.address →
    label N.address = label M.address → N.address = M.address

/-- A state in which an execution takes the place of one of the graph whose instruction is kept. -/
def Mates (G : Graph) (kept : Address → Prop) (joined : Heap → Address → State → NodeId → Prop) (k : Heap)
    (a : Address) (pre : State) (K : NodeId) : Prop :=
  joined k a pre K ∧ ∃ N, G.node? K = some N ∧ kept N.address

namespace Tells

variable {G g : Graph} {c c' : Semantics.Context} {label : Address → Address} {kept : Address → Prop}
  {cost : NodeId → Nat} {mayFail : Prop} {joined : Heap → Address → State → NodeId → Prop}
  {maxVisits maxVisits' : Nat} {entry entry' : State} {s t s' t' : Supply} {log log' : List Performance}
  {k : Heap} {a : Address} {pre : State} {K C id : NodeId} {N n : Node} {step : Step}

/-- What takes the place of an execution takes that of the first one after it whose instruction is kept. -/
theorem exists_mate (h : G.Tells c label kept cost mayFail joined)
    (hG : G.Recording c' maxVisits' entry' s' log' t') (hJoined : joined k a pre K) :
    ∃ D, G.Below K D ∧ G.Mates kept joined k a pre D := by
  induction hSize : G.nodes.size - K using Nat.strongRecOn generalizing K with
  | ind size ih =>
      obtain ⟨N, hN, _⟩ := h.node _ _ _ _ hJoined
      by_cases hKept : kept N.address
      · exact ⟨K, .refl, hJoined, N, hN, hKept⟩
      · obtain ⟨⟨C, hChild⟩, hAll⟩ := h.gone _ _ _ _ _ hJoined hN hKept
        have hLess := (hG.parent_of_child hChild).1
        have hBelow := lt_size_of_isLive (isLive_iff.mpr ⟨N, hN⟩)
        obtain ⟨D, hUpper, hMates⟩ := ih _ (hSize ▸ Nat.sub_lt_sub_left hBelow hLess) (hAll C hChild) rfl
        exact ⟨D, .head hChild hUpper, hMates⟩

/-- What a step leads to has its mates in different branches of the graph. -/
theorem exists_mates (h : G.Tells c label kept cost mayFail joined)
    (hG : G.Recording c' maxVisits' entry' s' log' t') (hContinues : G.Continues joined K step k)
    (hNodup : (step.successors.map Prod.fst).Nodup) :
    ∃ Ds, List.Forall₂ (fun p D => G.Mates kept joined k p.1 p.2 D) step.successors Ds ∧
      Ds.Pairwise G.Separate ∧ ∀ D ∈ Ds, G.Below K D ∧ K < D := by
  have hAll : ∀ p ∈ step.successors, ∃ D, ∃ C ∈ G.childrenOf K,
      joined k p.1 p.2 C ∧ G.Below C D ∧ G.Mates kept joined k p.1 p.2 D := by
    intro p hp
    obtain ⟨C, hChild, hJoined⟩ := hContinues.forward p hp
    obtain ⟨D, hBelow, hThere⟩ := h.exists_mate hG hJoined
    exact ⟨D, C, hChild, hJoined, hBelow, hThere⟩
  obtain ⟨Ds, hDs⟩ := exists_forall₂ hAll
  refine ⟨Ds, hDs.imp fun p D hD => ?_, ?_, fun D hD => ?_⟩
  · obtain ⟨_, _, _, _, hThere⟩ := hD
    exact hThere
  · refine pairwise_of_forall₂ hDs (List.pairwise_map.mp hNodup) ?_
    rintro p p' D D' ⟨C, hChild, hJoined, hBelow, _⟩ ⟨C', hChild', hJoined', hBelow', _⟩ hOther
    refine Separate.below (fun L hL hL' => hOther ?_) hBelow hBelow'
    obtain rfl := hG.child_eq_of_below hChild hChild' hL hL'
    obtain ⟨N, hN, hPlace⟩ := h.node _ _ _ _ hJoined
    obtain ⟨N', hN', hPlace'⟩ := h.node _ _ _ _ hJoined'
    obtain rfl := Option.some.inj (hN.symm.trans hN')
    exact hPlace.trans hPlace'.symm
  · obtain ⟨p, _, C, hChild, _, hBelow, _⟩ := exists_of_forall₂ hDs.flip hD
    exact ⟨.head hChild hBelow, Nat.lt_of_lt_of_le (hG.parent_of_child hChild).1 (hG.le_of_below hBelow)⟩

/-- A run that a graph tells walks down it. -/
theorem tours (h : G.Tells c label kept cost mayFail joined)
    (hG : G.Recording c' maxVisits' entry' s' log' t') (hMost : ∀ a, (G.pile a).length ≤ maxVisits) :
    G.Tours c maxVisits (fun K => label (((G.node? K).map Node.address).getD 0)) cost mayFail
      (G.Mates kept joined) where
  live k a pre K hMates := by
    obtain ⟨_, N, hN, _⟩ := hMates
    exact isLive_iff.mpr ⟨N, hN⟩
  place k a pre K hMates := by
    obtain ⟨N, hN, hPlace⟩ := h.node _ _ _ _ hMates.1
    simp [hN, hPlace]
  most a := by
    -- what is left of two instructions is never at one place, so that one pile is enough
    by_cases hSome : ∃ k pre K, G.Mates kept joined k a pre K
    · obtain ⟨k, pre, K, hJoined, N, hN, hKept⟩ := hSome
      obtain ⟨N₁, hN₁, hPlace⟩ := h.node _ _ _ _ hJoined
      obtain rfl := Option.some.inj (hN₁.symm.trans hN)
      refine ⟨G.pile N₁.address, hMost _, fun k' pre' K' hMates => ?_⟩
      obtain ⟨hJoined', N', hN', hKept'⟩ := hMates
      obtain ⟨N₂, hN₂, hPlace'⟩ := h.node _ _ _ _ hJoined'
      obtain rfl := Option.some.inj (hN₂.symm.trans hN')
      have hSame := h.injective _ _ _ _ hN₂ hN hKept' hKept (hPlace'.symm.trans hPlace)
      exact (hG.piled.mem_iff _ _).mpr ⟨N₂, hN₂, hSame⟩
    · exact ⟨[], Nat.zero_le _, fun k pre K hMates => absurd ⟨k, pre, K, hMates⟩ hSome⟩
  grow k k' a pre K hMates hk := ⟨h.grow _ _ _ _ _ hMates.1 hk, hMates.2⟩
  charged k a pre K hMates := h.charged _ _ _ _ hMates.1
  step u a pre K hMates hPaid := by
    obtain ⟨hJoined, N, hN, hKept⟩ := hMates
    refine (h.step u a pre K N hJoined hN hKept hPaid).noting.imp
      (fun step v ⟨hRun, hGrows, hSpent, hContinues⟩ => ⟨hGrows, hSpent, ?_⟩) fun _ _ hFails => hFails
    exact h.exists_mates hG hContinues (Semantics.Context.nodup_apply hRun)

section

variable (h : G.Tells c label kept cost mayFail joined)
  (hG : G.Recording c' maxVisits' entry' s' log' t')
  (hg : g.Recording c maxVisits entry s log t) (hFrugal : ∀ a pre, Run.Frugal (c.apply a pre))
  (hLeft : ∀ r ∈ log, r.after.budget ≠ 0)

include h hG hg hFrugal hLeft

/-- Every execution of the run takes the place of one of the graph. -/
theorem exists_mate_of_node (hEntry : joined s.heap 0 entry 0) (hn : g.node? id = some n) :
    ∃ r K, log[id]? = some r ∧ G.Mates kept joined r.before.heap n.address n.pre K := by
  obtain ⟨r, hr, _⟩ := hg.records id n hn
  suffices hMates : ∃ K, G.Mates kept joined r.before.heap n.address n.pre K by
    obtain ⟨K, hMates⟩ := hMates
    exact ⟨r, K, hr, hMates⟩
  refine hg.induct (P := fun heap a pre => ∃ K, G.Mates kept joined heap a pre K) hFrugal ?_ ?_ hn hr
  · obtain ⟨K, _, hMates⟩ := h.exists_mate hG hEntry
    exact ⟨K, hMates⟩
  · rintro p np rp _ hrp hRecords ⟨K, hJoined, N, hN, hKept⟩ q hq later hLater
    have hContinues := h.again _ _ _ _ _ _ _ hJoined hN hKept hRecords.applied
      (hLeft rp (List.mem_of_getElem? hrp))
    obtain ⟨C, _, hChild⟩ := hContinues.forward q hq
    obtain ⟨D, _, hMates⟩ := h.exists_mate hG (h.grow _ _ _ _ _ hChild hLater)
    exact ⟨D, hMates⟩

/-- If the run is complete, something takes the place of every execution of the graph, or of what follows
it. -/
theorem exists_joined_of_node (hDone : g.status = .completed) (hEntry : joined s.heap 0 entry 0)
    (hCode : c.method.code ≠ []) (hN : G.node? K = some N) :
    ∃ id n r, g.node? id = some n ∧ log[id]? = some r ∧ joined r.before.heap n.address n.pre K := by
  induction K using Nat.strongRecOn generalizing N with
  | ind K ih =>
      by_cases hFirst : K = 0
      · subst hFirst
        obtain ⟨n, r, hn, hr, hPlace, hPre, hBefore⟩ := hg.exists_first hDone hCode
        exact ⟨0, n, r, hn, hr, by rwa [hPlace, hPre, hBefore]⟩
      · obtain ⟨P, hLess, hChild⟩ := hG.exists_childrenOf hN hFirst
        obtain ⟨NP, hNP⟩ := isLive_iff.mp (hG.linked.live_of_child hChild).1
        obtain ⟨id, n, r, hn, hr, hJoined⟩ := ih P hLess hNP
        by_cases hKept : kept NP.address
        · obtain ⟨r', hr', hRecords⟩ := hg.records id n hn
          obtain rfl := Option.some.inj (hr'.symm.trans hr)
          have hContinues := h.again _ _ _ _ _ _ _ hJoined hNP hKept hRecords.applied
            (hLeft r' (List.mem_of_getElem? hr))
          obtain ⟨p, hp, hThere⟩ := hContinues.backward K hChild
          obtain ⟨id', n', r', hMore, hn', hr', _, rfl⟩ := hg.exists_child hDone hn hr hp
          have hLater := hg.successive.grows_between (hg.grows_of_mem hFrugal) hMore hr hr'
          exact ⟨id', n', r', hn', hr', h.grow _ _ _ _ _ hThere hLater⟩
        · exact ⟨id, n, r, hn, hr, (h.gone _ _ _ _ _ hJoined hNP hKept).2 K hChild⟩

end

end Tells

end Graph

namespace Machine

variable {m : Machine} {method method' : Method} {entry : State} {G : Graph} {label : Address → Address}
  {kept : Address → Prop} {cost : NodeId → Nat} {mayFail : Prop}
  {joined : Heap → Address → State → NodeId → Prop}

/-- A run that the graph of an execution tells, and that its budget pays for, is complete, unless it fails. -/
theorem execute_told (hRun : m.execute method entry = .ok G)
    (h : G.Tells (m.context method' 0) label kept cost mayFail joined)
    (hTotal : ((List.range G.nodes.size).map cost).sum ≤ m.limits.maxNodes)
    (hEntry : method'.code ≠ [] → joined (.after entry) 0 entry 0) (hValid : method'.validate = .ok ()) :
    (∃ g, m.execute method' entry = .ok g ∧ g.status = .completed) ∨
      mayFail ∧ ∃ e, m.execute method' entry = .error e := by
  obtain ⟨log, t, hRecording, _⟩ := execute_funded hRun
  obtain ⟨_, g₀, t₀, hExplore, rfl⟩ := execute_eq_ok_iff.mp hRun
  obtain ⟨_, hMost⟩ := explore_within (m.callAt_frugal 0) hExplore
  have hMates (hCode : method'.code ≠ []) :
      ∃ K, Graph.Mates { g₀ with heap := t₀.heap } kept joined (.after entry) 0 entry K := by
    obtain ⟨K, _, hMates⟩ := h.exists_mate hRecording (hEntry hCode)
    exact ⟨K, hMates⟩
  have hEnds := explore_tours (m := m) (s := ⟨.after entry, m.limits.maxNodes⟩)
    (h.tours hRecording hMost) (fun _ _ hBelow => hRecording.le_of_below hBelow) hTotal hMates
  unfold Run.Ends at hEnds
  split at hEnds
  · rename_i g₁ t₁ hAgain
    exact .inl ⟨_, execute_eq_ok_iff.mpr ⟨hValid, g₁, t₁, hAgain, rfl⟩, hEnds⟩
  · rename_i e t₁ hFails
    refine .inr ⟨hEnds, ?_⟩
    cases hAgain : m.execute method' entry with
    | error e => exact ⟨e, rfl⟩
    | ok g =>
        obtain ⟨_, g₁, t₂, hExplore', _⟩ := execute_eq_ok_iff.mp hAgain
        have hBoth := hFails.symm.trans hExplore'
        cases hBoth

end Machine

end Dalvik
