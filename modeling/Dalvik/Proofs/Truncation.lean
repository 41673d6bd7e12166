import Dalvik.Proofs.DeadCode
import Dalvik.Proofs.Liveness
import Mathlib.Data.List.Pairwise

/-!
What is known of a run that was cut off at a limit. Its graph is where the graph of the complete run begins: paths
of the complete one lead along it up to a node that says that something is missing. Hence nothing that the complete
graph finds to be needed goes unnoticed, as long as all executions of an instruction are there.
-/

namespace Dalvik

open Semantics (Context)

namespace Semantics.Context

variable {cs : Classes} {method : Method} {call call' : Method → List Value → Run (Option Effect)}

/-- What is known of calls of local methods matters only where one that has a body is called. -/
theorem apply_congr (hCalls : ∀ i ∈ method.code, RunsNoBody ⟨cs, method, call⟩ i) (a : Address) (pre : State) :
    apply ⟨cs, method, call⟩ a pre = apply ⟨cs, method, call'⟩ a pre := by
  cases hi : method.code.at? a with
  | none =>
      unfold apply
      dsimp only
      rw [hi]
  | some i =>
      have hNone := hCalls i (Code.mem_of_at? hi)
      rw [apply_eq _ pre hi, apply_eq _ pre hi]
      refine congrArg (· >>= _) ?_
      cases i with
      | invoke kind m args =>
          dsimp only [execute, invoke]
          refine congrArg _ (funext fun values => ?_)
          refine congrArg (ite _ _) ?_
          unfold invokePresent
          cases hFind : FrameworkMethod.find? m with
          | some f => rfl
          | none =>
              dsimp only
              rw [invokeOther_eq, invokeOther_eq]
              have hCallee := hNone kind m args rfl hFind
              have hSame : callee? ⟨cs, method, call'⟩ kind m = none := hCallee
              rw [hCallee, hSame]
      | _ => rfl

end Semantics.Context

namespace Graph

/-- Executions of two graphs to which the same way has led. -/
inductive Twins (g G : Graph) : NodeId → NodeId → Prop
  | root : Twins g G 0 0
  | child {k K c C : NodeId} {n N : Node} (h : Twins g G k K) (hc : c ∈ g.childrenOf k) (hC : C ∈ G.childrenOf K)
    (hn : g.node? c = some n) (hN : G.node? C = some N) (hPlace : n.address = N.address) : Twins g G c C

namespace Recording

variable {g G : Graph} {c c' : Context} {maxVisits maxVisits' : Nat} {entry entry' : State} {s s' t t' : Supply}
  {log log' : List Performance} {k K : NodeId}

/-- What a graph records hangs on the steps of a method only. -/
theorem congr (h : g.Recording c maxVisits entry s log t) (hMethod : c.method = c'.method)
    (hSteps : ∀ a pre, c.apply a pre = c'.apply a pre) : g.Recording c' maxVisits entry s log t where
  sameMethod := h.sameMethod.trans hMethod
  sameEntry := h.sameEntry
  entered := hMethod ▸ h.entered
  linked := h.linked
  piled := hMethod ▸ h.piled
  live := h.live
  ascending := h.ascending
  length := h.length
  successive := h.successive
  records id n hn := by
    obtain ⟨r, hr, hRecords⟩ := h.records id n hn
    exact ⟨r, hr, hSteps _ _ ▸ hRecords.applied, hRecords.post, hRecords.children, hRecords.complete⟩
  completed := hMethod ▸ h.completed
  unmarked := h.unmarked

/-- A node follows another one at an address only once. -/
theorem child_unique (h : g.Recording c maxVisits entry s log t) {p x y : NodeId} {n m : Node}
    (hx : x ∈ g.childrenOf p) (hy : y ∈ g.childrenOf p) (hn : g.node? x = some n) (hm : g.node? y = some m)
    (hPlace : n.address = m.address) : x = y := by
  obtain ⟨np, hnp⟩ := isLive_iff.mp (h.linked.live_of_child hx).1
  obtain ⟨r, _, hRecords⟩ := h.records p np hnp
  have hNodup : (g.places np.children).Pairwise fun u v => u.1 ≠ v.1 :=
    (List.pairwise_map.mp (Semantics.Context.nodup_apply hRecords.applied)).sublist hRecords.children
  rw [places, List.pairwise_filterMap] at hNodup
  have : Std.Symm fun u v : NodeId => ∀ a, (g.node? u).map (fun n => (n.address, n.pre)) = some a →
      ∀ b, (g.node? v).map (fun n => (n.address, n.pre)) = some b → a.1 ≠ b.1 :=
    ⟨fun u v hApart a ha b hb => (hApart b hb a ha).symm⟩
  by_contra hOther
  exact hNodup.forall ((mem_children hnp).mp hx) ((mem_children hnp).mp hy) hOther _ (by rw [hn]; rfl) _
    (by rw [hm]; rfl) hPlace

end Recording

/-- Two explorations of a method from one entry, of which the second is complete. -/
structure Shortens (c : Context) (g G : Graph) (maxVisits maxVisits' : Nat) (entry : State) (s s' t t' : Supply)
    (log log' : List Performance) : Prop where
  steady : ∀ a pre, Run.Steady (c.apply a pre)
  mirrors : c.CallsMirror
  returns : c.CallsReturn
  first : g.Recording c maxVisits entry s log t
  found : ∀ r ∈ log, r.before.budget ≠ 0
  second : G.Recording c maxVisits' entry s' log' t'
  completed : G.status = .completed
  paid : ∀ r ∈ log', r.Paid
  direct : entry.Direct
  heap : s.heap = .after entry
  heap' : s'.heap = .after entry

/-- A state is that of an execution of a graph but for the names of instances. -/
def Copies (G : Graph) (log' : List Performance) (h : Heap) (a : Address) (pre : State) (K : NodeId) : Prop :=
  ∃ Λ N R, G.node? K = some N ∧ log'[K]? = some R ∧ a = N.address ∧ Links.Bond Λ h R.before.heap ∧
    Λ.Renames State.rename pre N.pre

namespace Shortens

variable {c : Context} {g G : Graph} {maxVisits maxVisits' : Nat} {entry : State} {s s' t t' : Supply}
  {log log' : List Performance} {k x K C : NodeId} {n m N : Node} {r : Performance}

theorem frugal (h : Shortens c g G maxVisits maxVisits' entry s s' t t' log log') (a : Address) (pre : State) :
    Run.Frugal (c.apply a pre) := (h.steady a pre).frugal

/-- A step that has left something of its budget is that of the complete run but for the names of instances. -/
theorem renames_step (h : Shortens c g G maxVisits maxVisits' entry s s' t t' log log') {Λ : Links} {a : Address}
    {pre : State} {R : Performance} {u v : Supply} {step : Step} (hN : G.node? K = some N) (hR : log'[K]? = some R)
    (hPlace : a = N.address) (hBond : Λ.Bond u.heap R.before.heap) (hPre : Λ.Renames State.rename pre N.pre)
    (hRun : c.apply a pre u = (.ok step, v)) (hLeft : v.budget ≠ 0) :
    ∃ Λ' : Links, Λ'.Bond v.heap R.after.heap ∧ Λ'.Renames Step.rename step R.step := by
  obtain ⟨R', hR', hRecords⟩ := h.second.records K N hN
  obtain rfl := Option.some.inj (hR'.symm.trans hR)
  subst hPlace
  obtain ⟨Λ', hΛ, hBudget, hResult⟩ := Semantics.Context.apply_mirrors (s := u)
    (t := { R'.before with budget := u.budget }) h.mirrors hBond rfl hPre N.address
  rw [hRun] at hΛ hBudget hResult
  have hAgain := (h.steady N.address N.pre).same_of_left (s := R'.before) (b := u.budget)
    (by rw [hRecords.applied]; exact (h.paid R' (List.mem_of_getElem? hR)).left) (by rw [← hBudget]; exact hLeft)
  rw [hRecords.applied] at hAgain
  rw [hAgain] at hΛ hResult
  cases hResult with
  | ok hStep => exact ⟨Λ', hΛ.bond, hStep⟩

/-- What follows an execution follows the one that it copies. -/
theorem exists_copy (h : Shortens c g G maxVisits maxVisits' entry s s' t t' log log') (hn : g.node? k = some n)
    (hr : log[k]? = some r) (hCopies : G.Copies log' r.before.heap n.address n.pre K) (hx : x ∈ g.childrenOf k)
    (hm : g.node? x = some m) {q : Performance} (hq : log[x]? = some q) :
    ∃ C ∈ G.childrenOf K, G.Copies log' q.before.heap m.address m.pre C := by
  obtain ⟨Λ, N, R, hN, hR, hPlace, hBond, hPre⟩ := hCopies
  obtain ⟨r', hr', hRecords⟩ := h.first.records k n hn
  obtain rfl := Option.some.inj (hr'.symm.trans hr)
  have hLeft := h.first.left_of_child h.frugal h.found hx hr
  obtain ⟨Λ', hBond', hStep⟩ := h.renames_step hN hR hPlace hBond hPre hRecords.applied hLeft
  have hHere : (m.address, m.pre) ∈ r'.step.successors :=
    hRecords.children.subset (mem_places.mpr ⟨x, (mem_children hn).mp hx, m, hm, rfl⟩)
  have hThere {f : Nat → Nat} (hf : Λ'.Spans f) : (m.address, m.pre.rename f) ∈ R.step.successors := by
    rw [← hStep f hf]
    exact List.mem_map_of_mem (f := fun p : Address × State => (p.1, p.2.rename f)) hHere
  obtain ⟨f, hf⟩ := hBond'.exists_spans
  obtain ⟨C, hChild, M, hM, hSame⟩ := (h.second.mem_successors_iff h.completed hN hR).mp (hThere hf)
  obtain ⟨hAddress, hState⟩ := Prod.mk.inj hSame
  obtain ⟨Q, hQ, _⟩ := h.second.records C M hM
  obtain ⟨R', hR', hRecorded⟩ := h.second.records K N hN
  obtain rfl := Option.some.inj (hR'.symm.trans hR)
  have hFirst := h.first.successive.grows_between (h.first.grows_of_mem h.frugal)
    (h.first.parent_of_child hx).1 hr hq
  have hSecond := h.second.successive.grows_between (h.second.grows_of_mem h.frugal)
    (h.second.parent_of_child hChild).1 hR hQ
  refine ⟨C, hChild, Λ', M, Q, hM, hQ, hAddress.symm, hBond'.grow hFirst hSecond, fun f' hf' => ?_⟩
  have hPair := List.inj_on_of_nodup_map (Semantics.Context.nodup_apply hRecorded.applied) (hThere hf') (hThere hf) rfl
  exact (Prod.mk.inj hPair).2.trans hState.symm

/-- What follows an execution of the complete graph follows those that copy it, too, unless something is missing
there. -/
theorem exists_child_at (h : Shortens c g G maxVisits maxVisits' entry s s' t t' log log') (hn : g.node? k = some n)
    (hr : log[k]? = some r) (hCopies : G.Copies log' r.before.heap n.address n.pre K) (hWhole : n.truncated = false)
    (hC : C ∈ G.childrenOf K) (hM : G.node? C = some N) :
    ∃ x ∈ g.childrenOf k, ∃ m, g.node? x = some m ∧ m.address = N.address := by
  obtain ⟨Λ, NK, R, hN, hR, hPlace, hBond, hPre⟩ := hCopies
  obtain ⟨r', hr', hRecords⟩ := h.first.records k n hn
  obtain rfl := Option.some.inj (hr'.symm.trans hr)
  have hAll := hRecords.complete.mp hWhole
  have hLeft : r'.after.budget ≠ 0 := by
    cases hLeads : r'.step.successors with
    | nil =>
        rw [Semantics.Context.apply_spends h.returns hRecords.applied hLeads]
        exact h.found r' (List.mem_of_getElem? hr)
    | cons p rest =>
        obtain ⟨x, hx, _⟩ := mem_places.mp (show p ∈ g.places n.children by rw [hAll, hLeads]; exact .head _)
        exact h.first.left_of_child h.frugal h.found ((mem_children hn).mpr hx) hr
  obtain ⟨Λ', hBond', hStep⟩ := h.renames_step hN hR hPlace hBond hPre hRecords.applied hLeft
  obtain ⟨f, hf⟩ := hBond'.exists_spans
  have hThere := (h.second.mem_successors_iff h.completed hN hR).mpr ⟨C, hC, N, hM, rfl⟩
  rw [← hStep f hf] at hThere
  obtain ⟨p, hp, hSame⟩ := List.mem_map.mp hThere
  rw [← hAll] at hp
  obtain ⟨x, hx, m, hm, rfl⟩ := mem_places.mp hp
  exact ⟨x, (mem_children hn).mpr hx, m, hm, (Prod.mk.inj hSame).1⟩

/-- Where the graph of the first run has a node, that of the complete one has a root. -/
theorem exists_root (h : Shortens c g G maxVisits maxVisits' entry s s' t t' log log') (hn : g.node? k = some n) :
    ∃ N, G.node? 0 = some N ∧ N.address = 0 ∧ N.pre = entry := by
  obtain ⟨N, _, hN, _, hPlace, hPre, _⟩ := h.second.exists_first h.completed (h.first.rooted hn).2
  exact ⟨N, hN, hPlace, hPre⟩

/-- A twin is a copy. -/
theorem copies_of_twins (h : Shortens c g G maxVisits maxVisits' entry s s' t t' log log') (hTwins : g.Twins G k K)
    (hn : g.node? k = some n) (hr : log[k]? = some r) : G.Copies log' r.before.heap n.address n.pre K := by
  induction hTwins generalizing n r with
  | root =>
      obtain ⟨n₀, hn₀, hPlace, hPre, _⟩ := (h.first.rooted hn).1.first
      obtain rfl := Option.some.inj (hn₀.symm.trans hn)
      obtain ⟨N, hN, hPlace', hPre'⟩ := h.exists_root hn
      obtain ⟨R, hR, _⟩ := h.second.records 0 N hN
      refine ⟨.own entry, N, R, hN, hR, hPlace.trans hPlace'.symm, ?_, fun f hf => ?_⟩
      · rw [h.first.successive.first_before hr, h.second.successive.first_before hR, h.heap, h.heap']
        exact Links.bond_own entry
      · rw [hPre, hPre']
        exact h.direct.rename_eq hf
  | @child k K x C m N _ hx hC hm hN hPlace ih =>
      obtain rfl := Option.some.inj (hm.symm.trans hn)
      obtain ⟨p, hp⟩ := isLive_iff.mp (h.first.linked.live_of_child hx).1
      obtain ⟨q, hq, _⟩ := h.first.records k p hp
      obtain ⟨C', hC', hCopies⟩ := h.exists_copy hp hq (ih hp hq) hx hn hr
      obtain ⟨_, N', _, hN', _, hPlace', _⟩ := id hCopies
      obtain rfl := h.second.child_unique hC hC' hN hN' (hPlace.symm.trans hPlace')
      exact hCopies

/-- Every execution of the first run has a twin in the complete one. -/
theorem exists_twin (h : Shortens c g G maxVisits maxVisits' entry s s' t t' log log') (hn : g.node? k = some n) :
    ∃ K, g.Twins G k K := by
  induction k using Nat.strongRecOn generalizing n with
  | ind k ih =>
      by_cases hFirst : k = 0
      · subst hFirst
        exact ⟨0, .root⟩
      · obtain ⟨p, hLess, hx⟩ := h.first.exists_childrenOf hn hFirst
        obtain ⟨m, hm⟩ := isLive_iff.mp (h.first.linked.live_of_child hx).1
        obtain ⟨K, hTwins⟩ := ih p hLess hm
        obtain ⟨q, hq, _⟩ := h.first.records p m hm
        obtain ⟨r, hr, _⟩ := h.first.records k n hn
        obtain ⟨C, hC, _, N, _, hN, _, hPlace, _⟩ :=
          h.exists_copy hm hq (h.copies_of_twins hTwins hm hq) hx hn hr
        exact ⟨C, hTwins.child hx hC hn hN hPlace⟩

/-- What follows the twin of an execution has a twin itself, unless something is missing there. -/
theorem exists_twin_of_child (h : Shortens c g G maxVisits maxVisits' entry s s' t t' log log')
    (hTwins : g.Twins G k K) (hn : g.node? k = some n) (hWhole : n.truncated = false) (hC : C ∈ G.childrenOf K) :
    ∃ x ∈ n.children, g.Twins G x C := by
  obtain ⟨r, hr, _⟩ := h.first.records k n hn
  obtain ⟨N, hN⟩ := isLive_iff.mp (h.second.linked.live_of_child hC).2
  obtain ⟨x, hx, m, hm, hPlace⟩ := h.exists_child_at hn hr (h.copies_of_twins hTwins hn hr) hWhole hC hN
  exact ⟨x, (mem_children hn).mp hx, hTwins.child hx hC hm hN hPlace⟩

/-- No two executions have one twin. -/
theorem twins_injective (h : Shortens c g G maxVisits maxVisits' entry s s' t t' log log')
    (hTwins : g.Twins G k K) (hTwins' : g.Twins G x K) : k = x := by
  have hOrphan {P : NodeId} : 0 ∉ G.childrenOf P := fun hC =>
    Nat.not_lt_zero _ (h.second.parent_of_child hC).1
  induction hTwins generalizing x with
  | root =>
      cases hTwins' with
      | root => rfl
      | child _ _ hC => exact absurd hC hOrphan
  | child _ hx hC hn hN hPlace ih =>
      cases hTwins' with
      | root => exact absurd hC hOrphan
      | child hUpper hx' hC' hn' hN' hPlace' =>
          obtain rfl := h.second.parent_unique hC hC'
          obtain rfl := ih hUpper
          obtain rfl := Option.some.inj (hN.symm.trans hN')
          exact h.first.child_unique hx hx' hn hn' (hPlace.trans hPlace'.symm)

theorem address_of_twins (h : Shortens c g G maxVisits maxVisits' entry s s' t t' log log')
    (hTwins : g.Twins G k K) (hn : g.node? k = some n) : ∃ N, G.node? K = some N ∧ N.address = n.address := by
  obtain ⟨r, hr, _⟩ := h.first.records k n hn
  obtain ⟨_, N, _, hN, _, hPlace, _⟩ := h.copies_of_twins hTwins hn hr
  exact ⟨N, hN, hPlace.symm⟩

/-- If the first run has as many executions of an instruction as the complete one, then none is missing. -/
theorem exists_twin_of_pile (h : Shortens c g G maxVisits maxVisits' entry s s' t t' log log') {a : Address}
    (hMost : (G.pile a).length ≤ (g.pile a).length) (hK : K ∈ G.pile a) : ∃ k ∈ g.pile a, g.Twins G k K := by
  have hAll : ∀ k ∈ g.pile a, ∃ K, g.Twins G k K ∧ K ∈ G.pile a := by
    intro k hk
    obtain ⟨n, hn, rfl⟩ := (h.first.piled.mem_iff _ _).mp hk
    obtain ⟨K, hTwins⟩ := h.exists_twin hn
    obtain ⟨N, hN, hPlace⟩ := h.address_of_twins hTwins hn
    exact ⟨K, hTwins, (h.second.piled.mem_iff _ _).mpr ⟨N, hN, hPlace⟩⟩
  obtain ⟨Ks, hKs⟩ := exists_forall₂ hAll
  have hNodup : Ks.Nodup := pairwise_of_forall₂ hKs (h.first.piled.nodup a)
    fun k k' K K' hk hk' hOther hSame => hOther (h.twins_injective hk.1 (hSame ▸ hk'.1))
  have hSub : Ks ⊆ G.pile a := fun K hK => by
    obtain ⟨k, _, hTwins⟩ := exists_of_forall₂ hKs.flip hK
    exact hTwins.2
  have hPerm : Ks.Perm (G.pile a) :=
    (List.subperm_of_subset hNodup hSub).perm_of_length_le (hKs.length_eq ▸ hMost)
  obtain ⟨k, hk, hTwins⟩ := exists_of_forall₂ hKs.flip (hPerm.mem_iff.mpr hK)
  exact ⟨k, hk, hTwins.1⟩

end Shortens

end Graph

namespace DeadCode

variable {c : Context} {g G : Graph} {maxVisits maxVisits' : Nat} {entry : State} {s s' t t' : Supply}
  {log log' : List Performance} {k K : NodeId} {n : Node} {r : Register} {a : Address}

open Dalvik.Graph (Shortens)

/-- What is needed after an execution of the complete graph is needed after those that have it for their twin. -/
theorem needs_of_twins (h : Shortens c g G maxVisits maxVisits' entry s s' t t' log log') (hTwins : g.Twins G k K)
    (hn : g.node? k = some n) (hNeeds : Needs G r K) : Needs g r k := by
  have hMethod : G.method = g.method := h.second.sameMethod.trans h.first.sameMethod.symm
  induction hNeeds generalizing k n with
  | cut hN hCut =>
      rw [h.second.unmarked h.completed _ _ hN] at hCut
      cases hCut
  | lost hN hLost =>
      obtain ⟨N, hN', hPlace⟩ := h.address_of_twins hTwins hn
      obtain rfl := Option.some.inj (hN.symm.trans hN')
      exact .lost hn (hMethod ▸ hPlace ▸ hLost)
  | reads hN hi hReads =>
      obtain ⟨N, hN', hPlace⟩ := h.address_of_twins hTwins hn
      obtain rfl := Option.some.inj (hN.symm.trans hN')
      exact .reads hn (hMethod ▸ hPlace ▸ hi) hReads
  | later hN hi hKeeps hChild _ ih =>
      obtain ⟨N, hN', hPlace⟩ := h.address_of_twins hTwins hn
      obtain rfl := Option.some.inj (hN.symm.trans hN')
      cases hWhole : n.truncated with
      | true => exact .cut hn hWhole
      | false =>
          obtain ⟨x, hx, hBelow⟩ :=
            h.exists_twin_of_child hTwins hn hWhole ((Graph.mem_children hN).mpr hChild)
          obtain ⟨m, hm⟩ :=
            Graph.isLive_iff.mp (h.first.linked.live_of_child ((Graph.mem_children hn).mpr hx)).2
          exact .later hn (hMethod ▸ hPlace ▸ hi) hKeeps hx (ih hBelow hm)

/-- What the complete graph finds to be read later is found in the first one, too. -/
theorem isReadLater_of_twins (h : Shortens c g G maxVisits maxVisits' entry s s' t t' log log')
    (hTwins : g.Twins G k K) (hn : g.node? k = some n) (hRead : isReadLater G r K = true) :
    isReadLater g r k = true := by
  obtain ⟨N, hN, _⟩ := h.address_of_twins hTwins hn
  cases hWhole : n.truncated with
  | true =>
      unfold isReadLater
      rw [hn]
      exact Bool.or_eq_true_iff.mpr (.inl hWhole)
  | false =>
      by_contra hUnread
      rcases exists_needs_of_isReadLater hN hRead with hCut | ⟨C, hChild, hNeeds⟩
      · rw [h.second.unmarked h.completed _ _ hN] at hCut
        cases hCut
      · obtain ⟨x, hx, hBelow⟩ :=
          h.exists_twin_of_child hTwins hn hWhole ((Graph.mem_children hN).mpr hChild)
        obtain ⟨m, hm⟩ :=
          Graph.isLive_iff.mp (h.first.linked.live_of_child ((Graph.mem_children hn).mpr hx)).2
        exact not_needs_of_isReadLater hn (by simpa using hUnread) hx (needs_of_twins h hBelow hm hNeeds)

/-- A receiver that is safe for an execution is safe for its twin. -/
theorem isReceiverSafe_of_twins (h : Shortens c g G maxVisits maxVisits' entry s s' t t' log log')
    (hTwins : g.Twins G k K) (hn : g.node? k = some n) {N : Node} (hN : G.node? K = some N) (args : List Register) :
    isReceiverSafe args N = isReceiverSafe args n := by
  obtain ⟨r, hr, _⟩ := h.first.records k n hn
  obtain ⟨Λ, N', _, hN', _, _, hBond, hPre⟩ := h.copies_of_twins hTwins hn hr
  obtain rfl := Option.some.inj (hN.symm.trans hN')
  obtain ⟨f, hf⟩ := hBond.exists_spans
  unfold isReceiverSafe
  rw [← hPre f hf]
  cases args.head? with
  | none => rfl
  | some x =>
      rw [Option.bind_some, Option.bind_some, State.peek?_rename]
      cases n.pre.peek? x with
      | none => rfl
      | some v => cases v <;> rfl

/-- If no execution of an instruction is missing in the first graph, then what can go there because its effect is
lost can go in the complete one, too. -/
theorem unused?_of_shortens (h : Shortens c g G maxVisits maxVisits' entry s s' t t' log log')
    (hMost : (G.pile a).length ≤ (g.pile a).length) {i : Instruction Address} {kind : Category}
    (hUnused : unused? g a i = some kind) : unused? G a i = some kind := by
  have hMethod : G.method = g.method := h.second.sameMethod.trans h.first.sameMethod.symm
  have hDiscarded : isDiscarded G a = isDiscarded g a := by
    unfold isDiscarded
    rw [hMethod]
  have hUnread {r : Register} (hAll : (g.pile a).any (isReadLater g r) = false) :
      (G.pile a).any (isReadLater G r) = false := by
    refine List.any_eq_false.mpr fun K hK hRead => ?_
    obtain ⟨k, hk, hTwins⟩ := h.exists_twin_of_pile hMost hK
    obtain ⟨n, hn, _⟩ := (h.first.piled.mem_iff _ _).mp hk
    exact List.any_eq_false.mp hAll k hk (isReadLater_of_twins h hTwins hn hRead)
  have hSafe {args : List Register} (hAll : (g.pileNodes a).all (isReceiverSafe args) = true) :
      (G.pileNodes a).all (isReceiverSafe args) = true := by
    refine List.all_eq_true.mpr fun N hN => ?_
    obtain ⟨K, hK, hN⟩ := List.mem_filterMap.mp hN
    obtain ⟨k, hk, hTwins⟩ := h.exists_twin_of_pile hMost hK
    obtain ⟨n, hn, _⟩ := (h.first.piled.mem_iff _ _).mp hk
    rw [isReceiverSafe_of_twins h hTwins hn hN]
    exact List.all_eq_true.mp hAll n (List.mem_filterMap.mpr ⟨k, hk, hn⟩)
  unfold unused? at hUnused ⊢
  cases i with
  | invoke form m args =>
      dsimp only at hUnused ⊢
      split at hUnused
      · rename_i hAll
        rw [hDiscarded]
        simp only [Bool.and_eq_true, Bool.or_eq_true] at hAll ⊢
        rw [if_pos ⟨hAll.1, hAll.2.imp id hSafe⟩]
        exact hUnused
      · cases hUnused
  | _ =>
      dsimp only at hUnused ⊢
      split at hUnused
      · cases hUnused
      · rename_i hPlain
        rw [if_neg hPlain]
        obtain ⟨dst, hDst, hUnused⟩ := Option.bind_eq_some_iff.mp hUnused
        split at hUnused
        · cases hUnused
        · rename_i hNone
          rw [hDst, Option.bind_some, if_neg (by simpa using hUnread (by simpa using hNone))]
          exact hUnused

variable {i : Instruction Address} {kind : Category}

/-- What can go because its effect is lost has been executed. -/
theorem unused_of_classify? (hKind : kind = .deadUnusedAssignment ∨ kind = .deadUnusedResult)
    (h : classify? true g a i = some kind) : g.isReached a = true ∧ unused? g a i = some kind := by
  have hNot {other : Category} (hOther : some other = some kind)
      (hApart : other ≠ .deadUnusedAssignment ∧ other ≠ .deadUnusedResult) : False := by
    obtain rfl := Option.some.inj hOther
    exact hKind.elim hApart.1 hApart.2
  unfold classify? at h
  split at h
  · split at h
    · exact (hNot h (by decide)).elim
    · cases h
  · rename_i hReached
    refine ⟨by simpa using hReached, ?_⟩
    split at h
    · exact (hNot h (by decide)).elim
    · split at h
      · exact (hNot h (by decide)).elim
      · exact h
    · exact h

theorem classify?_of_unused (hReached : g.isReached a = true) (h : unused? g a i = some kind) :
    classify? true g a i = some kind := by
  unfold classify?
  rw [hReached, if_neg (by simp)]
  cases i with
  | nop => cases h
  | goto t => cases h
  | _ => exact h

end DeadCode

namespace Machine

variable {m m' : Machine} {method : Method} {entry : State} {g G : Graph}

theorem explore_congr (hClasses : m.classes = m'.classes) (hVisits : m.limits.maxVisits = m'.limits.maxVisits) :
    m.explore = m'.explore := by
  unfold explore
  rw [hClasses, hVisits]

theorem run_congr (hClasses : m.classes = m'.classes) (hVisits : m.limits.maxVisits = m'.limits.maxVisits)
    (depth : Nat) : m.run depth = m'.run depth := by
  induction depth with
  | zero => rw [run, run, explore_congr hClasses hVisits]
  | succ depth ih => rw [run, run, ih, explore_congr hClasses hVisits]

/-- Of the limits only those of visits and of depth are felt in a step. -/
theorem context_congr (hClasses : m.classes = m'.classes) (hVisits : m.limits.maxVisits = m'.limits.maxVisits)
    (hDepth : m.limits.maxDepth = m'.limits.maxDepth) (method : Method) (depth : Nat) :
    m.context method depth = m'.context method depth := by
  unfold context callAt
  rw [hClasses, hDepth]
  cases m'.limits.maxDepth - depth with
  | zero => rfl
  | succ below =>
      dsimp only
      rw [run_congr hClasses hVisits]

/-- With other limits the steps of a method are the same, because it runs no body of another method, or because the
limits differ in the number of nodes only. -/
theorem context_apply (hClasses : m.classes = m'.classes)
    (hCalls : (∀ i ∈ method.code, (m.context method 0).RunsNoBody i) ∨
      m.limits.maxVisits = m'.limits.maxVisits ∧ m.limits.maxDepth = m'.limits.maxDepth)
    (a : Address) (pre : State) : (m.context method 0).apply a pre = (m'.context method 0).apply a pre := by
  rcases hCalls with hCalls | ⟨hVisits, hDepth⟩
  · unfold context at hCalls ⊢
    rw [hClasses] at hCalls ⊢
    exact Semantics.Context.apply_congr hCalls a pre
  · rw [context_congr hClasses hVisits hDepth]

theorem exists_shortens (hClasses : m.classes = m'.classes)
    (hCalls : (∀ i ∈ method.code, (m.context method 0).RunsNoBody i) ∨
      m.limits.maxVisits = m'.limits.maxVisits ∧ m.limits.maxDepth = m'.limits.maxDepth)
    (hRun : m.execute method entry = .ok g) (hRun' : m'.execute method entry = .ok G)
    (hDone : G.status = .completed) (hDirect : entry.Direct) :
    ∃ t t' log log', Graph.Shortens (m'.context method 0) g G m.limits.maxVisits m'.limits.maxVisits entry
      ⟨.after entry, m.limits.maxNodes⟩ ⟨.after entry, m'.limits.maxNodes⟩ t t' log log' := by
  obtain ⟨log, t, hRecording, _, hFound⟩ := execute_funded hRun
  obtain ⟨log', t', hRecording', _, hPaid⟩ := execute_paid hRun' hDone
  refine ⟨t, t', log, log', m'.context_steady method 0, m'.callsMirror_context method 0,
    m'.callsReturn_context method 0, ?_, hFound, hRecording', hDone, hPaid, hDirect, rfl, rfl⟩
  exact hRecording.congr rfl (context_apply hClasses hCalls)

end Machine

namespace DeadCode

variable {m m' : Machine} {method : Method} {entry : State} {g g' : Graph} {a : Address} {kind : Category}

/-- What an execution that was cut off finds to be lost is lost in a complete one, too, if it has found all
executions of the instruction: paths that it has not explored count as reads. The steps have to be the same in both
of them, because the method runs no body of another one or because only the numbers of nodes differ that are
allowed.

Where later executions of the instruction are among what has been cut off, nothing is known of what they assign. -/
theorem candidate_of_aborted (hClasses : m.classes = m'.classes)
    (hCalls : (∀ i ∈ method.code, (m.context method 0).RunsNoBody i) ∨
      m.limits.maxVisits = m'.limits.maxVisits ∧ m.limits.maxDepth = m'.limits.maxDepth)
    (hDirect : entry.Direct) (hRun : m.execute method entry = .ok g) (hRun' : m'.execute method entry = .ok g')
    (hDone : g'.status = .completed) (hAll : (g'.pile a).length ≤ (g.pile a).length)
    (hKind : kind = .deadUnusedAssignment ∨ kind = .deadUnusedResult) (h : (a, kind) ∈ candidates true g) :
    (a, kind) ∈ candidates true g' := by
  obtain ⟨t, t', log, log', hShortens⟩ := Machine.exists_shortens hClasses hCalls hRun hRun' hDone hDirect
  have hMethod : g'.method = g.method := hShortens.second.sameMethod.trans hShortens.first.sameMethod.symm
  obtain ⟨i, hi, hClass⟩ := mem_candidates.mp h
  obtain ⟨hReached, hUnused⟩ := unused_of_classify? hKind hClass
  obtain ⟨k, hk⟩ := List.exists_mem_of_ne_nil (g.pile a) (by simpa [Graph.isReached] using hReached)
  obtain ⟨n, hn, rfl⟩ := (hShortens.first.piled.mem_iff _ _).mp hk
  obtain ⟨K, hTwins⟩ := hShortens.exists_twin hn
  obtain ⟨N, hN, hPlace⟩ := hShortens.address_of_twins hTwins hn
  have hMem := (hShortens.second.piled.mem_iff n.address K).mpr ⟨N, hN, hPlace⟩
  have hReached' : g'.isReached n.address = true := by
    simpa [Graph.isReached] using List.ne_nil_of_mem hMem
  exact mem_candidates.mpr ⟨i, hMethod ▸ hi,
    classify?_of_unused hReached' (unused?_of_shortens hShortens hAll hUnused)⟩

/-- A method that assigns a register twice before it reads it, and takes one of two ways after that. -/
def shadowingMethod : Method where
  reference := ⟨⟨"La;"⟩, "run", [.int], .int⟩
  flags := { static := true }
  locals := 1
  code := [.const 0 (.int 1), .const 0 (.int 2), .branch .eq 1 none 9, .nop, .returnValue 0]
  tries := []

/-- A method that assigns a register twice or reads what it has assigned first, depending on the way that it has
taken before. -/
def waveringMethod : Method where
  reference := ⟨⟨"La;"⟩, "run", [.int], .int⟩
  flags := { static := true }
  locals := 2
  code := [.const 0 (.int 1), .branch .eq 2 none 8, .const 0 (.int 0), .const 1 (.int 7), .branch .eq 0 none 16,
    .const 1 (.int 0), .returnValue 1]
  tries := []

/-- Machines without classes that differ in how much they explore. -/
def limitedMachine (maxNodes maxVisits : Nat) : Machine := ⟨.empty, ⟨maxNodes, maxVisits, 1⟩⟩

/-- The graph of an execution of which nothing is known of the arguments, with given limits. -/
def exploredGraph (method : Method) (maxNodes maxVisits : Nat) : Graph :=
  (limitedMachine maxNodes maxVisits).graphOf method (Machine.initialState method)

theorem candidate_of_aborted_shadowingMethod :
    (exploredGraph shadowingMethod 5 4).status = .aborted .nodes ∧
      (exploredGraph shadowingMethod 8 4).status = .completed ∧
        (0, Category.deadUnusedAssignment) ∈ candidates true (exploredGraph shadowingMethod 5 4) ∧
          (0, Category.deadUnusedAssignment) ∈ candidates true (exploredGraph shadowingMethod 8 4) := by
  have hRun : (limitedMachine 5 4).execute shadowingMethod (Machine.initialState shadowingMethod) =
      .ok (exploredGraph shadowingMethod 5 4) := Machine.execute_eq_graphOf (by decide +kernel)
  have hRun' : (limitedMachine 8 4).execute shadowingMethod (Machine.initialState shadowingMethod) =
      .ok (exploredGraph shadowingMethod 8 4) := Machine.execute_eq_graphOf (by decide +kernel)
  have hDirect : (Machine.initialState shadowingMethod).Direct := by
    refine ⟨fun v hv => ?_, rfl, rfl⟩
    obtain rfl : v = .unknown .int := by
      simpa [Machine.initialState, State.blank, State.registers, shadowingMethod, Method.paramTypes] using hv
    simp [Value.Flat, Value.ids, Value.id?]
  have hClasses : (limitedMachine 5 4).classes = (limitedMachine 8 4).classes := rfl
  have hDone : (exploredGraph shadowingMethod 8 4).status = .completed := by decide +kernel
  have hFound : (0, Category.deadUnusedAssignment) ∈ candidates true (exploredGraph shadowingMethod 5 4) := by
    decide +kernel
  exact ⟨by decide +kernel, hDone, hFound,
    candidate_of_aborted hClasses (.inr ⟨rfl, rfl⟩) hDirect hRun hRun' hDone (by decide +kernel) (.inl rfl) hFound⟩

/-- With one execution of every instruction allowed, the second execution of the assignment in `waveringMethod` is
cut off, after which what it has assigned is read. -/
theorem not_candidate_of_aborted :
    ¬ ∀ (m m' : Machine) (method : Method) (entry : State) (g g' : Graph) (a : Address) (kind : Category),
      m.classes = m'.classes → m.limits.maxNodes ≤ m'.limits.maxNodes →
        m.limits.maxVisits ≤ m'.limits.maxVisits → m.limits.maxDepth ≤ m'.limits.maxDepth →
          m.execute method entry = .ok g → g.status ≠ .completed →
            m'.execute method entry = .ok g' → g'.status = .completed →
              (kind = .deadUnusedAssignment ∨ kind = .deadUnusedResult) →
                (a, kind) ∈ candidates true g → (a, kind) ∈ candidates true g' := by
  intro h
  have hRun : (limitedMachine 12 1).execute waveringMethod (Machine.initialState waveringMethod) =
      .ok (exploredGraph waveringMethod 12 1) := Machine.execute_eq_graphOf (by decide +kernel)
  have hRun' : (limitedMachine 12 4).execute waveringMethod (Machine.initialState waveringMethod) =
      .ok (exploredGraph waveringMethod 12 4) := Machine.execute_eq_graphOf (by decide +kernel)
  have hKept := h (limitedMachine 12 1) (limitedMachine 12 4) waveringMethod (Machine.initialState waveringMethod)
    (exploredGraph waveringMethod 12 1) (exploredGraph waveringMethod 12 4) 8 .deadUnusedAssignment rfl (by decide)
    (by decide) (by decide) hRun (by decide +kernel) hRun' (by decide +kernel) (.inl rfl) (by decide +kernel)
  have hNone : candidates true (exploredGraph waveringMethod 12 4) = [] := by decide +kernel
  rw [hNone] at hKept
  cases hKept

end DeadCode

end Dalvik
