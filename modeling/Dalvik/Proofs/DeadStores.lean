import Dalvik.Proofs.DeadCode
import Dalvik.Proofs.Framing
import Dalvik.Proofs.Liveness

/-!
Removing assignments that are never read. All that are found at once can be removed at once, and nothing of this
can be observed: what is left reads what it has read before.
-/

namespace Dalvik

namespace Instruction

variable {i : Instruction Address}

theorem isCall_of_isAssignment (h : i.isAssignment = true) : i.isCall = false := by
  cases i <;> first | rfl | cases h

theorem takesException_of_isAssignment (h : i.isAssignment = true) : i.takesException = false := by
  cases i <;> first | rfl | cases h

theorem fallsThrough_of_isAssignment (h : i.isAssignment = true) : i.fallsThrough = true := by
  cases i <;> first | rfl | cases h

end Instruction

namespace Graph

variable {g : Graph} {as : List Address}

/-- Instructions can be removed if the last one stays and what has been executed of them has only gone on to the
next one. -/
theorem checkRemoval_of_last (hg : g.Consistent) (hAll : ∀ a ∈ as, g.method.code.HasAddress a)
    (hLast : ∀ p, g.method.code.length = p + 1 → g.method.code.addressAt p ∉ as)
    (hStays : ∀ a ∈ as, (g.pileNodes a).any (g.strays (g.method.code.next? a)) = false) :
    g.checkRemoval as = .ok () := by
  obtain ⟨removed, hRemoved⟩ := exists_mapM_index hAll
  obtain ⟨hCode, hHandlers⟩ := Method.validate_eq_ok_iff.mp hg.valid
  have hLands {t : Address} (ht : g.method.code.HasAddress t) : g.checkLanding (g.lastKept? removed) t = .ok () := by
    obtain ⟨n, hn, rfl⟩ := ht
    obtain ⟨p, hp⟩ := Nat.exists_eq_succ_of_ne_zero (Nat.ne_zero_of_lt hn)
    have hKept : p ∉ removed := fun hGone => hLast p hp ((mapM_index hRemoved p).mp hGone).2
    have hFound : g.lastKept? removed = some p := by
      simp [lastKept?, hp, List.range_succ, List.filter_append, hKept]
    unfold checkLanding lands
    rw [Code.indexOf?_addressAt hn, hFound, if_pos (by simpa using Nat.le_of_lt_succ (hp ▸ hn))]
  unfold checkRemoval
  refine except_bind_eq_ok.mpr ⟨removed, hRemoved, except_bind_eq_ok.mpr ⟨(), ?_, except_bind_eq_ok.mpr ⟨(), ?_, ?_⟩⟩⟩
  · refine Method.forM_eq_ok_iff.mpr fun p hp => Method.forM_eq_ok_iff.mpr fun t ht => hLands ?_
    have hMem := List.mem_of_getElem? (List.mem_zipIdx_iff_getElem?.mp (List.mem_filter.mp hp).1)
    exact (hCode p.1 hMem).targets t ht
  · exact Method.forM_eq_ok_iff.mpr fun k hk => hLands (hHandlers k hk)
  · refine Method.forM_eq_ok_iff.mpr fun a ha => ?_
    rw [if_neg (by rw [hStays a ha]; exact Bool.false_ne_true)]

end Graph

namespace DeadCode

open Semantics (Context)

variable {g : Graph} {a : Address} {i : Instruction Address}

/-- The addresses of the executed assignments that can go because they are never read. -/
def lostAssignments (g : Graph) : List Address :=
  (g.method.code.located.filter fun p =>
    g.isReached p.1 && p.2.isAssignment && (unused? g p.1 p.2).isSome).map Prod.fst

theorem mem_lostAssignments :
    a ∈ lostAssignments g ↔ ∃ i, g.method.code.at? a = some i ∧ g.isReached a = true ∧
      i.isAssignment = true ∧ (unused? g a i).isSome = true := by
  simp [lostAssignments, List.mem_map, List.mem_filter, Code.mem_located_iff, and_assoc]

/-- What can go does not throw, and none of its executions assigns what is read later. -/
theorem of_unused? (hAssign : i.isAssignment = true) (h : (unused? g a i).isSome = true) :
    i.mayThrow = false ∧
      ∃ dst, i.writes? = some dst ∧ ∀ K ∈ g.pile a, isReadLater g dst K = false := by
  have hGeneral : ∃ kind : Category, (if i.hasSideEffect || i.mayThrow then none
      else i.writes?.bind fun r => if (g.pile a).any (isReadLater g r) then none else some kind).isSome = true := by
    cases i with
    | invoke kind m args => cases hAssign
    | moveResult dst => exact ⟨.deadUnusedResult, h⟩
    | _ => exact ⟨.deadUnusedAssignment, h⟩
  obtain ⟨kind, hGeneral⟩ := hGeneral
  split at hGeneral
  · cases hGeneral
  · rename_i hPlain
    have hSafe : i.mayThrow = false := by simp_all
    cases hDst : i.writes? with
    | none =>
        rw [hDst] at hGeneral
        cases hGeneral
    | some dst =>
        rw [hDst, Option.bind_some] at hGeneral
        split at hGeneral
        · cases hGeneral
        · rename_i hUnread
          refine ⟨hSafe, dst, rfl, fun K hK => ?_⟩
          by_contra hRead
          exact hUnread (List.any_eq_true.mpr ⟨K, hK, eq_true_of_ne_false hRead⟩)

variable {c : Context} {maxVisits : Nat} {entry : State} {s t : Supply} {log : List Performance} {K : NodeId}
  {N : Node} {R : Performance}

/-- A lost assignment has changed nothing that is needed where it has led to. -/
theorem idles_of_lost (hWell : c.method.WellFormed) (hMethod : g.method = c.method) (hg : g.Piled g.method.code)
    (hN : g.node? K = some N) (hLost : N.address ∈ lostAssignments g)
    {step : Step} (hRun : c.apply N.address N.pre s = (.ok step, t)) :
    ∃ b, Pruning.Idles c g (fun K r => Needs g r K) K N step b := by
  obtain ⟨i, hi, _, hAssign, hUnused⟩ := mem_lostAssignments.mp hLost
  obtain ⟨hSafe, dst, hDst, hUnread⟩ := of_unused? hAssign hUnused
  obtain ⟨b, dst', hDst', hNext, hLeads, hAgrees⟩ := Context.apply_assigns (hMethod ▸ hi) hAssign hSafe hRun
  obtain rfl := Option.some.inj (hDst'.symm.trans hDst)
  have hDead {C : NodeId} (hC : C ∈ g.childrenOf K) : ¬ Needs g dst' C :=
    not_needs_of_isReadLater hN (hUnread K ((hg.mem_iff _ _).mpr ⟨N, hN, rfl⟩)) ((Graph.mem_children hN).mp hC)
  have hOther {C : NodeId} (hC : C ∈ g.childrenOf K) {r : Register} (hNeeds : Needs g r C) : r ≠ dst' :=
    fun hSame => hDead hC (hSame ▸ hNeeds)
  refine ⟨b, Pruning.idles_of_leads hWell (hMethod ▸ hi) (Instruction.takesException_of_isAssignment hAssign)
    (Instruction.isCall_of_isAssignment hAssign) hLeads hNext
    (hWell.isHandler_next? (hMethod ▸ hi) (Instruction.fallsThrough_of_isAssignment hAssign) hNext)
    (fun C hC r hNeeds => ?_) fun C hC => hAgrees.mono fun r hNeeds => hOther hC hNeeds⟩
  refine .later hN hi (fun ⟨hWrites, _⟩ => ?_) ((Graph.mem_children hN).mp hC) hNeeds
  exact hOther hC hNeeds (Option.some.inj (hWrites.symm.trans hDst))

variable {m : Machine} {method : Method}

/-- Lost assignments only have gone on to the next instruction, so that none of them is the last. -/
theorem next?_of_lost (hWell : method.WellFormed) (hMethod : g.method = method) (hg : g.Piled g.method.code)
    (hRecording : g.Recording (m.context method 0) maxVisits entry s log t) (hLost : a ∈ lostAssignments g) :
    ∃ b, method.code.next? a = some b := by
  obtain ⟨i, _, hReached, _⟩ := mem_lostAssignments.mp hLost
  obtain ⟨K, hK⟩ := List.exists_mem_of_ne_nil (g.pile a) (by simpa [Graph.isReached] using hReached)
  obtain ⟨N, hN, rfl⟩ := (hg.mem_iff _ _).mp hK
  obtain ⟨R, _, hRecords⟩ := hRecording.records K N hN
  obtain ⟨b, hIdles⟩ := idles_of_lost (c := m.context method 0) hWell hMethod hg hN hLost hRecords.applied
  exact ⟨b, hIdles.next⟩

theorem not_mem_of_last (hNext : ∀ a ∈ lostAssignments g, ∃ b, method.code.next? a = some b) {p : Nat}
    (hp : method.code.length = p + 1) : method.code.addressAt p ∉ lostAssignments g := by
  intro hLost
  obtain ⟨b, hb⟩ := hNext _ hLost
  rw [Code.next?_addressAt_last hp] at hb
  cases hb

/-- Lost assignments are never refused to be removed. -/
theorem checkRemoval_lost (hWell : method.WellFormed) (hMethod : g.method = method) (hg : g.Consistent)
    (hRecording : g.Recording (m.context method 0) maxVisits entry s log t) (hDone : g.status = .completed)
    {as : List Address} (hAs : ∀ a ∈ as, a ∈ lostAssignments g) : g.checkRemoval as = .ok () := by
  have hNext (a : Address) (ha : a ∈ lostAssignments g) := next?_of_lost hWell hMethod hg.piled hRecording ha
  refine Graph.checkRemoval_of_last hg (fun a ha => ?_) (fun p hp hLost => ?_) fun a ha => ?_
  · obtain ⟨i, hi, _⟩ := mem_lostAssignments.mp (hAs a ha)
    exact Code.hasAddress_of_at? hi
  · rw [hMethod] at hp hLost
    exact not_mem_of_last hNext hp (hAs _ hLost)
  · refine List.any_eq_false.mpr fun N hMem hStrays => ?_
    obtain ⟨K, hK, hN⟩ := List.mem_filterMap.mp hMem
    obtain ⟨N', hN', rfl⟩ := (hg.piled.mem_iff _ _).mp hK
    obtain rfl := Option.some.inj (hN'.symm.trans hN)
    obtain ⟨R, hR, hRecords⟩ := hRecording.records K N' hN'
    obtain ⟨b, hIdles⟩ :=
      idles_of_lost (c := m.context method 0) hWell hMethod hg.piled hN' (hAs _ ha) hRecords.applied
    obtain ⟨C, hChild, hAway⟩ := List.any_eq_true.mp hStrays
    cases hn : g.node? C with
    | none =>
        rw [hn] at hAway
        cases hAway
    | some n =>
        have hPlace := (hRecording.mem_successors_iff hDone hN' hR (x := (n.address, n.pre))).mpr
          ⟨C, (Graph.mem_children hN').mpr hChild, n, hn, rfl⟩
        rw [hIdles.leads] at hPlace
        have hHere : n.address = b := (Prod.mk.inj (List.mem_singleton.mp hPlace)).1
        rw [hn, hMethod] at hAway
        simp [hHere, show method.code.next? N'.address = some b from hIdles.next] at hAway

end DeadCode

namespace Graph

/-- Nothing of what has been removed can be observed: the executions of a graph are those of another one whose
instructions are left, they read the same and return the same, up to the names of instances, and reach the same
addresses. `label` says where the places of the original method are now. -/
structure Conceals (g G : Graph) (label : Address → Address) (removed : List Address) : Prop where
  forward : ∀ k n, g.node? k = some n → ∃ f K N i, G.node? K = some N ∧ N.address ∉ removed ∧
    G.method.code.at? N.address = some i ∧ n.Echoes g G label f (· ∈ i.reads) N
  backward : ∀ K N, G.node? K = some N → N.address ∉ removed → ∃ f k n i, g.node? k = some n ∧
    G.method.code.at? N.address = some i ∧ n.Echoes g G label f (· ∈ i.reads) N
  reached : ∀ a, a ∈ g.reached ↔ ∃ b ∈ G.reached, b ∉ removed ∧ a = label b

end Graph

namespace DeadCode

variable {m : Machine} {method : Method} {entry : State} {g : Graph}

/-- What does all that is needed reads all that is read. -/
theorem conceals_of_echoes {r : Graph} {removed : List Address} {label : Address → Address} (hg : g.Consistent)
    (h : r.Echoes g label (g.method.code.spared removed) fun K reg => Needs g reg K) :
    r.Conceals g label removed := by
  have hInsn {a : Address} (hKept : g.method.code.spared removed a ≠ none) :
      a ∉ removed ∧ ∃ i, g.method.code.at? a = some i := by
    obtain ⟨i, hi⟩ := Option.ne_none_iff_exists'.mp hKept
    obtain ⟨hNot, hOld⟩ := Code.spared_eq_some_iff.mp hi
    exact ⟨hNot, i, hOld⟩
  have hLeft {a : Address} (ha : g.method.code.HasAddress a) (hNot : a ∉ removed) :
      g.method.code.spared removed a ≠ none := by
    obtain ⟨i, hi⟩ := Code.exists_at? ha
    rw [Code.spared_of_not_mem hNot, hi]
    nofun
  refine ⟨fun k n hn => ?_, fun K N hN hNot => ?_, fun a => ?_⟩
  · obtain ⟨f, K, N, hN, hKept, hEchoes⟩ := h.forward k n hn
    obtain ⟨hNot, i, hi⟩ := hInsn hKept
    exact ⟨f, K, N, i, hN, hNot, hi, hEchoes.weaken fun reg hReads => .reads hN hi hReads⟩
  · have hKept := hLeft (hg.piled.hasAddress hN) hNot
    obtain ⟨_, i, hi⟩ := hInsn hKept
    obtain ⟨f, k, n, hn, hEchoes⟩ := h.backward K N hN hKept
    exact ⟨f, k, n, i, hn, hi, hEchoes.weaken fun reg hReads => .reads hN hi hReads⟩
  · rw [h.reached]
    refine exists_congr fun b => and_congr_right fun hb => and_congr_left fun _ => ?_
    obtain ⟨K, N, hN, rfl⟩ := hg.piled.mem_reached.mp hb
    exact ⟨fun hKept => (hInsn hKept).1, hLeft (hg.piled.hasAddress hN)⟩

/-- A method that returns its argument after some assignments that are never read. Both ways of its branch come
together once they are gone. -/
def storingMethod : Method where
  reference := ⟨⟨"La;"⟩, "store", [.int], .int⟩
  flags := { static := true }
  locals := 2
  code := [.const 0 (.int 1), .const 1 (.int 2), .binary .add .int 0 0 (.literal 1), .branch .eq 2 none 10,
    .move 1 2, .returnValue 2]
  tries := []

theorem bounded_storingMethod : storingMethod.Bounded := nofun

/-- All assignments of `storingMethod` are lost but the first, which the sum reads. -/
example : lostAssignments (Machine.bare.graphOf storingMethod (Machine.initialState storingMethod)) =
    [3, 6, 10] := by
  decide +kernel

end DeadCode

end Dalvik
