import Dalvik.Proofs.Loading
import Dalvik.Proofs.Reenacting
import Dalvik.Proofs.Refinement

/-!
Runs of a method through which constants have been propagated. Such a run is told by the graph from which the
constants were read.
-/

namespace Dalvik

open Semantics (Context)

/-- Instances are directly in registers only, and nothing passes to the first instruction. -/
structure State.Direct (s : State) : Prop where
  flat : ∀ v, some v ∈ s.registers → v.Flat
  passes : s.result = none ∧ s.exception = none

namespace Links

/-- The links of two runs that begin with the same state: its instances stand for themselves. -/
def own (s : State) : Links where
  loose := False
  same i j := i = j ∧ s.Holds i
  changing _ := False
  lone _ := False
  bound := (Heap.after s).next

theorem bond_own (s : State) : (own s).Bond (.after s) (.after s) where
  injective := by
    refine ⟨?_, ?_⟩
    · rintro i j j' ⟨rfl, _⟩ ⟨rfl, _⟩
      rfl
    · rintro i i' j ⟨rfl, _⟩ ⟨rfl, _⟩
      rfl
  below := by
    rintro i j ⟨rfl, hi⟩
    exact ⟨Heap.lt_next_after hi, Heap.lt_next_after hi⟩
  bound := Nat.le_refl _
  interned := by
    rintro i j ⟨rfl, _⟩ t
    exact Iff.rfl
  changing _ hFalse := hFalse.elim
  lone _ hFalse := hFalse.elim
  first := Heap.sound_after s
  second := Heap.sound_after s

end Links

theorem State.Direct.stands {s : State} (h : s.Direct) : s.Stands (.own s) s := by
  refine ⟨.refl s, List.forall₂_same.mpr fun x hx => ?_⟩
  cases x with
  | none => exact .none
  | some v =>
      refine .some ((h.flat v hx).stands (fun _ i hi => ?_) fun _ i hi => ?_)
      · exact ⟨⟨rfl, v, hx, hi⟩, fun hFalse => hFalse.elim⟩
      · exact ⟨⟨rfl, v, hx, hi⟩, fun hFalse => hFalse.elim⟩

namespace Constants

section

variable (c' : Context) (G : Graph) (log : List Performance) (label : Address → Address)
  (stands : Address → Option (Instruction Address))

/-- A state at an address of the first run is one that an execution of the second may be replayed in. -/
structure Joins (h : Heap) (a : Address) (pre : State) (K : NodeId) (Λ : Links) (N : Node)
    (R : Performance) : Prop where
  strict : ¬ Λ.loose
  node : G.node? K = some N
  performed : log[K]? = some R
  place : a = label N.address
  bond : Λ.Bond h R.before.heap
  meets : pre.Meets Λ c' N.address N.pre

/-- A state that some execution may be replayed in. -/
def Joined (h : Heap) (a : Address) (pre : State) (K : NodeId) : Prop :=
  ∃ Λ N R, Joins c' G log label h a pre K Λ N R

end

namespace Propagated

variable {c c' : Context} {G : Graph} {maxVisits : Nat} {entry : State} {s t : Supply}
  {log : List Performance} {label : Address → Address} {stands : Address → Option (Instruction Address)}
  {a : Address} {pre : State} {k : Heap} {K C : NodeId} {N : Node} {R : Performance} {Λ : Links}
  {u v : Supply} {step : Step}

theorem joined_grow {k' : Heap} (h : Joined c' G log label k a pre K) (hk : k.Grows k') :
    Joined c' G log label k' a pre K := by
  obtain ⟨Λ, N, R, hJoins⟩ := h
  exact ⟨Λ, N, R, hJoins.strict, hJoins.node, hJoins.performed, hJoins.place,
    hJoins.bond.grow hk (.refl _), hJoins.meets⟩

/-- A child of an execution may be replayed as soon as that has been. -/
theorem joined_child (h : Propagated c c' G maxVisits entry s t log label stands)
    (hR : log[K]? = some R) (hChild : C ∈ G.childrenOf K) {n : Node} (hn : G.node? C = some n)
    (hStrict : ¬ Λ.loose) (hBond : Λ.Bond k R.after.heap) (hMeets : pre.Meets Λ c' n.address n.pre) :
    Joined c' G log label k (label n.address) pre C := by
  obtain ⟨r, hr, _⟩ := h.recording.records C n hn
  have hLater := h.recording.successive.grows_between (h.recording.grows_of_mem h.frugal)
    (h.recording.parent_of_child hChild).1 hR hr
  exact ⟨Λ, n, r, hStrict, hn, hr, rfl, hBond.grow (.refl k) hLater, hMeets⟩

/-- What follows an execution of a removed instruction may be replayed in its place. -/
theorem joined_next (h : Propagated c c' G maxVisits entry s t log label stands)
    (hJoins : Joins c' G log label k a pre K Λ N R) (hNone : stands N.address = none) :
    (∃ C, C ∈ G.childrenOf K) ∧ ∀ C ∈ G.childrenOf K, Joined c' G log label k a pre C := by
  obtain ⟨hAfter, next, post, hStep, hNext, hLabel, hMeets⟩ :=
    h.meets_next hJoins.node hJoins.performed hNone hJoins.meets
  have hMem (x : Address × State) :=
    h.recording.mem_successors_iff h.completed hJoins.node hJoins.performed (x := x)
  rw [hStep] at hMem
  constructor
  · obtain ⟨C, hChild, _⟩ := (hMem _).mp (List.mem_singleton_self _)
    exact ⟨C, hChild⟩
  · intro C hChild
    obtain ⟨n, hn⟩ := Graph.isLive_iff.mp (h.recording.linked.live_of_child hChild).2
    have hPlace := List.mem_singleton.mp ((hMem _).mpr ⟨C, hChild, n, hn, rfl⟩)
    obtain ⟨rfl, rfl⟩ := Prod.mk.inj hPlace
    have hBond : Λ.Bond k R.after.heap := hAfter ▸ hJoins.bond
    have hJoined := h.joined_child hJoins.performed hChild hn hJoins.strict hBond hMeets
    rwa [hLabel, ← hJoins.place] at hJoined

/-- A step that takes the place of one of the second run does what that has done. -/
theorem follows_of_apply (h : Propagated c c' G maxVisits entry s t log label stands)
    (hJoins : Joins c' G log label u.heap a pre K Λ N R) {j : Instruction Address} (hj : stands N.address = some j)
    (hRun : c.apply a pre u = (.ok step, v)) : Follows c' label Λ u R step v := by
  have hEnds := h.follows hJoins.node hJoins.performed hj hJoins.strict hJoins.bond hJoins.meets
  rw [← hJoins.place] at hEnds
  unfold Run.Ends at hEnds
  rwa [hRun] at hEnds

/-- A replayed step leads to what follows the execution of the second run, and to nothing else. -/
theorem continues (h : Propagated c c' G maxVisits entry s t log label stands)
    (hJoins : Joins c' G log label u.heap a pre K Λ N R) (hFollows : Follows c' label Λ u R step v) :
    G.Continues (Joined c' G log label) K step v.heap := by
  obtain ⟨Λ', hAdvances, hCovers⟩ := hFollows
  have hStrict : ¬ Λ'.loose := fun hl => hJoins.strict (hAdvances.grows.loose.mp hl)
  have hMem (x : Address × State) :=
    h.recording.mem_successors_iff h.completed hJoins.node hJoins.performed (x := x)
  have hThere {p q : Address × State} (hPlace : p.1 = label q.1)
      (hArrives : p.2.Arrives Λ' (c'.method.isHandler q.1 = true) q.2) {C : NodeId}
      (hChild : C ∈ G.childrenOf K) {n : Node} (hn : G.node? C = some n) (hq : (n.address, n.pre) = q) :
      Joined c' G log label v.heap p.1 p.2 C := by
    obtain rfl := hq
    rw [hPlace]
    exact h.joined_child hJoins.performed hChild hn hStrict hAdvances.bond hArrives.meets
  constructor
  · intro p hp
    obtain ⟨q, hq, hPlace, hArrives⟩ := hCovers.forward p hp
    obtain ⟨C, hChild, n, hn, hHere⟩ := (hMem q).mp hq
    exact ⟨C, hChild, hThere hPlace hArrives hChild hn hHere⟩
  · intro C hChild
    obtain ⟨n, hn⟩ := Graph.isLive_iff.mp (h.recording.linked.live_of_child hChild).2
    obtain ⟨p, hp, hPlace, hArrives⟩ := hCovers.backward hStrict _ ((hMem _).mpr ⟨C, hChild, n, hn, rfl⟩)
    exact ⟨p, hp, hThere hPlace hArrives hChild hn rfl⟩

/-- The graph of the second run tells the first one. No step fails, and nothing but the nodes costs anything. -/
theorem tells (h : Propagated c c' G maxVisits entry s t log label stands) :
    G.Tells c label (fun a => stands a ≠ none) (fun _ => 1) False (Joined c' G log label) where
  node k a pre K hJoined := by
    obtain ⟨Λ, N, R, hJoins⟩ := hJoined
    exact ⟨N, hJoins.node, hJoins.place⟩
  grow k k' a pre K hJoined hk := joined_grow hJoined hk
  charged _ _ _ _ _ := Nat.one_ne_zero
  gone k a pre K N hJoined hN hGone := by
    obtain ⟨Λ, N', R, hJoins⟩ := hJoined
    obtain rfl := Option.some.inj (hJoins.node.symm.trans hN)
    exact h.joined_next hJoins (not_not.mp hGone)
  step u a pre K N hJoined hN hKept _ := by
    obtain ⟨Λ, N', R, hJoins⟩ := hJoined
    obtain rfl := Option.some.inj (hJoins.node.symm.trans hN)
    obtain ⟨j, hj⟩ := Option.ne_none_iff_exists'.mp hKept
    obtain ⟨i, hi⟩ := Code.exists_at? (h.recording.piled.hasAddress hJoins.node)
    have hEnds := h.follows hJoins.node hJoins.performed hj hJoins.strict hJoins.bond hJoins.meets
    rw [← hJoins.place] at hEnds
    refine hEnds.noting.imp (fun step v ⟨hRun, hFollows⟩ => ?_) fun _ _ hFalse => hFalse
    have hSpent := h.apply_thrifty hi hj pre u
    rw [← hJoins.place, hRun] at hSpent
    have hContinues := h.continues hJoins hFollows
    obtain ⟨Λ', hAdvances, _⟩ := hFollows
    exact ⟨hAdvances.first, congrArg (· + 1) hSpent, hContinues⟩
  again u v a pre K N step hJoined hN hKept hRun _ := by
    obtain ⟨Λ, N', R, hJoins⟩ := hJoined
    obtain rfl := Option.some.inj (hJoins.node.symm.trans hN)
    obtain ⟨j, hj⟩ := Option.ne_none_iff_exists'.mp hKept
    exact h.continues hJoins (h.follows_of_apply hJoins hj hRun)
  injective K L N M hN hM hKept hKept' hSame := by
    obtain ⟨j, hj⟩ := Option.ne_none_iff_exists'.mp hKept
    obtain ⟨j', hj'⟩ := Option.ne_none_iff_exists'.mp hKept'
    exact h.moved.injective (h.recording.piled.hasAddress hN) (h.recording.piled.hasAddress hM) hj hj' hSame

/-- Where the graph of the second run has a node, it has one for the entry. -/
theorem joined_entry (h : Propagated c c' G maxVisits entry s t log label stands) (hEntry : entry.Direct)
    (hHeap : s.heap = .after entry) (hCode : c'.method.code ≠ []) :
    Joined c' G log label (.after entry) 0 entry 0 := by
  obtain ⟨N, R, hN, hR, hPlace, hPre, hBefore⟩ := h.recording.exists_first h.completed hCode
  refine ⟨.own entry, N, R, id, hN, hR, ?_, ?_, ?_⟩
  · rw [hPlace, h.moved.zero]
  · rw [hBefore, hHeap]
    exact Links.bond_own entry
  · obtain ⟨hResult, hException⟩ := hEntry.passes
    rw [hPre]
    refine ⟨hEntry.stands, fun _ _ => ?_, ?_, fun _ => ⟨hException, hException⟩⟩
    · rw [hResult]
      exact .unknown _
    · rw [hException]
      exact .unknown _

end Propagated

end Constants

end Dalvik
