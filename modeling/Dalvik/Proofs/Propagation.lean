import Dalvik.Proofs.Replay
import Dalvik.Proofs.Spending
import Mathlib.Data.List.Sort

/-!
Constant propagation preserves a program. A method through which constants have been propagated does what it
did before, and the graph that has been edited along with it tells what it does.
-/

namespace Dalvik

/-- An execution is like another one: it takes place at the same address, and the registers hold the same
before it and after it, up to the names of instances and the types of null. -/
structure Node.Like (Λ : Links) (n N : Node) : Prop where
  strict : ¬ Λ.loose
  injective : Λ.Injective
  address : n.address = N.address
  pre : n.pre.Stands Λ N.pre
  post : n.post.Stands Λ N.post

namespace Graph

/-- Where control has gone from an execution. -/
def leadsTo (g : Graph) (id : NodeId) : List Address := (g.places (g.childrenOf id)).map Prod.fst

/-- An execution of a run is like one of an edited graph. What it returns and where it leads is what the
original graph tells of that. `label` says where the places of the original method are now. -/
def Retraces (g G' G : Graph) (label : Address → Address) (k K : NodeId) : Prop :=
  ∃ Λ n N O, g.node? k = some n ∧ G'.node? K = some N ∧ G.node? K = some O ∧ n.Like Λ N ∧
    N.address = label O.address ∧
    Option.Rel (Option.Rel (Value.Stands Λ)) (g.returned? n) (G.returned? O) ∧
    ∀ a, a ∈ g.leadsTo k ↔ a ∈ (G.leadsTo K).map label

/-- An execution has decided nothing but to go on to the next instruction, which is where control that went
to it goes now. -/
def Skips (G : Graph) (label : Address → Address) (K : NodeId) : Prop :=
  ∃ O i next, G.node? K = some O ∧ G.method.code.at? O.address = some i ∧ i.isBranch = true ∧
    G.method.code.next? O.address = some next ∧ G.leadsTo K = [next] ∧ label next = label O.address

/-- A run does what an edited graph and the original one tell. -/
structure Preserves (g G' G : Graph) (label : Address → Address) : Prop where
  forward : ∀ k, g.isLive k = true → ∃ K, g.Retraces G' G label k K
  backward : ∀ K, G'.isLive K = true → ∃ k, g.Retraces G' G label k K
  skips : ∀ K, G.isLive K = true → G'.isLive K = false → G.Skips label K
  reached : g.reached = G'.reached

variable {g G G' : Graph} {c : Semantics.Context} {maxVisits : Nat} {entry : State} {s t : Supply}
  {log : List Performance} {label : Address → Address}

/-- In a complete graph an execution leads to where its step does. -/
theorem Recording.leadsTo_eq (h : g.Recording c maxVisits entry s log t) (hDone : g.status = .completed)
    {id : NodeId} {n : Node} {r : Performance} (hn : g.node? id = some n) (hr : log[id]? = some r) :
    g.leadsTo id = r.step.successors.map Prod.fst := by
  rw [← (h.completed.mp hDone).2 id n r hn hr]
  simp [leadsTo, childrenOf, hn]

/-- Where an execution leads is where another one does, if both steps lead to the same places. -/
theorem Recording.mem_leadsTo_iff {c' : Semantics.Context} {maxVisits' : Nat} {entry' : State} {s' t' : Supply}
    {log' : List Performance} {k K : NodeId} {n N : Node} {r R : Performance}
    (hg : g.Recording c maxVisits entry s log t) (hDone : g.status = .completed) (hn : g.node? k = some n)
    (hr : log[k]? = some r) (hG : G.Recording c' maxVisits' entry' s' log' t') (hDone' : G.status = .completed)
    (hN : G.node? K = some N) (hR : log'[K]? = some R)
    (hForward : ∀ p ∈ r.step.successors, ∃ q ∈ R.step.successors, p.1 = label q.1)
    (hBackward : ∀ q ∈ R.step.successors, ∃ p ∈ r.step.successors, p.1 = label q.1) (a : Address) :
    a ∈ g.leadsTo k ↔ a ∈ (G.leadsTo K).map label := by
  rw [hg.leadsTo_eq hDone hn hr, hG.leadsTo_eq hDone' hN hR, List.map_map]
  constructor
  · intro ha
    obtain ⟨p, hp, rfl⟩ := List.mem_map.mp ha
    obtain ⟨q, hq, hPlace⟩ := hForward p hp
    exact List.mem_map.mpr ⟨q, hq, hPlace.symm⟩
  · intro ha
    obtain ⟨q, hq, rfl⟩ := List.mem_map.mp ha
    obtain ⟨p, hp, hPlace⟩ := hBackward q hq
    exact List.mem_map.mpr ⟨p, hp, hPlace⟩

/-- Graphs that reach the same addresses list them alike. -/
theorem reached_eq (h : ∀ a, a ∈ g.reached ↔ a ∈ G.reached) : g.reached = G.reached :=
  (ascending_pairwise _).eq_of_mem_iff (ascending_pairwise _) h

end Graph

namespace State

/-- Registers that stand for each other are read alike. -/
theorem Stands.read_rel {Λ : Links} {s t : State} (h : s.Stands Λ t) (r : Register) :
    Option.Rel (Value.Stands Λ) (s.read r).toOption (t.read r).toOption := by
  have hRegister := h.getElem? r
  unfold State.read
  generalize s.registers[r]? = x, t.registers[r]? = y at hRegister
  cases hRegister with
  | none => exact .none
  | some hRel =>
      cases hRel with
      | none => exact .some (.unknown .object)
      | some hStands => exact .some hStands

end State

namespace Constants.Propagated

open Semantics (Context)

variable {c c' : Context} {G : Graph} {maxVisits : Nat} {entry : State} {s t : Supply}
  {log : List Performance} {label : Address → Address} {stands : Address → Option (Instruction Address)}
  {K : NodeId} {N : Node} {R : Performance} {Λ : Links} {j : Instruction Address}

/-- Returns are never touched. -/
theorem returned_rel (h : Propagated c c' G maxVisits entry s t log label stands)
    (hN : G.node? K = some N) (hj : stands N.address = some j) {g : Graph} (hMethod : g.method = c.method)
    {n : Node} (hPlace : n.address = label N.address) (hPost : n.post.Stands Λ N.post) :
    Option.Rel (Option.Rel (Value.Stands Λ)) (g.returned? n) (G.returned? N) := by
  obtain ⟨i, hi⟩ := Code.exists_at? (h.recording.piled.hasAddress hN)
  have hInsn := h.moved.insn _ j (Code.hasAddress_of_at? hi) hj
  unfold Graph.returned?
  rw [hMethod, hPlace, hInsn, h.recording.sameMethod, hi]
  rcases h.cases hi with hSame | ⟨next, _, ⟨target, hDecides, hStands⟩ | ⟨dst, l, hComputes, _, _, hLoad⟩⟩
  · obtain rfl := Option.some.inj (hj.symm.trans hSame)
    cases j with
    | returnVoid => exact .some .none
    | returnValue src =>
        have hRead := hPost.read_rel src
        dsimp only [Instruction.mapTargets]
        generalize (n.post.read src).toOption = x, (N.post.read src).toOption = y at hRead
        cases hRead with
        | none => exact .none
        | some hStands => exact .some (.some hStands)
    | _ => exact .none
  · rcases hStands with ⟨_, hNone⟩ | hGoto
    · rw [hNone] at hj
      cases hj
    · obtain rfl := Option.some.inj (hGoto.symm.trans hj)
      cases i with
      | returnVoid | returnValue _ => cases hDecides
      | _ => exact .none
  · obtain rfl := Option.some.inj (hj.symm.trans hLoad)
    cases i with
    | returnVoid | returnValue _ => cases hComputes
    | _ => exact .none

/-- A replay is like the execution in the edited graph that it is the replay of. -/
theorem retraces_of_joins (h : Propagated c c' G maxVisits entry s t log label stands) {G' : Graph}
    (hCarried : G.Carried G' label stands) {g : Graph} {s' t' : Supply} {log' : List Performance}
    (hg : g.Recording c maxVisits entry s' log' t') (hDone : g.status = .completed) {k : NodeId}
    {n : Node} {r : Performance} (hn : g.node? k = some n) (hr : log'[k]? = some r)
    (hJoins : Joins c' G log label r.before.heap n.address n.pre K Λ N R) (hj : stands N.address = some j) :
    g.Retraces G' G label k K := by
  obtain ⟨r', hr', hRecords⟩ := hg.records k n hn
  obtain rfl := Option.some.inj (hr'.symm.trans hr)
  obtain ⟨Λ', hAdvances, hCovers⟩ := h.follows_of_apply hJoins hj hRecords.applied
  have hStrict : ¬ Λ'.loose := fun hl => hJoins.strict (hAdvances.grows.loose.mp hl)
  have hPost : n.post.Stands Λ' N.post := by
    rw [hRecords.post, (h.records hJoins.node hJoins.performed).post]
    exact hCovers.stands hStrict
  obtain ⟨N', hN', hAddress, hPre', hPost'⟩ := hCarried.exists_node hJoins.node hj
  refine ⟨Λ', n, N', N, hn, hN', hJoins.node, ⟨hStrict, hAdvances.bond.injective, ?_, ?_, ?_⟩,
    hAddress, h.returned_rel hJoins.node hj hg.sameMethod hJoins.place hPost, fun a => ?_⟩
  · rw [hAddress, hJoins.place]
  · rw [hPre']
    exact hJoins.meets.stands.grow hAdvances.grows
  · rw [hPost']
    exact hPost
  · refine hg.mem_leadsTo_iff hDone hn hr h.recording h.completed hJoins.node hJoins.performed (fun p hp => ?_)
      (fun q hq => ?_) a
    · obtain ⟨q, hq, hPlace, _⟩ := hCovers.forward p hp
      exact ⟨q, hq, hPlace⟩
    · obtain ⟨p, hp, hPlace, _⟩ := hCovers.backward hStrict q hq
      exact ⟨p, hp, hPlace⟩

/-- What is not in the edited graph any more has only gone on to the next instruction. -/
theorem skips_of_gone (h : Propagated c c' G maxVisits entry s t log label stands)
    (hN : G.node? K = some N) (hNone : stands N.address = none) : G.Skips label K := by
  obtain ⟨i, hi⟩ := Code.exists_at? (h.recording.piled.hasAddress hN)
  obtain ⟨next, hNext, hDecides, hLabel⟩ := h.decides_of_gone hi hNone
  obtain ⟨R, hR, hRecords⟩ := h.recording.records K N hN
  have hGoes := Context.next_eq_ok_iff.mpr hNext
  have hStep := hDecides.apply_eq (c := c') h.recording.piled hN rfl hi hGoes R.before
  rw [hRecords.applied] at hStep
  refine ⟨N, i, next, hN, ?_, hDecides.isBranch, ?_, ?_, hLabel⟩
  · rw [h.recording.sameMethod]
    exact hi
  · rw [h.recording.sameMethod]
    exact hNext
  · rw [h.recording.leadsTo_eq h.completed hN hR, Except.ok.inj (Prod.mk.inj hStep).1]
    rfl

section

variable {G' : Graph} {g : Graph} {s' t' : Supply} {log' : List Performance}
  (h : Propagated c c' G maxVisits entry s t log label stands) (hCarried : G.Carried G' label stands)
  (hg : g.Recording c maxVisits entry s' log' t') (hDone : g.status = .completed)
  (hFrugal : ∀ a pre, Run.Frugal (c.apply a pre)) (hLeft : ∀ r ∈ log', r.after.budget ≠ 0)
  (hEntry : c'.method.code ≠ [] → Joined c' G log label s'.heap 0 entry 0)

include h hCarried hg hDone hFrugal hLeft hEntry

/-- Every execution of a complete run is told of by the graphs. -/
theorem exists_retraced_of_node {k : NodeId} {n : Node} (hn : g.node? k = some n) :
    ∃ K, g.Retraces G' G label k K := by
  have hCode : c'.method.code ≠ [] := fun hEmpty => (hg.rooted hn).2 (h.moved.eq_nil hEmpty)
  obtain ⟨r, K, hr, ⟨Λ, N, R, hJoins⟩, N', hN', hKept⟩ :=
    h.tells.exists_mate_of_node h.recording hg hFrugal hLeft (hEntry hCode) hn
  obtain rfl := Option.some.inj (hJoins.node.symm.trans hN')
  obtain ⟨j, hj⟩ := Option.ne_none_iff_exists'.mp hKept
  exact ⟨K, h.retraces_of_joins hCarried hg hDone hn hr hJoins hj⟩

/-- Every execution that the edited graph tells of takes place in a complete run. -/
theorem exists_retraced_of_told {N' : Node} (hN' : G'.node? K = some N') :
    ∃ k, g.Retraces G' G label k K := by
  obtain ⟨N, j, hN, hj⟩ := hCarried.exists_origin hN'
  have hCode : c.method.code ≠ [] := by
    have hInsn := h.moved.insn _ j (h.recording.piled.hasAddress hN) hj
    intro hEmpty
    rw [hEmpty] at hInsn
    cases hInsn
  obtain ⟨k, n, r, hn, hr, Λ, N₁, R, hJoins⟩ :=
    h.tells.exists_joined_of_node h.recording hg hFrugal hLeft hDone (hEntry (h.recording.rooted hN).2) hCode hN
  obtain rfl := Option.some.inj (hJoins.node.symm.trans hN)
  exact ⟨k, h.retraces_of_joins hCarried hg hDone hn hr hJoins hj⟩

/-- The complete run of a method through which constants have been propagated does what the graphs tell. -/
theorem preserves (hG' : G'.Consistent) : g.Preserves G' G label := by
  refine ⟨fun k hk => ?_, fun K hK => ?_, fun K hK hGone => ?_, Graph.reached_eq fun a => ?_⟩
  · obtain ⟨n, hn⟩ := Graph.isLive_iff.mp hk
    exact h.exists_retraced_of_node hCarried hg hDone hFrugal hLeft hEntry hn
  · obtain ⟨N', hN'⟩ := Graph.isLive_iff.mp hK
    exact h.exists_retraced_of_told hCarried hg hDone hFrugal hLeft hEntry hN'
  · obtain ⟨N, hN⟩ := Graph.isLive_iff.mp hK
    refine h.skips_of_gone hN ?_
    by_contra hStands
    obtain ⟨j, hj⟩ := Option.ne_none_iff_exists'.mp hStands
    obtain ⟨N', hN', _⟩ := hCarried.exists_node hN hj
    rw [Graph.isLive_iff.mpr ⟨N', hN'⟩] at hGone
    cases hGone
  · rw [hg.piled.mem_reached, hG'.piled.mem_reached]
    constructor
    · rintro ⟨k, n, hn, rfl⟩
      obtain ⟨K, Λ, n', N, O, hn', hN, _, hLike, _⟩ :=
        h.exists_retraced_of_node hCarried hg hDone hFrugal hLeft hEntry hn
      obtain rfl := Option.some.inj (hn'.symm.trans hn)
      exact ⟨K, N, hN, hLike.address.symm⟩
    · rintro ⟨K, N, hN, rfl⟩
      obtain ⟨k, Λ, n, N', O, hn, hN', _, hLike, _⟩ :=
        h.exists_retraced_of_told hCarried hg hDone hFrugal hLeft hEntry hN
      obtain rfl := Option.some.inj (hN'.symm.trans hN)
      exact ⟨k, n, hn, hLike.address⟩

end

end Constants.Propagated

namespace Constants

variable {m : Machine} {method : Method} {entry : State} {g : Graph}

/-- Of arguments of which nothing is known nothing is in another one. -/
theorem direct_initialState (method : Method) : (Machine.initialState method).Direct where
  flat v hv := by
    rcases List.mem_append.mp hv with hLocal | hParam
    · simp [Machine.initialState, State.blank] at hLocal
    · obtain ⟨d, _, hd⟩ := List.mem_map.mp hParam
      obtain rfl := Option.some.inj hd
      rfl
  passes := ⟨rfl, rfl⟩

/-- Plans that have been carried out on the complete graph of an execution are carried out on its method. -/
theorem Rewritten.propagated {g' : Graph} {label : Address → Address}
    {stands : Address → Option (Instruction Address)} {bound maxVisits : Nat} {s t : Supply}
    {log : List Performance} (h : Rewritten g g' label stands bound) (hMethod : g.method = method)
    (hRecording : g.Recording (m.context method 0) maxVisits entry s log t) (hHeap : g.heap = t.heap)
    (hDone : g.status = .completed) (hWell : method.WellFormed)
    (hCalls : ∀ i ∈ method.code, (m.context method 0).RunsNoBody i) :
    Propagated (m.context g'.method 0) (m.context method 0) g maxVisits entry s t log label stands where
  recording := hRecording
  heap := hHeap
  completed := hDone
  frugal := m.context_frugal method 0
  lapse := m.callsLapse_context method 0
  calls _ i hi := hCalls i (Code.mem_of_at? hi)
  wellFormed := hWell
  classes := rfl
  moved := hMethod ▸ h.moved
  planned a i hi := by
    rcases h.planned a i (hMethod.symm ▸ hi) with hSame | ⟨plan, kind, _, hPlan, hStands⟩
    · exact .inl hSame
    · exact .inr ⟨plan, kind, hPlan, hStands⟩

/-- A method with a computation and a branch that are decided, and a quotient and a branch that are not. -/
def foldingMethod : Method where
  reference := ⟨⟨"La;"⟩, "fold", [.int], .int⟩
  flags := { static := true }
  locals := 2
  code := [.const 0 (.int 6), .branch .eq 0 none 12, .binary .add .int 1 0 (.literal 1),
    .binary .div .int 1 1 (.register 2), .branch .eq 1 none 12, .returnValue 1, .returnValue 0,
    .moveException 1, .returnValue 0]
  tries := [⟨7, 9, [⟨none, 13⟩]⟩]

theorem bounded_foldingMethod : foldingMethod.Bounded := by
  intro b hb
  obtain rfl := List.mem_singleton.mp hb
  exact ⟨⟨3, by decide, rfl⟩, 4, by decide, rfl⟩

theorem runsNoBody_foldingMethod :
    ∀ i ∈ foldingMethod.code, (Machine.bare.context foldingMethod 0).RunsNoBody i := by
  rintro i hi kind m args rfl
  simp [foldingMethod] at hi

end Constants

end Dalvik
