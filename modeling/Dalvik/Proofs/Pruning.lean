import Dalvik.Proofs.Budgets
import Dalvik.Proofs.Likeness
import Dalvik.Proofs.Reenacting
import Dalvik.Proofs.Relocating
import Dalvik.Proofs.Replay
import Dalvik.Proofs.Spending
import Dalvik.Proofs.Thinning

/-!
Runs of a method from which instructions have been removed that did nothing that matters, and in which results that
are known are loaded. The graph of the original method tells such a run, up to the names of instances and to registers
of which nothing is needed.
-/

namespace Dalvik

open Semantics (Context)

namespace Instruction

variable (f : Address → Address) {i : Instruction Address} {keep : Register → Prop}

theorem takesResult_mapTargets : (i.mapTargets f).takesResult = i.takesResult := by
  cases i <;> rfl

theorem mayThrow_mapTargets : (i.mapTargets f).mayThrow = i.mayThrow := by
  cases i <;> rfl

theorem passes_mapTargets : (i.mapTargets f).Passes keep = i.Passes keep := by
  unfold Passes
  rw [mayThrow_mapTargets, writes?_mapTargets]

end Instruction

namespace State

variable {Λ : Links} {takes : Bool} {keep keep' : Register → Prop} {s t u : State}

/-- An instruction that takes no result can tell no more than one that may take it. -/
theorem Serves.drop (h : s.Serves takes keep t) (hKeep : ∀ r, keep' r → keep r) : s.Serves false keep' t :=
  ⟨h.agrees.mono hKeep, nofun, h.exception⟩

theorem Tallies.exception_eq_none_iff (h : s.Tallies Λ takes keep t) (hBond : ∃ f, Λ.Spans f) :
    s.exception = none ↔ t.exception = none := by
  obtain ⟨p, q, hFirst, hSame, hSecond⟩ := h
  obtain ⟨f, hf⟩ := hBond
  have hRenamed := congrArg State.exception (hSame f hf)
  rw [← hSecond.exception, ← hRenamed, State.rename, ← hFirst.exception, Option.map_eq_none_iff]

/-- What a state is like, it is like after something that does not matter, too. -/
theorem Tallies.idle (h : s.Tallies Λ takes keep t) (hBond : ∃ f, Λ.Spans f) (hNone : s.exception = none)
    (hKeep : ∀ r, keep' r → keep r) (hAgrees : t.Agrees keep' u) (hPlain : u.exception = none) :
    s.Tallies Λ false keep' u := by
  have hException := (h.exception_eq_none_iff hBond).mp hNone
  obtain ⟨p, q, hFirst, hSame, hSecond⟩ := h
  refine ⟨p, q, hFirst.drop hKeep, hSame, ?_⟩
  have hLast := hSecond.drop hKeep
  exact ⟨hLast.agrees.trans hAgrees, nofun, by rw [hLast.exception, hException, hPlain]⟩

/-- Instances that are directly in registers keep their names if they stand for themselves. -/
theorem Direct.rename_eq (h : s.Direct) {f : Nat → Nat} (hf : (Links.own s).Spans f) : s.rename f = s := by
  have hRegisters {vs : List (Option Value)} (hAll : ∀ x ∈ vs, x ∈ s.registers) :
      vs.map (Option.map (Value.rename f)) = vs := by
    refine (List.map_congr_left fun x hx => ?_).trans (List.map_id vs)
    cases x with
    | none => rfl
    | some v =>
        refine congrArg some (Value.rename_of_fixed v fun i hi => hf.same i i ⟨rfl, v, hAll _ hx, ?_⟩)
        rw [h.flat v (hAll _ hx)] at hi
        exact Option.mem_toList.mp hi
  unfold State.rename
  rw [hRegisters fun x hx => List.mem_append_left _ hx, hRegisters fun x hx => List.mem_append_right _ hx,
    h.passes.1, h.passes.2]
  obtain ⟨locals, params, result, exception⟩ := s
  obtain ⟨rfl, rfl⟩ := h.passes
  rfl

/-- A state is like itself where its instances stand for themselves. -/
theorem Direct.tallies (h : s.Direct) (takes : Bool) (keep : Register → Prop) :
    s.Tallies (.own s) takes keep s := by
  have hSelf : s.Serves takes keep s := ⟨⟨.refl s, fun _ _ => rfl⟩, fun _ => rfl, rfl⟩
  exact ⟨s, s, hSelf, fun f hf => h.rename_eq hf, hSelf⟩

end State

namespace Pruning

/-- An execution has only gone on to the next instruction, and has changed no register that is needed
there. -/
structure Rests (c' : Context) (G : Graph) (needs : NodeId → Register → Prop) (K : NodeId) (N : Node)
    (step : Step) (b : Address) : Prop where
  leads : step.successors = [(b, step.post)]
  next : c'.method.code.next? N.address = some b
  here : c'.method.isHandler N.address = false
  there : c'.method.isHandler b = false
  keeps : ∀ C ∈ G.childrenOf K, ∀ r, needs C r → needs K r
  agrees : ∀ C ∈ G.childrenOf K, N.pre.Agrees (needs C) step.post

/-- Nor has it left a result that is taken. -/
structure Idles (c' : Context) (G : Graph) (needs : NodeId → Register → Prop) (K : NodeId) (N : Node)
    (step : Step) (b : Address) : Prop extends Rests c' G needs K N step b where
  takes : ∀ j, c'.method.code.at? b = some j → j.takesResult = false

/-- An execution has taken a class, and what stands there loads that class. -/
inductive TakesClass (c' : Context) (N : Node) : Instruction Address → Prop
  | intro {dst : Register} {d : Descriptor} (hi : c'.method.code.at? N.address = some (.moveResult dst))
      (hResult : N.pre.result = some (.type d)) : TakesClass c' N (.const dst (.type d))

/-- Instructions have been removed from the method of a complete recorded exploration, and loads have been put where
results are taken. The first run is that of what is left. `label` says where the places of the second are in it,
`stands` what stands there for an instruction, and `needs` which registers an execution needs. -/
structure Reduced (c c' : Context) (G : Graph) (maxVisits : Nat) (entry : State) (s t : Supply)
    (log : List Performance) (label : Address → Address) (stands : Address → Option (Instruction Address))
    (needs : NodeId → Register → Prop) (mayFail : Prop) : Prop where
  recording : G.Recording c' maxVisits entry s log t
  completed : G.status = .completed
  steady : ∀ a pre, Run.Steady (c'.apply a pre)
  paid : ∀ r ∈ log, r.Paid
  mirrors : c'.CallsMirror
  classes : c.classes = c'.classes
  call : c.call = c'.call
  retains : c'.method.Retains c.method label stands
  handlers : ∀ a i, c'.method.code.at? a = some i → stands a = some i →
    c.method.handlersAt (label a) = (c'.method.handlersAt a).map (Handler.retarget label)
  spares : ∀ K N j, G.node? K = some N → stands N.address = some j →
    c'.method.code.at? N.address = some j ∨ TakesClass c' N j
  ends : ∀ b, c'.method.code.HasAddress b →
    (∀ x, c'.method.code.HasAddress x → b ≤ x → stands x = none) → mayFail
  reads : ∀ K N i, G.node? K = some N → stands N.address = some i → ∀ r ∈ i.reads, needs K r
  passes : ∀ K N i C, G.node? K = some N → stands N.address = some i → C ∈ G.childrenOf K →
    ∀ r, needs C r → i.Passes (needs K) r
  gone : ∀ K N R, G.node? K = some N → log[K]? = some R → stands N.address = none →
    ∃ b, Rests c' G needs K N R.step b ∧ (stands b).any Instruction.takesResult = false

/-- Instructions have been removed, and what is left is as it was. -/
structure Pruned (c c' : Context) (G : Graph) (maxVisits : Nat) (entry : State) (s t : Supply)
    (log : List Performance) (label : Address → Address) (stands : Address → Option (Instruction Address))
    (needs : NodeId → Register → Prop) (mayFail : Prop) : Prop
    extends Reduced c c' G maxVisits entry s t log label stands needs mayFail where
  same : ∀ a j, stands a = some j → c'.method.code.at? a = some j

section

variable (c' : Context) (G : Graph) (log : List Performance) (label : Address → Address)
  (stands : Address → Option (Instruction Address)) (needs : NodeId → Register → Prop)

/-- A state at a place of the first run is like that of an execution of the second, as far as what stands for its
instruction and whatever follows can tell. -/
structure Joins (h : Heap) (a : Address) (pre : State) (K : NodeId) (Λ : Links) (N : Node) (R : Performance) :
    Prop where
  node : G.node? K = some N
  performed : log[K]? = some R
  place : a = label N.address
  bond : Λ.Bond h R.before.heap
  tallies : pre.Tallies Λ ((stands N.address).any Instruction.takesResult) (needs K) N.pre
  plain : c'.method.isHandler N.address = false → pre.exception = none

/-- A state that some execution of the second run is like. -/
def Joined (h : Heap) (a : Address) (pre : State) (K : NodeId) : Prop :=
  ∃ Λ N R, Joins c' G log label stands needs h a pre K Λ N R

/-- A step of the first run does what a recorded step of the second has done, as far as it matters. -/
def Follows (Λ : Links) (u : Supply) (K : NodeId) (R : Performance) (i : Instruction Address) (step : Step)
    (v : Supply) : Prop :=
  ∃ Λ', Λ.Advances u.heap R.before.heap Λ' v.heap R.after.heap ∧
    step.post.Tallies Λ' true (needs K) R.step.post ∧
      Context.Matched label (fun b p q => p.Tallies Λ' true (i.Passes (needs K)) q ∧
        (c'.method.isHandler b = false → p.exception = none)) step.successors R.step.successors

end

/-- What an execution of the second run has cost. -/
def cost (log : List Performance) (K : NodeId) : Nat := ((log[K]?).map Performance.cost).getD 0

namespace TakesClass

variable {c c' : Context} {N : Node} {j : Instruction Address} {label : Address → Address} {a : Address}
  {s t : Supply} {step : Step} {lenient : Prop}

/-- Loading the class takes nothing from the supply, as taking it did not. -/
theorem apply_supply (h : TakesClass c' N j) (hNew : c.method.code.at? a = some j) :
    (c.apply a N.pre s).2 = (c'.apply N.address N.pre s).2 := by
  obtain ⟨hi, _⟩ := h
  rw [Context.apply_eq c N.pre hNew, Context.apply_eq c' N.pre hi, Context.snd_bind_ofExcept,
    Context.snd_bind_ofExcept]
  change (Run.ofExcept _ s).2 = (Run.ofExcept _ s).2
  rfl

/-- Loading the class does what taking it did, unless there is nothing left to go on to. -/
theorem apply_moved (h : TakesClass c' N j) (hNew : c.method.code.at? a = some j)
    (hNext : ∀ b, c'.next N.address = .ok b → c.next a = .ok (label b) ∨ lenient ∧ ∃ e, c.next a = .error e)
    (hStep : c'.apply N.address N.pre s = (.ok step, t)) :
    Run.Ends (c.apply a N.pre) s
      (fun moved u => u = t ∧ moved.post = step.post ∧ Context.Same label moved.successors step.successors)
      fun _ _ => lenient := by
  obtain ⟨hi, hResult⟩ := h
  rename_i dst d
  obtain ⟨i, o, hi', hDoes, hSuccessors, hPost⟩ := Context.exists_outcome hStep
  obtain rfl := Option.some.inj (hi'.symm.trans hi)
  obtain ⟨hDone, rfl⟩ := Prod.mk.inj hDoes
  rw [hResult, Option.getD_some] at hDone
  cases hAssign : N.pre.resting.assign dst (.type d) with
  | error e =>
      change (N.pre.resting.assign dst (.type d)).map _ = _ at hDone
      rw [hAssign] at hDone
      cases hDone
  | ok p =>
      change (N.pre.resting.assign dst (.type d)).map _ = _ at hDone
      rw [hAssign] at hDone
      obtain rfl := Except.ok.inj hDone
      obtain ⟨b, hGoes, hLeads⟩ := Context.successors_next rfl rfl hSuccessors
      rcases hNext b (Context.next_eq_ok_iff.mpr hGoes) with hThere | ⟨hLenient, e, hNone⟩
      · unfold Run.Ends
        rw [Context.apply_const hNew rfl hAssign hThere]
        refine ⟨rfl, hPost.symm, ?_⟩
        rw [hLeads]
        exact ⟨by simp, by simp⟩
      · unfold Run.Ends
        rw [Context.apply_const_eq hNew rfl hAssign, hNone]
        exact hLenient

end TakesClass

namespace Reduced

variable {c c' : Context} {G : Graph} {maxVisits : Nat} {entry : State} {s t : Supply}
  {log : List Performance} {label : Address → Address} {stands : Address → Option (Instruction Address)}
  {needs : NodeId → Register → Prop} {mayFail : Prop} {a : Address} {pre : State} {k : Heap}
  {K C : NodeId} {N : Node} {R : Performance} {Λ : Links} {i : Instruction Address} {u v w : Supply}
  {step : Step}

theorem joined_grow {k' : Heap} (h : Joined c' G log label stands needs k a pre K) (hk : k.Grows k') :
    Joined c' G log label stands needs k' a pre K := by
  obtain ⟨Λ, N, R, hJoins⟩ := h
  exact ⟨Λ, N, R, hJoins.node, hJoins.performed, hJoins.place, hJoins.bond.grow hk (.refl _), hJoins.tallies,
    hJoins.plain⟩

/-- Where control goes on to from what is left, unless nothing is left there. -/
theorem next (h : Reduced c c' G maxVisits entry s t log label stands needs mayFail) {b x : Address}
    (hi : stands x = some i) (hNext : c'.next x = .ok b) :
    c.next (label x) = .ok (label b) ∨ mayFail ∧ ∃ e, c.next (label x) = .error e := by
  have hNext := Context.next_eq_ok_iff.mp hNext
  rcases h.retains.next x b i hi hNext with hThere | ⟨hNone, hGone⟩
  · exact .inl (Context.next_eq_ok_iff.mpr hThere)
  · refine .inr ⟨h.ends b (Code.hasAddress_of_next? hNext).2.1 hGone, ?_⟩
    unfold Context.next
    rw [hNone]
    exact ⟨_, rfl⟩

theorem insn (h : Reduced c c' G maxVisits entry s t log label stands needs mayFail) (hN : G.node? K = some N)
    (hi : stands N.address = some i) : c.method.code.at? (label N.address) = some (i.mapTargets label) :=
  h.retains.insn _ _ (h.recording.piled.hasAddress hN) hi

/-- An instruction that is as it was is where it has gone, with its jumps and its handlers. -/
theorem moves (h : Reduced c c' G maxVisits entry s t log label stands needs mayFail) {x : Address}
    (hi : stands x = some i) (hSame : c'.method.code.at? x = some i) :
    Context.Moves c c' label mayFail (label x) x i where
  classes := h.classes
  call := h.call
  old := hSame
  new := h.retains.insn x i (Code.hasAddress_of_at? hSame) hi
  handlers := h.handlers x i hSame hi
  next _ hNext := h.next hi hNext

theorem performed (h : Reduced c c' G maxVisits entry s t log label stands needs mayFail)
    (hN : G.node? K = some N) (hR : log[K]? = some R) :
    c'.apply N.address N.pre R.before = (.ok R.step, R.after) := by
  obtain ⟨R', hR', hRecords⟩ := h.recording.records K N hN
  obtain rfl := Option.some.inj (hR'.symm.trans hR)
  exact hRecords.applied

theorem mem_successors_iff (h : Reduced c c' G maxVisits entry s t log label stands needs mayFail)
    (hN : G.node? K = some N) (hR : log[K]? = some R) {x : Address × State} :
    x ∈ R.step.successors ↔ ∃ C ∈ G.childrenOf K, ∃ n, G.node? C = some n ∧ (n.address, n.pre) = x :=
  h.recording.mem_successors_iff h.completed hN hR

/-- What follows an execution is left of the second run as soon as that has gone so far. -/
theorem joined_child (h : Reduced c c' G maxVisits entry s t log label stands needs mayFail)
    (hR : log[K]? = some R) (hChild : C ∈ G.childrenOf K) {n : Node} (hn : G.node? C = some n)
    (hBond : Λ.Bond k R.after.heap)
    (hTallies : pre.Tallies Λ ((stands n.address).any Instruction.takesResult) (needs C) n.pre)
    (hPlain : c'.method.isHandler n.address = false → pre.exception = none) :
    Joined c' G log label stands needs k (label n.address) pre C := by
  obtain ⟨r, hr, _⟩ := h.recording.records C n hn
  have hLater := h.recording.successive.grows_between
    (h.recording.grows_of_mem fun a pre => (h.steady a pre).frugal) (h.recording.parent_of_child hChild).1 hR hr
  exact ⟨Λ, n, r, hn, hr, rfl, hBond.grow (.refl k) hLater, hTallies, hPlain⟩

/-- The only place that a removed instruction leads to. -/
theorem child_of_rests (h : Reduced c c' G maxVisits entry s t log label stands needs mayFail)
    (hN : G.node? K = some N) (hR : log[K]? = some R) {b : Address}
    (hRests : Rests c' G needs K N R.step b) :
    (∃ C, C ∈ G.childrenOf K) ∧ ∀ C ∈ G.childrenOf K, ∀ n, G.node? C = some n →
      n.address = b ∧ n.pre = R.step.post := by
  have hMem (x : Address × State) := h.mem_successors_iff hN hR (x := x)
  rw [hRests.leads] at hMem
  constructor
  · obtain ⟨C, hChild, _⟩ := (hMem _).mp (List.mem_singleton_self _)
    exact ⟨C, hChild⟩
  · intro C hChild n hn
    have hPlace := List.mem_singleton.mp ((hMem _).mpr ⟨C, hChild, n, hn, rfl⟩)
    exact Prod.mk.inj hPlace

/-- What takes the place of a removed execution takes that of what follows it. -/
theorem joined_next (h : Reduced c c' G maxVisits entry s t log label stands needs mayFail)
    (hJoins : Joins c' G log label stands needs k a pre K Λ N R) (hNone : stands N.address = none) :
    (∃ C, C ∈ G.childrenOf K) ∧ ∀ C ∈ G.childrenOf K, Joined c' G log label stands needs k a pre C := by
  obtain ⟨b, hRests, hTakes⟩ := h.gone K N R hJoins.node hJoins.performed hNone
  obtain ⟨hSome, hOnly⟩ := h.child_of_rests hJoins.node hJoins.performed hRests
  refine ⟨hSome, fun C hChild => ?_⟩
  obtain ⟨n, hn⟩ := Graph.isLive_iff.mp (h.recording.linked.live_of_child hChild).2
  obtain ⟨hThere, hPre⟩ := hOnly C hChild n hn
  have hApplied := h.performed hJoins.node hJoins.performed
  have hGrows := ((h.steady N.address N.pre).frugal R.before).1
  rw [hApplied] at hGrows
  have hPlain := hJoins.plain hRests.here
  have hNow : R.step.post.exception = none :=
    Context.apply_plain hApplied (hRests.leads ▸ List.mem_singleton_self _) hRests.there
  have hTallies := hJoins.tallies.idle hJoins.bond.exists_spans hPlain (hRests.keeps C hChild)
    (hRests.agrees C hChild) hNow
  rw [← hPre, ← hTakes, ← hThere] at hTallies
  have hJoined := h.joined_child hJoins.performed hChild hn (hJoins.bond.grow (.refl k) hGrows) hTallies
    fun _ => hPlain
  rwa [hThere, h.retains.gone _ _ hRests.next hNone, ← hJoins.place] at hJoined

/-- What a removed instruction leads to in the end is left, and is no handler. -/
theorem exists_left (h : Reduced c c' G maxVisits entry s t log label stands needs mayFail)
    (hN : G.node? K = some N) (hNone : stands N.address = none) :
    ∃ D n, G.Below K D ∧ G.node? D = some n ∧ stands n.address ≠ none ∧ label n.address = label N.address ∧
      c'.method.isHandler n.address = false := by
  induction hSize : G.nodes.size - K using Nat.strongRecOn generalizing K N with
  | ind size ih =>
      obtain ⟨R, hR, _⟩ := h.recording.records K N hN
      obtain ⟨b, hRests, _⟩ := h.gone K N R hN hR hNone
      obtain ⟨⟨C, hChild⟩, hOnly⟩ := h.child_of_rests hN hR hRests
      obtain ⟨n, hn⟩ := Graph.isLive_iff.mp (h.recording.linked.live_of_child hChild).2
      obtain ⟨rfl, _⟩ := hOnly C hChild n hn
      have hLabel := h.retains.gone _ _ hRests.next hNone
      by_cases hLeft : stands n.address = none
      · have hLess := (h.recording.parent_of_child hChild).1
        have hBelow := Graph.lt_size_of_isLive (Graph.isLive_iff.mpr ⟨N, hN⟩)
        obtain ⟨D, m, hUpper, hm, hStands, hSame, hPlain⟩ :=
          ih _ (hSize ▸ Nat.sub_lt_sub_left hBelow hLess) hn hLeft rfl
        exact ⟨D, m, .head hChild hUpper, hm, hStands, hSame.trans hLabel, hPlain⟩
      · exact ⟨C, n, .single hChild, hn, hLeft, hLabel, hRests.there⟩

/-- Of the instructions that are left no two have got to one place. -/
theorem address_eq (h : Reduced c c' G maxVisits entry s t log label stands needs mayFail) {L : NodeId}
    {M : Node} (hN : G.node? K = some N) (hM : G.node? L = some M) (hKept : stands N.address ≠ none)
    (hKept' : stands M.address ≠ none) (hSame : label N.address = label M.address) :
    N.address = M.address := by
  obtain ⟨i, hi⟩ := Option.ne_none_iff_exists'.mp hKept
  obtain ⟨j, hj⟩ := Option.ne_none_iff_exists'.mp hKept'
  exact h.retains.injective _ _ i j (h.recording.piled.hasAddress hN) (h.recording.piled.hasAddress hM) hi hj hSame

/-- A handler that is entered has not got to where something else has. -/
theorem apart (h : Reduced c c' G maxVisits entry s t log label stands needs mayFail) {L : NodeId} {M : Node}
    (hN : G.node? K = some N) (hM : G.node? L = some M) (hHandler : c'.method.isHandler M.address = true)
    (hSame : label N.address = label M.address) : N.address = M.address := by
  have hKept : stands M.address ≠ none := by
    intro hNone
    obtain ⟨R, hR, _⟩ := h.recording.records L M hM
    obtain ⟨b, hRests, _⟩ := h.gone L M R hM hR hNone
    rw [hRests.here] at hHandler
    cases hHandler
  by_cases hNone : stands N.address = none
  · obtain ⟨D, n, _, hn, hLeft, hLabel, hPlain⟩ := h.exists_left hN hNone
    rw [h.address_eq hn hM hLeft hKept (hLabel.trans hSame), hHandler] at hPlain
    cases hPlain
  · exact h.address_eq hN hM hNone hKept hSame

/-- What stands for an instruction takes from the supply what that has taken. -/
theorem apply_supply (h : Reduced c c' G maxVisits entry s t log label stands needs mayFail)
    (hN : G.node? K = some N) (hi : stands N.address = some i) (u : Supply) :
    (c.apply (label N.address) N.pre u).2 = (c'.apply N.address N.pre u).2 := by
  rcases h.spares K N i hN hi with hSame | hTakes
  · exact (h.moves hi hSame).apply_supply
  · have hNew := h.insn hN hi
    cases hTakes with
    | intro hOld hResult => exact TakesClass.apply_supply (.intro hOld hResult) hNew

/-- What stands for an instruction does in the recorded state what that has done. -/
theorem repeats (h : Reduced c c' G maxVisits entry s t log label stands needs mayFail)
    (hN : G.node? K = some N) (hR : log[K]? = some R) (hi : stands N.address = some i)
    (hAgain : c'.apply N.address N.pre u = (.ok R.step, w)) :
    Run.Ends (c.apply (label N.address) N.pre) u
      (fun moved v => v = w ∧ moved.post = R.step.post ∧ Context.Same label moved.successors R.step.successors)
      fun _ _ => mayFail := by
  rcases h.spares K N i hN hi with hSame | hTakes
  · refine (h.moves hi hSame).apply_moved hAgain fun p hp q hq hHandler hBoth => ?_
    obtain ⟨C, _, n, hn, rfl⟩ := (h.mem_successors_iff hN hR).mp hp
    obtain ⟨D, _, m, hm, rfl⟩ := (h.mem_successors_iff hN hR).mp hq
    exact h.apart hn hm hHandler hBoth
  · have hNew := h.insn hN hi
    cases hTakes with
    | intro hOld hResult =>
        exact TakesClass.apply_moved (.intro hOld hResult) hNew (fun _ hNext => h.next hi hNext) hAgain

theorem callsMirror (h : Reduced c c' G maxVisits entry s t log label stands needs mayFail) : c.CallsMirror := by
  intro callee values values' Λ u v
  rw [h.call]
  exact h.mirrors callee values values' Λ u v

/-- From a state that is like the recorded one what stands for an instruction does what it does in that. -/
theorem mirrored (h : Reduced c c' G maxVisits entry s t log label stands needs mayFail)
    (hJoins : Joins c' G log label stands needs u.heap a pre K Λ N R) (hi : stands N.address = some i) :
    Run.Mirrors Λ (c.apply a pre) (c.apply (label N.address) N.pre) u { R.before with budget := u.budget }
      fun Λ' => Step.Tallies Λ' (needs K) (i.Passes (needs K)) := by
  rw [hJoins.place, ← Instruction.passes_mapTargets label]
  refine Context.apply_tallies h.callsMirror hJoins.bond rfl (h.insn hJoins.node hi) (fun r hr => ?_) ?_
  · exact h.reads K N i hJoins.node hi r (by simpa using hr)
  · have hTallies := hJoins.tallies
    rw [hi, Option.any_some] at hTallies
    rwa [Instruction.takesResult_mapTargets]

/-- A step of what is left does what the recorded step has done, if that is done with the same budget. -/
theorem follows_of_again (h : Reduced c c' G maxVisits entry s t log label stands needs mayFail)
    (hJoins : Joins c' G log label stands needs u.heap a pre K Λ N R) (hi : stands N.address = some i)
    (hAgain : c'.apply N.address N.pre { R.before with budget := u.budget } = (.ok R.step, w))
    (hHeap : w.heap = R.after.heap) :
    Run.Ends (c.apply a pre) u
      (fun step v => v.budget = w.budget ∧ Follows c' label needs Λ u K R i step v) fun _ _ => mayFail := by
  obtain ⟨Λ', hΛ, hBudget, hResult⟩ := h.mirrored hJoins hi
  have hRepeats := h.repeats hJoins.node hJoins.performed hi hAgain
  unfold Run.Ends at hRepeats ⊢
  generalize c.apply (label N.address) N.pre { R.before with budget := u.budget } = y, c.apply a pre u = x
    at hΛ hBudget hResult hRepeats
  obtain ⟨y, w'⟩ := y
  obtain ⟨x, v⟩ := x
  cases hResult with
  | error e => exact hRepeats
  | @ok step moved hTallies =>
      obtain ⟨rfl, hPost, hSame⟩ := hRepeats
      dsimp only at hΛ hBudget ⊢
      rw [hHeap] at hΛ
      have hPlain {p : State} {q : Address × State} (hq : q ∈ R.step.successors)
          (hStates : p.Tallies Λ' true (i.Passes (needs K)) q.2) (hOther : c'.method.isHandler q.1 = false) :
          p.exception = none :=
        (hStates.exception_eq_none_iff hΛ.bond.exists_spans).mpr (Context.apply_plain hAgain hq hOther)
      refine ⟨hBudget, Λ', hΛ, hPost ▸ hTallies.post, ?_, ?_⟩
      · intro p hp
        obtain ⟨m, hm, hPlace, hStates⟩ := exists_of_forall₂ hTallies.successors hp
        obtain ⟨q, hq, hThere, hEq⟩ := hSame.forward m hm
        rw [hEq] at hStates
        exact ⟨q, hq, hPlace.trans hThere, hStates, hPlain hq hStates⟩
      · intro q hq
        obtain ⟨m, hm, hThere, hEq⟩ := hSame.backward q hq
        obtain ⟨p, hp, hPlace, hStates⟩ := exists_of_forall₂ hTallies.successors.flip hm
        rw [hEq] at hStates
        exact ⟨p, hp, hPlace.trans hThere, hStates, hPlain hq hStates⟩

/-- With a budget that pays for it a step of what is left does what the recorded step has done. -/
theorem follows (h : Reduced c c' G maxVisits entry s t log label stands needs mayFail)
    (hJoins : Joins c' G log label stands needs u.heap a pre K Λ N R) (hi : stands N.address = some i)
    (hPaid : R.cost ≤ u.budget) :
    Run.Ends (c.apply a pre) u
      (fun step v => v.budget + R.cost = u.budget + 1 ∧ Follows c' label needs Λ u K R i step v)
      fun _ _ => mayFail := by
  obtain ⟨hShrinks, hLeft⟩ := h.paid R (List.mem_of_getElem? hJoins.performed)
  have hApplied := h.performed hJoins.node hJoins.performed
  unfold Performance.cost at hPaid ⊢
  have hAgain := (h.steady N.address N.pre).same R.before u.budget (by rw [hApplied]; exact hLeft)
    (by rw [hApplied]; dsimp only; omega)
  rw [hApplied] at hAgain
  refine (h.follows_of_again hJoins hi hAgain rfl).imp (fun step v ⟨hBudget, hFollows⟩ => ⟨?_, hFollows⟩)
    fun _ _ hFails => hFails
  dsimp only at hBudget
  omega

/-- So does a step that has left something of its budget. -/
theorem follows_of_left (h : Reduced c c' G maxVisits entry s t log label stands needs mayFail)
    (hJoins : Joins c' G log label stands needs u.heap a pre K Λ N R) (hi : stands N.address = some i)
    (hRun : c.apply a pre u = (.ok step, v)) (hLeft : v.budget ≠ 0) :
    Follows c' label needs Λ u K R i step v := by
  have hApplied := h.performed hJoins.node hJoins.performed
  obtain ⟨_, _, hBudget, _⟩ := h.mirrored hJoins hi
  rw [h.apply_supply hJoins.node hi, hRun] at hBudget
  have hAgain := (h.steady N.address N.pre).same_of_left (s := R.before) (b := u.budget)
    (by rw [hApplied]; exact (h.paid R (List.mem_of_getElem? hJoins.performed)).left)
    (by rw [← hBudget]; exact hLeft)
  rw [hApplied] at hAgain
  have hEnds := h.follows_of_again hJoins hi hAgain rfl
  unfold Run.Ends at hEnds
  rw [hRun] at hEnds
  exact hEnds.2

/-- Wherever a step leads, it goes on as the graph tells. -/
theorem continues (h : Reduced c c' G maxVisits entry s t log label stands needs mayFail)
    (hJoins : Joins c' G log label stands needs u.heap a pre K Λ N R) (hi : stands N.address = some i)
    (hFollows : Follows c' label needs Λ u K R i step v) :
    G.Continues (Joined c' G log label stands needs) K step v.heap := by
  obtain ⟨Λ', hΛ, _, hMatched⟩ := hFollows
  have hArrives {p : Address × State} {C : NodeId} {n : Node} (hChild : C ∈ G.childrenOf K)
      (hn : G.node? C = some n) (hPlace : p.1 = label n.address)
      (hTallies : p.2.Tallies Λ' true (i.Passes (needs K)) n.pre)
      (hPlain : c'.method.isHandler n.address = false → p.2.exception = none) :
      Joined c' G log label stands needs v.heap p.1 p.2 C := by
    rw [hPlace]
    exact h.joined_child hJoins.performed hChild hn hΛ.bond
      (hTallies.weaken (h.passes K N i C hJoins.node hi hChild)) hPlain
  constructor
  · intro p hp
    obtain ⟨q, hq, hPlace, hTallies, hPlain⟩ := hMatched.forward p hp
    obtain ⟨C, hChild, n, hn, rfl⟩ := (h.mem_successors_iff hJoins.node hJoins.performed).mp hq
    exact ⟨C, hChild, hArrives hChild hn hPlace hTallies hPlain⟩
  · intro C hChild
    obtain ⟨n, hn⟩ := Graph.isLive_iff.mp (h.recording.linked.live_of_child hChild).2
    have hq := (h.mem_successors_iff hJoins.node hJoins.performed).mpr ⟨C, hChild, n, hn, rfl⟩
    obtain ⟨p, hp, hPlace, hTallies, hPlain⟩ := hMatched.backward _ hq
    exact ⟨p, hp, hArrives hChild hn hPlace hTallies hPlain⟩

theorem cost_eq (hR : log[K]? = some R) : cost log K = R.cost := by
  unfold cost
  rw [hR]
  rfl

/-- The graph of the original method tells the run of what is left. -/
theorem tells (h : Reduced c c' G maxVisits entry s t log label stands needs mayFail) :
    G.Tells c label (fun a => stands a ≠ none) (cost log) mayFail (Joined c' G log label stands needs) where
  node k a pre K hJoined := by
    obtain ⟨Λ, N, R, hJoins⟩ := hJoined
    exact ⟨N, hJoins.node, hJoins.place⟩
  grow k k' a pre K hJoined hk := joined_grow hJoined hk
  charged k a pre K hJoined := by
    obtain ⟨Λ, N, R, hJoins⟩ := hJoined
    have hShrinks := (h.paid R (List.mem_of_getElem? hJoins.performed)).shrinks
    rw [cost_eq hJoins.performed, Performance.cost]
    omega
  gone k a pre K N hJoined hN hGone := by
    obtain ⟨Λ, N', R, hJoins⟩ := hJoined
    obtain rfl := Option.some.inj (hJoins.node.symm.trans hN)
    exact h.joined_next hJoins (not_not.mp hGone)
  step u a pre K N hJoined hN hKept hPaid := by
    obtain ⟨Λ, N', R, hJoins⟩ := hJoined
    obtain rfl := Option.some.inj (hJoins.node.symm.trans hN)
    obtain ⟨i, hi⟩ := Option.ne_none_iff_exists'.mp hKept
    rw [cost_eq hJoins.performed] at hPaid ⊢
    refine (h.follows hJoins hi hPaid).imp (fun step v hBoth => ?_) fun _ _ hFails => hFails
    obtain ⟨hSpent, hFollows⟩ := hBoth
    refine ⟨?_, hSpent, h.continues hJoins hi hFollows⟩
    obtain ⟨Λ', hΛ, _⟩ := hFollows
    exact hΛ.first
  again u v a pre K N step hJoined hN hKept hRun hLeft := by
    obtain ⟨Λ, N', R, hJoins⟩ := hJoined
    obtain rfl := Option.some.inj (hJoins.node.symm.trans hN)
    obtain ⟨i, hi⟩ := Option.ne_none_iff_exists'.mp hKept
    exact h.continues hJoins hi (h.follows_of_left hJoins hi hRun hLeft)
  injective K L N M hN hM hKept hKept' hSame := h.address_eq hN hM hKept hKept' hSame

/-- Where the graph of the second run has a node, it has one for the entry. -/
theorem joined_entry (h : Reduced c c' G maxVisits entry s t log label stands needs mayFail)
    (hEntry : entry.Direct) (hHeap : s.heap = .after entry) (hCode : c'.method.code ≠ []) :
    Joined c' G log label stands needs (.after entry) 0 entry 0 := by
  obtain ⟨N, R, hN, hR, hPlace, hPre, hBefore⟩ := h.recording.exists_first h.completed hCode
  refine ⟨.own entry, N, R, hN, hR, ?_, ?_, ?_, fun _ => hEntry.passes.2⟩
  · rw [hPlace, h.retains.zero]
  · rw [hBefore, hHeap]
    exact Links.bond_own entry
  · rw [hPre]
    exact hEntry.tallies _ _

end Reduced

end Pruning

end Dalvik
