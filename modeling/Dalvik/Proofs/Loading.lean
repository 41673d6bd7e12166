import Dalvik.Proofs.Deciding
import Dalvik.Proofs.Folding
import Dalvik.Proofs.Limits

/-!
Steps of a method through which constants have been propagated. What stands for an instruction does in every
recorded execution what the instruction has done there, and what has been removed has done nothing but go
on.
-/

namespace Dalvik

open Semantics (Context)

/-- A state of the first run is one that an instruction of the second may be executed in. Results are there
for what takes them, and exceptions for handlers. -/
structure State.Meets (Λ : Links) (c : Context) (a : Address) (s t : State) : Prop where
  stands : s.Stands Λ t
  result : ∀ dst, c.method.code.at? a = some (.moveResult dst) →
    Value.Stands Λ (s.result.getD (.unknown .object)) (t.result.getD (.unknown .object))
  exception : Value.Stands Λ (s.exception.getD (.unknown .throwable))
    (t.exception.getD (.unknown .throwable))
  plain : c.method.isHandler a = false → s.exception = none ∧ t.exception = none

namespace State

variable {Λ Λ' : Links} {c : Context} {a : Address} {s t : State}

theorem Meets.feeds (h : s.Meets Λ c a t) {i : Instruction Address} (hi : c.method.code.at? a = some i) :
    Semantics.Feeds Λ i s t :=
  ⟨h.stands, fun dst hTakes => h.result dst (hTakes ▸ hi), fun _ _ => h.exception⟩

theorem Arrives.meets (h : s.Arrives Λ (c.method.isHandler a = true) t) : s.Meets Λ c a t :=
  ⟨h.follows.stands, fun _ _ => h.follows.result, h.follows.exception,
    fun hOther => h.plain (by simp [hOther])⟩

theorem Stands.rests (h : s.Stands Λ t) : s.resting.Rests Λ t.resting :=
  ⟨h.pass none none none none, ⟨rfl, rfl⟩, ⟨rfl, rfl⟩⟩

end State

namespace Constants

/-- Constants have been propagated through the method of a complete recorded exploration that runs no
bodies of local methods. The first run is that of the method that this has led to, `label` says where the
places of the second are in it, and `stands` what stands for an instruction. -/
structure Propagated (c c' : Context) (G : Graph) (maxVisits : Nat) (entry : State) (s t : Supply)
    (log : List Performance) (label : Address → Address)
    (stands : Address → Option (Instruction Address)) : Prop where
  recording : G.Recording c' maxVisits entry s log t
  heap : G.heap = t.heap
  completed : G.status = .completed
  frugal : ∀ a pre, Run.Frugal (c'.apply a pre)
  lapse : c'.CallsLapse
  calls : ∀ a i, c'.method.code.at? a = some i → c'.RunsNoBody i
  wellFormed : c'.method.WellFormed
  classes : c.classes = c'.classes
  moved : c'.method.Moved c.method label stands
  planned : ∀ a i, c'.method.code.at? a = some i → stands a = some i ∨
    ∃ plan kind, plan? G a i = some (plan, kind) ∧ stands a = plan.insn?

/-- A step of the first run does what a recorded step of the second has done. -/
def Follows (c' : Context) (label : Address → Address) (Λ : Links) (u : Supply) (R : Performance)
    (step : Step) (v : Supply) : Prop :=
  ∃ Λ', Λ.Advances u.heap R.before.heap Λ' v.heap R.after.heap ∧
    Step.Covers Λ' label (fun b => c'.method.isHandler b = true) step R.step

namespace Propagated

variable {c c' : Context} {G : Graph} {maxVisits : Nat} {entry : State} {s t : Supply}
  {log : List Performance} {label : Address → Address} {stands : Address → Option (Instruction Address)}
  {a b : Address} {i : Instruction Address}

/-- A jump is nothing if it is to the next instruction. -/
theorem insn?_goTo (next target : Address) :
    target = next ∧ (goTo next target).insn? = none ∨ (goTo next target).insn? = some (.goto target) := by
  unfold goTo
  split
  · rename_i hHere
    exact .inl ⟨hHere, rfl⟩
  · exact .inr rfl

/-- What stands for an instruction, if it is another one: a jump to where it always goes, nothing if that
is the next instruction, or the load of its constant. -/
theorem cases (h : Propagated c c' G maxVisits entry s t log label stands)
    (hi : c'.method.code.at? a = some i) :
    stands a = some i ∨ ∃ next, c'.method.code.next? a = some next ∧
      ((∃ target, Decides G a next i target ∧
          (target = next ∧ stands a = none ∨ stands a = some (.goto target))) ∨
        ∃ dst l, computes i = true ∧ i.writes? = some dst ∧ constant? G a next dst = some l ∧
          stands a = some (.const dst l)) := by
  rcases h.planned a i hi with hSame | ⟨plan, kind, hPlan, hStands⟩
  · exact .inl hSame
  · obtain ⟨next, hNext, hCases⟩ := plan?_cases hPlan
    rw [h.recording.sameMethod] at hNext
    refine .inr ⟨next, hNext, ?_⟩
    rcases hCases with ⟨target, hDecides, rfl⟩ | ⟨dst, l, hComputes, hDst, hl, rfl⟩
    · refine .inl ⟨target, hDecides, ?_⟩
      rw [hStands]
      exact insn?_goTo next target
    · exact .inr ⟨dst, l, hComputes, hDst, hl, hStands⟩

/-- What has been removed always went on to the next instruction. -/
theorem decides_of_gone (h : Propagated c c' G maxVisits entry s t log label stands)
    (hi : c'.method.code.at? a = some i) (hNone : stands a = none) :
    ∃ next, c'.method.code.next? a = some next ∧ Decides G a next i next ∧ label next = label a := by
  rcases h.cases hi with hSame | ⟨next, hNext, ⟨target, hDecides, hStands⟩ | ⟨dst, l, _, _, _, hStands⟩⟩
  · rw [hNone] at hSame
    cases hSame
  · obtain ⟨b, hb, hSame⟩ := h.moved.gone a (Code.hasAddress_of_at? hi) hNone
    obtain rfl := Option.some.inj (hb.symm.trans hNext)
    rcases hStands with ⟨rfl, _⟩ | hGoto
    · exact ⟨target, hNext, hDecides, hSame⟩
    · rw [hNone] at hGoto
      cases hGoto
  · rw [hNone] at hStands
    cases hStands

/-- Handlers are never touched. -/
theorem handler_stands (h : Propagated c c' G maxVisits entry s t log label stands) {k : Handler}
    (hk : k ∈ c'.method.handlers) :
    c'.method.code.HasAddress k.target ∧ ∃ j, stands k.target = some j := by
  obtain ⟨dst, hi⟩ := h.wellFormed.exists_moveException hk
  refine ⟨Code.hasAddress_of_at? hi, .moveException dst, ?_⟩
  rcases h.cases hi with hSame | ⟨next, _, ⟨target, hDecides, _⟩ | ⟨_, _, hComputes, _⟩⟩
  · exact hSame
  · cases hDecides
  · cases hComputes

/-- Control that goes to a removed instruction goes to one that is still there. -/
theorem exists_stands (h : Propagated c c' G maxVisits entry s t log label stands)
    (hPlace : c'.method.code.HasAddress a) (hOther : c'.method.isHandler a = false) :
    ∃ b j, c'.method.code.HasAddress b ∧ stands b = some j ∧ label b = label a ∧
      c'.method.isHandler b = false := by
  induction hSize : c'.method.stop - a using Nat.strongRecOn generalizing a with
  | ind size ih =>
      obtain ⟨i, hi⟩ := Code.exists_at? hPlace
      cases hStands : stands a with
      | some j => exact ⟨a, j, hPlace, hStands, rfl, hOther⟩
      | none =>
          obtain ⟨next, hNext, hDecides, hSame⟩ := h.decides_of_gone hi hStands
          obtain ⟨_, hThere, hMore⟩ := Code.hasAddress_of_next? hNext
          have hPlain := h.wellFormed.isHandler_next? hi hDecides.fallsThrough hNext
          have hLess : c'.method.stop - next < size :=
            hSize ▸ Nat.sub_lt_sub_left (Code.lt_size_of_hasAddress hPlace) hMore
          obtain ⟨b, j, hb, hj, hLabel, hPlainThere⟩ := ih _ hLess hThere hPlain rfl
          exact ⟨b, j, hb, hj, hLabel.trans hSame, hPlainThere⟩

/-- No two handlers are at one place, nor is one where control gets to anyway. -/
theorem apart (h : Propagated c c' G maxVisits entry s t log label stands)
    (hi : c'.method.code.at? a = some i) : Context.Apart label c' a i := by
  constructor
  · intro hFalls next hNext k hk hSame
    have hNext := Context.next_eq_ok_iff.mp hNext
    have hPlain := h.wellFormed.isHandler_next? hi hFalls hNext
    obtain ⟨b, j, hb, hj, hLabel, hOther⟩ := h.exists_stands (Code.hasAddress_of_next? hNext).2.1 hPlain
    obtain ⟨hTarget, j', hj'⟩ := h.handler_stands (Context.handlersAt_subset hk)
    have hHere := h.moved.injective hb hTarget hj hj' (hLabel.trans hSame)
    rw [hHere, Context.isHandler_of_mem hk] at hOther
    cases hOther
  · intro k hk k' hk' hSame
    obtain ⟨hTarget, j, hj⟩ := h.handler_stands (Context.handlersAt_subset hk)
    obtain ⟨hTarget', j', hj'⟩ := h.handler_stands (Context.handlersAt_subset hk')
    exact h.moved.injective hTarget hTarget' hj hj' hSame

theorem next_label (h : Propagated c c' G maxVisits entry s t log label stands) {j : Instruction Address}
    (hPlace : c'.method.code.HasAddress a) (hj : stands a = some j) {next : Address}
    (hNext : c'.next a = .ok next) : c.next (label a) = .ok (label next) := by
  have hMoved := h.moved.next a j hPlace hj
  rw [Context.next_eq_ok_iff.mp hNext] at hMoved
  exact Context.next_eq_ok_iff.mpr hMoved

section

variable {Λ : Links} {K : NodeId} {N : Node} {R : Performance} {u : Supply} {pre : State}
  {j : Instruction Address}

theorem records (h : Propagated c c' G maxVisits entry s t log label stands) (hN : G.node? K = some N)
    (hR : log[K]? = some R) : N.Records G c' R := by
  obtain ⟨R', hR', hRecords⟩ := h.recording.records K N hN
  obtain rfl := Option.some.inj (hR'.symm.trans hR)
  exact hRecords

/-- An instruction that is still there. -/
theorem follows_same (h : Propagated c c' G maxVisits entry s t log label stands)
    (hN : G.node? K = some N) (hR : log[K]? = some R) (hi : c'.method.code.at? N.address = some i)
    (hSame : stands N.address = some i) (hStrict : ¬ Λ.loose) (hBond : Λ.Bond u.heap R.before.heap)
    (hMeets : pre.Meets Λ c' N.address N.pre) :
    Run.Ends (c.apply (label N.address) pre) u (Follows c' label Λ u R) fun _ _ => False := by
  have hPlace := Code.hasAddress_of_at? hi
  have hTracks := Context.apply_tracks h.classes hBond hi (h.moved.insn _ i hPlace hSame)
    (hMeets.feeds hi) (h.moved.handlers _ i hPlace hSame)
    (fun next hNext => h.next_label hPlace hSame hNext) (h.apart hi) h.lapse (h.calls _ i hi)
    fun hl => absurd hl hStrict
  exact (hTracks _ _ (h.records hN hR).applied).imp (fun _ _ hStep => hStep) fun _ _ hl => hStrict hl

/-- A jump in place of an instruction that always goes to one place. -/
theorem follows_goto (h : Propagated c c' G maxVisits entry s t log label stands)
    (hN : G.node? K = some N) (hR : log[K]? = some R) (hi : c'.method.code.at? N.address = some i)
    {next target : Address} (hNext : c'.next N.address = .ok next)
    (hDecides : Decides G N.address next i target) (hGoto : stands N.address = some (.goto target))
    (hBond : Λ.Bond u.heap R.before.heap) (hMeets : pre.Meets Λ c' N.address N.pre) :
    Run.Ends (c.apply (label N.address) pre) u (Follows c' label Λ u R) fun _ _ => False := by
  have hOld := hDecides.apply_eq (c := c') h.recording.piled hN rfl hi hNext R.before
  rw [(h.records hN hR).applied] at hOld
  obtain ⟨hStep, hAfter⟩ := Prod.mk.inj hOld
  have hNew : c.apply (label N.address) pre u =
      (.ok ⟨pre.resting, [(label target, pre.resting)]⟩, u) :=
    Context.apply_of_jump (h.moved.insn _ _ (Code.hasAddress_of_at? hi) hGoto) rfl
  have hRests := hMeets.stands.rests
  unfold Run.Ends Follows
  rw [hNew, Except.ok.inj hStep, hAfter]
  refine ⟨Λ, .refl hBond, ?_⟩
  refine ⟨hRests.stands.shows, fun _ => hRests.stands, fun p hp => ?_, fun _ q hq => ?_⟩
  · obtain rfl := List.mem_singleton.mp hp
    exact ⟨_, .head _, rfl, Context.passes_arrives hRests.passes _⟩
  · obtain rfl := List.mem_singleton.mp hq
    exact ⟨_, .head _, rfl, Context.passes_arrives hRests.passes _⟩

/-- Strings that the heap keeps in the end for their text, and that something has been linked to, it has kept
before. -/
theorem lookup_before (h : Propagated c c' G maxVisits entry s t log label stands)
    (hR : log[K]? = some R) {k : Heap} (hBond : Λ.Bond k R.after.heap) {i j : Nat} {text : String}
    (hSame : Λ.same i j) (hKept : t.heap.interned.lookup text = some j) :
    R.after.heap.interned.lookup text = some j := by
  have hGrows := h.recording.successive.grows_after (h.recording.grows_of_mem h.frugal)
    (List.mem_of_getElem? hR)
  rcases hGrows.fresh text j hKept with hOld | hNew
  · exact hOld
  · exact absurd (hBond.below i j hSame).2 (Nat.not_lt_of_le hNew)

theorem mapTargets_of_computes (hComputes : computes i = true) (f : Address → Address) :
    i.mapTargets f = i := by
  cases i with
  | branch _ _ _ _ | switch _ _ | goto _ => cases hComputes
  | _ => rfl

/-- What an instruction that only computes has left in a register it would leave there in the first run,
too. -/
theorem exists_computed (h : Propagated c c' G maxVisits entry s t log label stands)
    (hN : G.node? K = some N) (hR : log[K]? = some R) (hi : c'.method.code.at? N.address = some i)
    (hComputes : computes i = true) {dst : Register} (hDst : i.writes? = some dst) {v : Value}
    (hv : R.step.post.peek? dst = some v) (hj : stands N.address = some j) (hStrict : ¬ Λ.loose)
    (hBond : Λ.Bond u.heap R.before.heap) (hMeets : pre.Meets Λ c' N.address N.pre) :
    ∃ Λ' w, Λ.Advances u.heap R.before.heap Λ' u.heap R.after.heap ∧ Value.Stands Λ' w v := by
  obtain ⟨i', o, hi', hDoes, _, hPost⟩ := Context.exists_outcome (h.records hN hR).applied
  obtain rfl := Option.some.inj (hi.symm.trans hi')
  have hNext : Tracks Λ (c.next (label N.address)) (c'.next N.address) fun n n' => n = label n' := by
    intro next hNext
    rw [h.next_label (Code.hasAddress_of_at? hi) hj hNext]
    exact rfl
  have hTracks : Run.Tracks Λ (c.execute (label N.address) (i.mapTargets label) pre pre.resting)
      (c'.execute N.address i N.pre N.pre.resting) u R.before
      fun Λ' => Outcome.Covers Λ' label (c'.method.handlersAt N.address) :=
    Semantics.execute_tracks h.classes hBond (hMeets.feeds hi) hNext (h.calls _ _ hi)
      fun hl => absurd hl hStrict
  have hEnds := hTracks _ _ hDoes
  rw [mapTargets_of_computes hComputes] at hEnds
  unfold Run.Ends at hEnds
  split at hEnds
  · rename_i o' u' hRun
    obtain ⟨Λ', hAdvances, hCovers⟩ := hEnds
    obtain ⟨rfl, _⟩ := Context.execute_computes hComputes hDst hRun
    have hLoose : ¬ Λ'.loose := fun hl => hStrict (hAdvances.grows.loose.mp hl)
    have hStands : o'.post.Stands Λ' o.post := by
      cases hCovers with
      | alike _ hPasses => exact hPasses.stands
      | hazards _ hPasses => exact hPasses.stands
      | certain hl _ | raises hl _ _ | silent hl _ _ | narrows hl _ _ => exact absurd hl hLoose
    have hPeek := hStands.peek? dst
    rw [← hPost, hv] at hPeek
    generalize o'.post.peek? dst = x at hPeek
    cases hPeek with
    | @some w _ hw => exact ⟨Λ', w, hAdvances, hw⟩
  · exact absurd hEnds hStrict

/-- The load of a constant in place of an instruction that always computes it. -/
theorem follows_load (h : Propagated c c' G maxVisits entry s t log label stands)
    (hN : G.node? K = some N) (hR : log[K]? = some R) (hi : c'.method.code.at? N.address = some i)
    {next : Address} (hNext : c'.method.code.next? N.address = some next)
    (hComputes : computes i = true) {dst : Register} (hDst : i.writes? = some dst) {l : Literal}
    (hConstant : constant? G N.address next dst = some l)
    (hLoad : stands N.address = some (.const dst l)) (hStrict : ¬ Λ.loose)
    (hBond : Λ.Bond u.heap R.before.heap) (hMeets : pre.Meets Λ c' N.address N.pre) :
    Run.Ends (c.apply (label N.address) pre) u (Follows c' label Λ u R) fun _ _ => False := by
  have hPlace := Code.hasAddress_of_at? hi
  have hGoes := Context.next_eq_ok_iff.mpr hNext
  have hPlain := h.wellFormed.isHandler_next? hi (fallsThrough_of_computes hComputes) hNext
  obtain ⟨v, hLiteral, hText, hKnown, hAssign, hSuccessors, hAfter⟩ :=
    step_of_constant h.recording h.completed hN hR hi hGoes
      (fun k hk hHere => by
        rw [← hHere, Context.isHandler_of_mem hk] at hPlain
        cases hPlain) hComputes hDst hConstant
  have hPeek : R.step.post.peek? dst = some v := by
    rw [State.peek?_assign hAssign, if_pos rfl]
  obtain ⟨Λ', w, hAdvances, hw⟩ := h.exists_computed hN hR hi hComputes hDst hPeek hLoad hStrict hBond hMeets
  have hLoose : ¬ Λ'.loose := fun hl => hStrict (hAdvances.grows.loose.mp hl)
  obtain ⟨w', hSame, hw'⟩ := hAdvances.bond.literal_of_stands hLoose hw hLiteral fun id text hString => by
    subst hString
    have hInterned : t.heap.interned.lookup text = some id := by
      rw [← h.heap]
      simpa [Heap.isInterned] using hText rfl
    cases hw with
    | atom hAtom => cases hAtom
    | string _ hLink => exact h.lookup_before hR hAdvances.bond hLink.1 hInterned
  have hEnds := (hMeets.stands.grow hAdvances.grows).rests.assign hw' dst _ hAssign
  cases hNow : pre.resting.assign dst w' with
  | error e =>
      rw [hNow] at hEnds
      exact absurd hEnds hLoose
  | ok p =>
      rw [hNow, ends_ok] at hEnds
      have hNew : c.apply (label N.address) pre u = (.ok ⟨p, [(label next, p)]⟩, u) :=
        Context.apply_const (h.moved.insn _ _ hPlace hLoad) hSame hNow (h.next_label hPlace hLoad hGoes)
      unfold Run.Ends
      rw [hNew]
      refine ⟨Λ', hAdvances, hEnds.stands.shows, fun _ => hEnds.stands, fun q hq => ?_, fun _ q hq => ?_⟩
      · obtain rfl := List.mem_singleton.mp hq
        rw [hSuccessors]
        exact ⟨_, .head _, rfl, Context.passes_arrives hEnds.passes _⟩
      · rw [hSuccessors] at hq
        obtain rfl := List.mem_singleton.mp hq
        exact ⟨_, .head _, rfl, Context.passes_arrives hEnds.passes _⟩

/-- Whatever stands for an instruction does what that has done in every recorded execution. -/
theorem follows (h : Propagated c c' G maxVisits entry s t log label stands)
    (hN : G.node? K = some N) (hR : log[K]? = some R) (hj : stands N.address = some j)
    (hStrict : ¬ Λ.loose) (hBond : Λ.Bond u.heap R.before.heap)
    (hMeets : pre.Meets Λ c' N.address N.pre) :
    Run.Ends (c.apply (label N.address) pre) u (Follows c' label Λ u R) fun _ _ => False := by
  obtain ⟨i, hi⟩ := Context.exists_instruction (h.records hN hR).applied
  rcases h.cases hi with hSame | ⟨next, hNext, ⟨target, hDecides, hStands⟩ | ⟨dst, l, hComputes, hDst, hl, hLoad⟩⟩
  · exact h.follows_same hN hR hi hSame hStrict hBond hMeets
  · rcases hStands with ⟨_, hNone⟩ | hGoto
    · rw [hNone] at hj
      cases hj
    · exact h.follows_goto hN hR hi (Context.next_eq_ok_iff.mpr hNext) hDecides hGoto hBond hMeets
  · exact h.follows_load hN hR hi hNext hComputes hDst hl hLoad hStrict hBond hMeets

/-- What stands for an instruction runs no bodies of local methods, either. -/
theorem apply_thrifty (h : Propagated c c' G maxVisits entry s t log label stands)
    (hi : c'.method.code.at? a = some i) (hj : stands a = some j) (pre : State) :
    Run.Thrifty (c.apply (label a) pre) := by
  refine Context.apply_thrifty (h.moved.insn a j (Code.hasAddress_of_at? hi) hj) (fun kind m args hCall hNone => ?_)
    pre
  have hOld : i = .invoke kind m args := by
    rcases h.cases hi with hSame | ⟨next, _, ⟨target, _, hStands⟩ | ⟨dst, l, _, _, _, hStands⟩⟩
    · obtain rfl := Option.some.inj (hSame.symm.trans hj)
      cases i with
      | invoke kind' m' args' => exact hCall
      | _ => cases hCall
    · rcases hStands with ⟨_, hNone⟩ | hGoto
      · rw [hNone] at hj
        cases hj
      · obtain rfl := Option.some.inj (hGoto.symm.trans hj)
        cases hCall
    · obtain rfl := Option.some.inj (hStands.symm.trans hj)
      cases hCall
  have hBody := h.calls a i hi kind m args hOld hNone
  unfold Context.callee? at hBody ⊢
  rwa [h.classes]

/-- A removed instruction leaves everything to the one after it. -/
theorem meets_next (h : Propagated c c' G maxVisits entry s t log label stands)
    (hN : G.node? K = some N) (hR : log[K]? = some R) (hNone : stands N.address = none)
    (hMeets : pre.Meets Λ c' N.address N.pre) :
    R.after = R.before ∧ ∃ next post, R.step.successors = [(next, post)] ∧
      c'.method.code.next? N.address = some next ∧ label next = label N.address ∧
        pre.Meets Λ c' next post := by
  have hApplied := (h.records hN hR).applied
  obtain ⟨i, hi⟩ := Context.exists_instruction hApplied
  obtain ⟨next, hNext, hDecides, hLabel⟩ := h.decides_of_gone hi hNone
  have hGoes := Context.next_eq_ok_iff.mpr hNext
  have hOld := hDecides.apply_eq (c := c') h.recording.piled hN rfl hi hGoes R.before
  rw [hApplied] at hOld
  obtain ⟨hStep, hAfter⟩ := Prod.mk.inj hOld
  refine ⟨hAfter, next, N.pre.resting, by rw [Except.ok.inj hStep], hNext, hLabel, ?_⟩
  -- handlers take exceptions, so that none is removed
  have hPlain : c'.method.isHandler N.address = false := by
    by_contra hHandler
    obtain ⟨k, hk, hHere⟩ := List.any_eq_true.mp (eq_true_of_ne_false hHandler)
    obtain ⟨_, j, hj⟩ := h.handler_stands hk
    rw [decide_eq_true_eq] at hHere
    rw [hHere, hNone] at hj
    cases hj
  obtain ⟨hFirst, _⟩ := hMeets.plain hPlain
  refine ⟨hMeets.stands.pass pre.result pre.exception none none, fun dst hj => ?_, ?_,
    fun _ => ⟨hFirst, rfl⟩⟩
  · cases h.wellFormed.takesResult_next? hi hDecides.isCall hNext hj
  · rw [hFirst]
    exact .unknown _

end

end Propagated

end Constants

end Dalvik
