import Dalvik.Proofs.Agreement
import Dalvik.Proofs.Rewriting
import Dalvik.Proofs.Throwing

/-!
Steps from states that are alike: they agree on the registers that matter, up to the names of instances. Such
steps lead to the same places, with states that are alike there.
-/

namespace Dalvik

/-- What two runs agree on after an instruction that reads no more than they agreed on before it. What is
assigned they agree on, too, unless an exception may have kept the instruction from assigning it. -/
def Instruction.Passes (i : Instruction Address) (keep : Register → Prop) (r : Register) : Prop :=
  keep r ∨ i.mayThrow = false ∧ i.writes? = some r

/-- An instruction cannot tell one state from the other if it reads only registers that they agree on.
`takes` says whether it takes a result. -/
structure State.Serves (takes : Bool) (keep : Register → Prop) (s t : State) : Prop where
  agrees : s.Agrees keep t
  result : takes = true → s.result = t.result
  exception : s.exception = t.exception

/-- Two states are alike as far as an instruction can tell, up to the names of instances. -/
def State.Tallies (Λ : Links) (takes : Bool) (keep : Register → Prop) (s t : State) : Prop :=
  ∃ p q : State, s.Serves takes keep p ∧ Λ.Renames State.rename p q ∧ q.Serves takes keep t

/-- Two steps lead to the same places with states that are alike. -/
structure Step.Tallies (Λ : Links) (keep passes : Register → Prop) (x y : Step) : Prop where
  post : x.post.Tallies Λ true keep y.post
  successors : List.Forall₂ (fun p q => p.1 = q.1 ∧ p.2.Tallies Λ true passes q.2) x.successors y.successors

namespace State

variable {Λ Λ' : Links} {takes : Bool} {keep keep' : Register → Prop} {s t u : State}

theorem Coincides.serves (h : s.Coincides keep t) (takes : Bool) : s.Serves takes keep t :=
  ⟨h.agrees, fun _ => h.result, h.exception⟩

theorem Serves.coincides (h : s.Serves true keep t) : s.Coincides keep t :=
  ⟨h.agrees, h.result rfl, h.exception⟩

theorem Serves.weaken (h : s.Serves true keep t) (hKeep : ∀ r, keep' r → keep r) :
    s.Serves takes keep' t :=
  (h.coincides.mono hKeep).serves takes

theorem Tallies.weaken (h : s.Tallies Λ true keep t) (hKeep : ∀ r, keep' r → keep r) :
    s.Tallies Λ takes keep' t := by
  obtain ⟨p, q, hFirst, hSame, hSecond⟩ := h
  exact ⟨p, q, hFirst.weaken hKeep, hSame, hSecond.weaken hKeep⟩

theorem Tallies.grow (h : s.Tallies Λ takes keep t) (hΛ : Λ.Grows Λ') : s.Tallies Λ' takes keep t := by
  obtain ⟨p, q, hFirst, hSame, hSecond⟩ := h
  exact ⟨p, q, hFirst, hSame.grow hΛ, hSecond⟩

/-- Registers that matter hold the same up to the names of instances. -/
theorem Tallies.getElem?_eq (h : s.Tallies Λ takes keep t) {f : Nat → Nat} (hf : Λ.Spans f)
    {r : Register} (hr : keep r) :
    s.registers[r]?.map (Option.map (Value.rename f)) = t.registers[r]? := by
  obtain ⟨p, q, hFirst, hSame, hSecond⟩ := h
  rw [hFirst.agrees.registers r hr, ← hSecond.agrees.registers r hr, ← hSame f hf, registers_rename,
    List.getElem?_map]

theorem Tallies.sameShape (h : s.Tallies Λ takes keep t) (hBond : ∃ f, Λ.Spans f) : s.SameShape t := by
  obtain ⟨p, q, hFirst, hSame, hSecond⟩ := h
  obtain ⟨f, hf⟩ := hBond
  have hRenamed : p.SameShape q := by
    rw [← hSame f hf]
    exact ⟨by simp [State.rename], by simp [State.rename]⟩
  exact hFirst.agrees.shape.trans (hRenamed.trans hSecond.agrees.shape)

end State

namespace Run

variable {α β γ : Type} {r : Run α} {q : Run β}

/-- What is known of the results of a computation holds of those that another one agrees with. -/
theorem Agree.noting {Q : α → β → Prop} {P : α → Prop} (h : Agree r q Q)
    (hEnds : ∀ s, Ends r s (fun v _ => P v) fun _ _ => True) : Agree r q fun w v => P w ∧ Q w v := by
  intro s
  obtain ⟨hSupply, hResult⟩ := h s
  have hNow := hEnds s
  refine ⟨hSupply, ?_⟩
  unfold Ends at hNow
  generalize r s = x, q s = y at hNow hResult
  obtain ⟨x, _⟩ := x
  obtain ⟨y, _⟩ := y
  cases hResult with
  | ok hw => exact .ok ⟨hNow, hw⟩
  | error e => exact .error e

/-- A computation mirrors what one mirrors that it agrees with. -/
theorem Agree.mirrors {Λ : Links} {p : Run γ} {s t : Supply} {Q : α → β → Prop}
    {Q' : Links → β → γ → Prop} (h : Agree r q Q) (h' : Mirrors Λ q p s t Q') :
    Mirrors Λ r p s t fun Λ' w x => ∃ v, Q w v ∧ Q' Λ' v x := by
  obtain ⟨Λ', hΛ, hBudget, hResult⟩ := h'
  obtain ⟨hSupply, hFirst⟩ := h s
  refine ⟨Λ', by rw [hSupply]; exact hΛ, by rw [hSupply]; exact hBudget, ?_⟩
  generalize (r s).1 = x, (q s).1 = y, (p t).1 = z at hFirst hResult
  cases hFirst with
  | ok hw =>
      cases hResult with
      | ok hv => exact .ok ⟨_, hw, hv⟩
  | error e =>
      cases hResult with
      | error _ => exact .error e

/-- A computation is mirrored by what agrees with one that mirrors it. -/
theorem Mirrors.agree {Λ : Links} {p : Run γ} {s t : Supply} {Q : Links → α → β → Prop} {Q' : β → γ → Prop}
    (h : Mirrors Λ r q s t Q) (h' : Agree q p Q') :
    Mirrors Λ r p s t fun Λ' w x => ∃ v, Q Λ' w v ∧ Q' v x := by
  obtain ⟨Λ', hΛ, hBudget, hResult⟩ := h
  obtain ⟨hSupply, hSecond⟩ := h' t
  refine ⟨Λ', by rw [← hSupply]; exact hΛ, by rw [← hSupply]; exact hBudget, ?_⟩
  generalize (r s).1 = x, (q t).1 = y, (p t).1 = z at hResult hSecond
  cases hResult with
  | ok hw =>
      cases hSecond with
      | ok hv => exact .ok ⟨_, hw, hv⟩
  | error e =>
      cases hSecond with
      | error _ => exact .error e

end Run

namespace Semantics.Context

open Run (Agree Mirrors)

variable {c : Context} {keep : Register → Prop} {i : Instruction Address} {a : Address}
  {pre pre' : State} {o o' : Outcome}

/-- The same places in the same order, with states that are related. -/
def Paired (R : State → State → Prop) (A B : List (Address × State)) : Prop :=
  List.Forall₂ (fun p q => p.1 = q.1 ∧ R p.2 q.2) A B

/-- The places of two steps, with states that coincide on some registers. -/
def Alike (keep : Register → Prop) (A B : List (Address × State)) : Prop :=
  List.Forall₂ (fun p q => p.1 = q.1 ∧ p.2.Coincides keep q.2) A B

section

variable {A B ps qs : List (Address × State)} {R : State → State → Prop}

theorem Paired.addSuccessor (h : Paired R A B) (b : Address) {s t : State} (hs : R s t) :
    Paired R (addSuccessor A b s) (addSuccessor B b t) := by
  have hSame : (A.any fun p => p.1 = b) = B.any fun p => p.1 = b := by
    induction h with
    | nil => rfl
    | cons hHead _ ih => rw [List.any_cons, List.any_cons, ih, hHead.1]
  unfold Context.addSuccessor
  rw [hSame]
  split
  · exact h
  · exact List.rel_append h (.cons ⟨rfl, hs⟩ .nil)

theorem Paired.addAll (h : Paired R A B) (hMore : Paired R ps qs) :
    Paired R (addAll A ps) (addAll B qs) := by
  induction hMore generalizing A B with
  | nil => exact h
  | @cons p q ps qs hHead _ ih =>
      obtain ⟨hPlace, hStates⟩ := hHead
      refine ih (A := Context.addSuccessor A p.1 p.2) (B := Context.addSuccessor B q.1 q.2) ?_
      rw [hPlace]
      exact h.addSuccessor q.1 hStates

/-- Handlers are entered with what an instruction has found. -/
theorem Paired.route (h : Paired R A B) (x : Value)
    (hEntered : ∀ v, R { pre with result := none, exception := some v }
      { pre' with result := none, exception := some v })
    (hs : List Handler) : Paired R (route pre x A hs) (route pre' x B hs) := by
  rw [route_eq, route_eq]
  refine h.addAll (List.forall₂_map_left_iff.mpr (List.forall₂_map_right_iff.mpr ?_))
  exact List.forall₂_same.mpr fun p _ => ⟨rfl, hEntered p.2⟩

theorem paired_jump {s t : State} (hs : R s t) (targets : List Address) :
    Paired R (addAll [] (targets.map fun t => (t, s))) (addAll [] (targets.map fun b => (b, t))) := by
  refine Paired.addAll .nil (List.forall₂_map_left_iff.mpr (List.forall₂_map_right_iff.mpr ?_))
  exact List.forall₂_same.mpr fun _ _ => ⟨rfl, hs⟩

end

/-- Control goes to the same places, with states that are related, if what an instruction leaves is and so is what
handlers are entered with. -/
theorem paired_successors {c c' : Context} {a : Address} {pre pre' : State} {o o' : Outcome}
    {R : State → State → Prop} (hHandlers : c'.method.handlersAt a = c.method.handlersAt a)
    (hNext : c'.next a = c.next a) (hFlow : o.flow = o'.flow) (hHazard : o.hazard = o'.hazard)
    (hPost : (∀ v, o.flow ≠ .raise v) → R o.post o'.post)
    (hEntered : (∃ x, o.flow = .raise x) ∨ o.hazard ≠ none → ∀ v,
      R { pre with result := none, exception := some v } { pre' with result := none, exception := some v }) :
    Concur (Paired R) (c.successors a pre o) (c'.successors a pre' o') := by
  have hGoes : Concur (Paired R) (c.flowSuccessors a pre o.post o.flow)
      (c'.flowSuccessors a pre' o'.post o'.flow) := by
    rw [← hFlow]
    unfold flowSuccessors
    rw [hHandlers, hNext]
    cases hHere : o.flow with
    | next =>
        dsimp only
        cases c.next a with
        | error e => exact .error e
        | ok n => exact .ok (.cons ⟨rfl, hPost (by rw [hHere]; nofun)⟩ .nil)
    | jump targets =>
        refine .ok ?_
        rw [jump_eq, jump_eq]
        exact paired_jump (hPost (by rw [hHere]; nofun)) targets
    | stop => exact .ok .nil
    | raise x => exact .ok (Paired.route .nil x (hEntered (.inl ⟨x, hHere⟩)) _)
  unfold successors
  rw [← hHazard, hHandlers]
  generalize c.flowSuccessors a pre o.post o.flow = x, c'.flowSuccessors a pre' o'.post o'.flow = y at hGoes
  cases hGoes with
  | error e => exact .error e
  | ok hPaired =>
      refine .ok ?_
      cases hHere : o.hazard with
      | none => exact hPaired
      | some x => exact hPaired.route x (hEntered (.inr (by rw [hHere]; nofun))) _

/-- Control goes to the same places, with states that agree on what has been assigned, too, unless that may
not have happened. -/
theorem successors_agree (hPre : pre.Agrees keep pre') (ho : o.Agrees keep i o') (hObeys : o.Obeys i)
    (a : Address) :
    Concur (Alike (i.Passes keep)) (c.successors a pre o) (c.successors a pre' o') := by
  obtain ⟨hFlow, hHazard, hPost, hWritten⟩ := ho
  have hAssigned (hNot : ∀ v, o.flow ≠ .raise v) : o.post.Coincides (i.Passes keep) o'.post := by
    refine ⟨⟨hPost.agrees.shape, fun r hr => ?_⟩, hPost.result, hPost.exception⟩
    rcases hr with hKept | ⟨_, hWrites⟩
    · exact hPost.agrees.registers r hKept
    · exact hWritten hNot r hWrites
  have hFound (hThrows : i.mayThrow = true) : pre.Agrees (i.Passes keep) pre' :=
    hPre.mono fun r hr => hr.resolve_right fun ⟨hNever, _⟩ => by rw [hThrows] at hNever; cases hNever
  refine paired_successors rfl rfl hFlow hHazard hAssigned fun hRaises v => ?_
  have hThrows : i.mayThrow = true := by
    rcases hRaises with ⟨x, hRaise⟩ | hSome
    · exact hObeys.raises x hRaise
    · exact hObeys.hazard hSome
  exact ⟨(hFound hThrows).pass _ _ _ _, rfl, rfl⟩

/-- Steps from states that an instruction cannot tell apart. -/
structure Conforms (keep passes : Register → Prop) (x y : Step) : Prop where
  post : x.post.Coincides keep y.post
  successors : Alike passes x.successors y.successors

theorem takesResult_moveResult {dst : Register} (h : i = .moveResult dst) : i.takesResult = true := by
  rw [h]
  rfl

theorem apply_agree (hi : c.method.code.at? a = some i) (hReads : ∀ r ∈ i.reads, keep r)
    (hPre : pre.Serves i.takesResult keep pre') :
    Agree (c.apply a pre) (c.apply a pre') (Conforms keep (i.Passes keep)) := by
  rw [apply_eq c pre hi, apply_eq c pre' hi]
  have hExecute := execute_agrees (c := c) hPre.agrees hPre.agrees.resting hReads
    (fun dst hTakes => hPre.result (takesResult_moveResult hTakes)) (fun _ _ => hPre.exception) a
  refine (hExecute.noting (execute_obeys rfl pre a i)).bind fun o o' ⟨hObeys, ho⟩ => Run.agree_ofExcept ?_
  have hLeads := successors_agree (c := c) hPre.agrees ho hObeys a
  generalize c.successors a pre o = x, c.successors a pre' o' = y at hLeads
  cases hLeads with
  | ok hAlike => exact .ok ⟨ho.post, hAlike⟩
  | error e => exact .error e

/-- Steps that agree with steps that differ in names only are alike. -/
theorem step_tallies {Λ : Links} {x y p q : Step} {passes : Register → Prop} (hBond : ∃ f, Λ.Spans f)
    (h : Conforms keep passes x p) (hSame : Λ.Renames Step.rename p q) (h' : Conforms keep passes q y) :
    Step.Tallies Λ keep passes x y where
  post := ⟨p.post, q.post, h.post.serves true, fun f hf => congrArg Step.post (hSame f hf),
    h'.post.serves true⟩
  successors := by
    have hRenamed : List.Forall₂ (fun u v => u.1 = v.1 ∧ Λ.Renames State.rename u.2 v.2)
        p.successors q.successors := by
      refine List.forall₂_iff_get.mpr ⟨?_, fun n hn hn' => ?_⟩
      · obtain ⟨f, hf⟩ := hBond
        rw [← hSame f hf, Step.rename, List.length_map]
      · have hEach {f : Nat → Nat} (hf : Λ.Spans f) :
            ((p.successors.get ⟨n, hn⟩).1, (p.successors.get ⟨n, hn⟩).2.rename f) =
              q.successors.get ⟨n, hn'⟩ := by
          have hOne := congrArg (fun s : Step => s.successors[n]?) (hSame f hf)
          simp only [Step.rename, List.getElem?_map, List.getElem?_eq_getElem hn,
            List.getElem?_eq_getElem hn', Option.map_some, Option.some.injEq] at hOne
          exact hOne
        obtain ⟨f, hf⟩ := hBond
        exact ⟨by rw [← hEach hf], fun g hg => by rw [← hEach hg]⟩
    refine List.forall₂_iff_get.mpr ⟨?_, fun n hn hn' => ?_⟩
    · rw [h.successors.length_eq, hRenamed.length_eq, h'.successors.length_eq]
    · have hp : n < p.successors.length := h.successors.length_eq ▸ hn
      have hq : n < q.successors.length := hRenamed.length_eq ▸ hp
      obtain ⟨hPlace, hFirst⟩ := h.successors.get hn hp
      obtain ⟨hPlace', hMiddle⟩ := hRenamed.get hp hq
      obtain ⟨hPlace'', hLast⟩ := h'.successors.get hq hn'
      exact ⟨hPlace.trans (hPlace'.trans hPlace''), _, _, hFirst.serves true, hMiddle, hLast.serves true⟩

/-- Steps from states that are alike, on linked heaps and the same budget, are alike. -/
theorem apply_tallies {Λ : Links} {s t : Supply} (hCalls : c.CallsMirror) (hBond : Λ.Bond s.heap t.heap)
    (hBudget : s.budget = t.budget) (hi : c.method.code.at? a = some i) (hReads : ∀ r ∈ i.reads, keep r)
    (hPre : pre.Tallies Λ i.takesResult keep pre') :
    Mirrors Λ (c.apply a pre) (c.apply a pre') s t fun Λ' => Step.Tallies Λ' keep (i.Passes keep) := by
  obtain ⟨p, q, hFirst, hSame, hSecond⟩ := hPre
  have hMirrors := ((apply_agree hi hReads hFirst).mirrors (apply_mirrors hCalls hBond hBudget hSame a)).agree
    (apply_agree hi hReads hSecond)
  obtain ⟨Λ', hΛ, hLeft, hResult⟩ := hMirrors
  refine ⟨Λ', hΛ, hLeft, hResult.imp fun x y ⟨v, ⟨w, hx, hwv⟩, hy⟩ => ?_⟩
  exact step_tallies hΛ.bond.exists_spans hx hwv hy

end Semantics.Context

end Dalvik
