import Dalvik.Proofs.MirroredSteps

/-!
What a step depends on. In states that agree on the registers that an instruction reads it does the same, and
the states after it agree wherever those before it did, and on what it has assigned, too.
-/

namespace Dalvik

/-- Two states have the same registers, and some of these hold the same. -/
structure State.Agrees (keep : Register → Prop) (s t : State) : Prop where
  shape : s.SameShape t
  registers : ∀ r, keep r → s.registers[r]? = t.registers[r]?

/-- Two states agree on some registers, and on what passes from one instruction to the next. -/
structure State.Coincides (keep : Register → Prop) (s t : State) : Prop where
  agrees : s.Agrees keep t
  result : s.result = t.result
  exception : s.exception = t.exception

namespace State

variable {keep keep' : Register → Prop} {s t u s' t' : State}

theorem Agrees.mono (h : s.Agrees keep t) (hKeep : ∀ r, keep' r → keep r) : s.Agrees keep' t :=
  ⟨h.shape, fun r hr => h.registers r (hKeep r hr)⟩

theorem Agrees.trans (h : s.Agrees keep t) (h' : t.Agrees keep u) : s.Agrees keep u :=
  ⟨h.shape.trans h'.shape, fun r hr => (h.registers r hr).trans (h'.registers r hr)⟩

theorem Agrees.read_eq (h : s.Agrees keep t) {r : Register} (hr : keep r) : s.read r = t.read r := by
  unfold read
  rw [h.registers r hr, h.shape.registerCount]

/-- States agree whatever passes to the next instruction. -/
theorem Agrees.pass (h : s.Agrees keep t) (result exception result' exception' : Option Value) :
    ({ s with result, exception } : State).Agrees keep { t with result := result', exception := exception' } :=
  ⟨⟨h.shape.locals, h.shape.params⟩, h.registers⟩

theorem Coincides.mono (h : s.Coincides keep t) (hKeep : ∀ r, keep' r → keep r) : s.Coincides keep' t :=
  ⟨h.agrees.mono hKeep, h.result, h.exception⟩

theorem Agrees.resting (h : s.Agrees keep t) :
    ({ s with result := none, exception := none } : State).Coincides keep
      { t with result := none, exception := none } :=
  ⟨h.pass _ _ _ _, rfl, rfl⟩

theorem assign_of_le {r : Register} (h : s.registerCount ≤ r) (v : Value) :
    s.assign r v = .error (.register r s.registerCount) := by
  have hLocals : s.locals.length ≤ r := Nat.le_trans (Nat.le_add_right _ _) h
  unfold assign
  rw [if_neg (Nat.not_lt_of_le hLocals), if_neg (Nat.not_lt_of_le h)]

/-- The same value is assigned in both states, or there is no such register in either. -/
theorem Coincides.assign (h : s.Coincides keep t) (dst : Register) (v : Value) :
    Concur (Coincides fun r => keep r ∨ r = dst) (s.assign dst v) (t.assign dst v) := by
  have hShape := (SameShape.refl s).ends_assign dst v
  have hShape' := (SameShape.refl t).ends_assign dst v
  cases hs : s.assign dst v with
  | error e =>
      rw [hs] at hShape
      obtain ⟨hBeyond, rfl⟩ := hShape
      cases ht : t.assign dst v with
      | error e' =>
          rw [ht] at hShape'
          obtain ⟨_, rfl⟩ := hShape'
          rw [h.agrees.shape.registerCount]
          exact .error _
      | ok t' =>
          rw [h.agrees.shape.registerCount] at hBeyond
          rw [assign_of_le hBeyond] at ht
          cases ht
  | ok s' =>
      cases ht : t.assign dst v with
      | error e =>
          rw [ht] at hShape'
          obtain ⟨hBeyond, _⟩ := hShape'
          rw [← h.agrees.shape.registerCount] at hBeyond
          rw [assign_of_le hBeyond] at hs
          cases hs
      | ok t' =>
          rw [hs] at hShape
          rw [ht] at hShape'
          obtain ⟨hFirst, hResult, hException⟩ := registers_assign hs
          obtain ⟨hSecond, hResult', hException'⟩ := registers_assign ht
          refine .ok ⟨⟨hShape.trans (h.agrees.shape.trans ⟨hShape'.locals.symm, hShape'.params.symm⟩),
            fun r hr => ?_⟩, by rw [hResult, hResult', h.result],
            by rw [hException, hException', h.exception]⟩
          rw [hFirst, hSecond, List.getElem?_set, List.getElem?_set, length_registers, length_registers,
            h.agrees.shape.registerCount]
          split
          · rfl
          · rename_i hOther
            exact h.agrees.registers r (hr.resolve_right fun hHere => hOther hHere.symm)

theorem Coincides.updateInstance (h : s.Coincides keep t) (id : Nat) (v : Value) :
    (s.updateInstance id v).Coincides keep (t.updateInstance id v) := by
  have hRegisters (s : State) : (s.updateInstance id v).registers =
      s.registers.map (Option.map (replaceInstance id v)) := by
    simp [State.updateInstance, State.registers]
  refine ⟨⟨(SameShape.refl s).updateInstance id v |>.trans (h.agrees.shape.trans ?_), fun r hr => ?_⟩,
    ?_, h.exception⟩
  · have hShape := (SameShape.refl t).updateInstance id v
    exact ⟨hShape.locals.symm, hShape.params.symm⟩
  · rw [hRegisters, hRegisters, List.getElem?_map, List.getElem?_map, h.agrees.registers r hr]
  · exact congrArg (Option.map (replaceInstance id v)) h.result

theorem Coincides.clobber (h : s.Coincides keep t) (v : Value) :
    (Semantics.clobber s v).Coincides keep (Semantics.clobber t v) := by
  unfold Semantics.clobber
  split
  · split
    · exact h.updateInstance _ _
    · exact h
  · exact h

theorem Coincides.foldl_clobber (h : s.Coincides keep t) (vs : List Value) :
    (vs.foldl Semantics.clobber s).Coincides keep (vs.foldl Semantics.clobber t) := by
  induction vs generalizing s t with
  | nil => exact h
  | cons v vs ih => exact ih (h.clobber v)

theorem Coincides.withResult (h : s.Coincides keep t) (result : Option Value) :
    ({ s with result } : State).Coincides keep { t with result } :=
  ⟨⟨⟨h.agrees.shape.locals, h.agrees.shape.params⟩, h.agrees.registers⟩, rfl, h.exception⟩

end State

/-- What an instruction does in two states that agree on some registers. -/
structure Outcome.Agrees (keep : Register → Prop) (i : Instruction Address) (o o' : Outcome) : Prop where
  flow : o.flow = o'.flow
  hazard : o.hazard = o'.hazard
  post : o.post.Coincides keep o'.post
  written : (∀ v, o.flow ≠ .raise v) → ∀ r, i.writes? = some r →
    o.post.registers[r]? = o'.post.registers[r]?

theorem Concur.refl {α : Type} {Q : α → α → Prop} (h : ∀ v, Q v v) (x : Except Error α) : Concur Q x x := by
  cases x with
  | ok v => exact .ok (h v)
  | error e => exact .error e

/-- Two computations that begin alike. -/
theorem Concur.bind_same {α β γ : Type} {Q : β → γ → Prop} {x : Except Error α} {f : α → Except Error β}
    {g : α → Except Error γ} (h : ∀ v, Concur Q (f v) (g v)) : Concur Q (x >>= f) (x >>= g) :=
  (Concur.refl (Q := Eq) (fun _ => rfl) x).bind fun v _ hv => hv ▸ h v

namespace Run

variable {α β γ δ : Type} {r : Run α} {q : Run β} {Q : α → β → Prop}

/-- Two computations take the same from any supply, and succeed with related results or fail alike. -/
def Agree (r : Run α) (q : Run β) (Q : α → β → Prop) : Prop :=
  ∀ s, (r s).2 = (q s).2 ∧ Concur Q (r s).1 (q s).1

theorem Agree.bind {f : α → Run γ} {g : β → Run δ} {P : γ → δ → Prop} (h : Agree r q Q)
    (hNext : ∀ w v, Q w v → Agree (f w) (g v) P) : Agree (r >>= f) (q >>= g) P := by
  intro s
  obtain ⟨hSupply, hResult⟩ := h s
  rw [stateful_bind_apply, stateful_bind_apply]
  generalize r s = x, q s = y at hSupply hResult ⊢
  obtain ⟨x, t⟩ := x
  obtain ⟨y, u⟩ := y
  dsimp only at hSupply hResult
  subst hSupply
  cases hResult with
  | ok hw => exact hNext _ _ hw t
  | error e => exact ⟨rfl, .error e⟩

theorem agree_refl (r : Run α) : Agree r r Eq := fun _ => ⟨rfl, .refl (fun _ => rfl) _⟩

/-- Two computations that begin alike. -/
theorem Agree.bind_same {f : α → Run γ} {g : α → Run δ} {P : γ → δ → Prop}
    (h : ∀ v, Agree (f v) (g v) P) : Agree (r >>= f) (r >>= g) P :=
  (agree_refl r).bind fun w _ hw => hw ▸ h w

theorem agree_pure {w : α} {v : β} (h : Q w v) : Agree (pure w) (pure v) Q := fun _ => ⟨rfl, .ok h⟩

theorem agree_ofExcept {x : Except Error α} {y : Except Error β} (h : Concur Q x y) :
    Agree (ofExcept x) (ofExcept y) Q := fun _ => ⟨rfl, h⟩

end Run

namespace Semantics

open Run (Agree)

variable {keep : Register → Prop} {i : Instruction Address} {pre pre' post post' : State}

section

variable (hPost : post.Coincides keep post')

include hPost

theorem agrees_assign {dst : Register} (hDst : ∀ r, i.writes? = some r → r = dst) (v : Value)
    (hazard : Option Value) :
    Concur (Outcome.Agrees keep i) (Outcome.assign post dst v hazard)
      (Outcome.assign post' dst v hazard) := by
  have hAssigned := hPost.assign dst v
  unfold Outcome.assign
  generalize post.assign dst v = x, post'.assign dst v = y at hAssigned
  cases hAssigned with
  | ok h =>
      exact .ok ⟨rfl, rfl, h.mono fun r hr => .inl hr, fun _ r hr => h.agrees.registers r (.inr (hDst r hr))⟩
  | error e => exact .error e

theorem agrees_raise (type : Descriptor) :
    Concur (Outcome.Agrees keep i) (.ok (.raise post type)) (.ok (.raise post' type)) :=
  .ok ⟨rfl, rfl, hPost, fun hNot => absurd rfl (hNot _)⟩

/-- Nothing is assigned. -/
theorem agrees_of_none (hNone : i.writes? = none) (flow : Flow) (hazard : Option Value) :
    Concur (Outcome.Agrees keep i) (.ok ⟨flow, post, hazard⟩) (.ok ⟨flow, post', hazard⟩) :=
  .ok ⟨rfl, rfl, hPost, fun _ r hr => by rw [hNone] at hr; cases hr⟩

theorem opaqueResult_agrees (m : MethodReference) (args : List Register) :
    Concur (State.Coincides keep) (opaqueResult post m args) (opaqueResult post' m args) := by
  unfold opaqueResult
  split
  · split
    · exact (hPost.assign _ _).imp fun _ _ h => h.mono fun r hr => .inl hr
    · exact .ok hPost
  · split
    · exact .ok hPost
    · exact .ok (hPost.withResult _)

theorem applyEffect_agrees (hNone : i.writes? = none) (m : MethodReference) (args : List Register)
    (e : Effect) :
    Concur (Outcome.Agrees keep i) (applyEffect post m args e) (applyEffect post' m args e) := by
  cases e with
  | returns v =>
      unfold applyEffect
      dsimp only
      split
      · split
        · exact agrees_assign hPost (fun r hr => by rw [hNone] at hr; cases hr) v none
        · exact agrees_of_none hPost hNone _ _
      · exact agrees_of_none (hPost.withResult _) hNone _ _
  | void => exact agrees_of_none hPost hNone _ _
  | unknown => exact agrees_of_none hPost hNone _ _
  | throws type => exact agrees_raise hPost type

end

section

variable (hPre : pre.Agrees keep pre') (hPost : post.Coincides keep post')

include hPre hPost

theorem branch_agrees (next : Except Error Address) (cmp : Comparison) {lhs : Register}
    {rhs : Option Register} (target : Address) (hLhs : keep lhs) (hRhs : ∀ r, rhs = some r → keep r)
    (hNone : i.writes? = none) :
    Concur (Outcome.Agrees keep i) (branch pre post next cmp lhs rhs target)
      (branch pre' post' next cmp lhs rhs target) := by
  have hOperand : rhs.elim (pure (.int 0)) pre.read = rhs.elim (pure (.int 0)) pre'.read := by
    cases rhs with
    | none => rfl
    | some r => exact hPre.read_eq (hRhs r rfl)
  rw [branch_eq, branch_eq, hPre.read_eq hLhs, hOperand]
  exact .bind_same fun v => .bind_same fun w => .bind_same fun next => agrees_of_none hPost hNone _ _

theorem switch_agrees (next : Except Error Address) {src : Register} (cases : List (Int32 × Address))
    (hSrc : keep src) (hNone : i.writes? = none) :
    Concur (Outcome.Agrees keep i) (switch pre post next src cases) (switch pre' post' next src cases) := by
  rw [switch_eq, switch_eq, hPre.read_eq hSrc]
  exact .bind_same fun next => .bind_same fun v => agrees_of_none hPost hNone _ _

omit hPost in
theorem readOperand_eq {op : BinaryOp} {type : NumberType} {rhs : Operand}
    (hRhs : ∀ r, rhs = .register r → keep r) : readOperand pre op type rhs = readOperand pre' op type rhs := by
  cases rhs with
  | literal v => rfl
  | register r =>
      unfold readOperand
      dsimp only
      rw [hPre.read_eq (hRhs r rfl)]

theorem binary_agrees (op : BinaryOp) (type : NumberType) {dst lhs : Register} {rhs : Operand}
    (hLhs : keep lhs) (hRhs : ∀ r, rhs = .register r → keep r)
    (hDst : ∀ r, i.writes? = some r → r = dst) :
    Concur (Outcome.Agrees keep i) (binary pre post op type dst lhs rhs)
      (binary pre' post' op type dst lhs rhs) := by
  unfold binary
  rw [hPre.read_eq hLhs, readOperand_eq hPre hRhs]
  refine .bind_same fun v => .bind_same fun w => ?_
  dsimp only
  split
  · split
    · exact agrees_raise hPost _
    · exact agrees_assign hPost hDst _ _
    · exact agrees_assign hPost hDst _ _
  · exact agrees_assign hPost hDst _ _

theorem checkCast_agrees {reg : Register} (type : Descriptor) (hReg : keep reg) (hNone : i.writes? = none) :
    Concur (Outcome.Agrees keep i) (checkCast pre post reg type) (checkCast pre' post' reg type) := by
  unfold checkCast
  rw [hPre.read_eq hReg]
  refine .bind_same fun v => ?_
  split
  · exact agrees_of_none hPost hNone _ _
  · exact agrees_assign hPost (fun r hr => by rw [hNone] at hr; cases hr) _ _
  · exact agrees_of_none hPost hNone _ _

theorem newArray_agrees {dst size : Register} (type : Descriptor) (hSize : keep size)
    (hDst : ∀ r, i.writes? = some r → r = dst) :
    Agree (newArray pre post dst size type) (newArray pre' post' dst size type)
      (Outcome.Agrees keep i) := by
  unfold newArray readInt
  rw [hPre.read_eq hSize]
  refine .bind_same fun n => ?_
  split
  · exact .bind_same fun v => Run.agree_ofExcept (agrees_assign hPost hDst _ _)
  · split
    · exact fun _ => ⟨rfl, agrees_raise hPost _⟩
    · exact .bind_same fun v => Run.agree_ofExcept (agrees_assign hPost hDst _ _)

theorem arrayLength_agrees {dst array : Register} (hArray : keep array)
    (hDst : ∀ r, i.writes? = some r → r = dst) :
    Concur (Outcome.Agrees keep i) (arrayLength pre post dst array) (arrayLength pre' post' dst array) := by
  unfold arrayLength
  rw [hPre.read_eq hArray]
  refine .bind_same fun v => ?_
  split
  · exact agrees_raise hPost _
  · exact agrees_assign hPost hDst _ _
  · exact agrees_assign hPost hDst _ _

theorem arrayGet_agrees {dst array index : Register} (hArray : keep array) (hIndex : keep index)
    (hDst : ∀ r, i.writes? = some r → r = dst) :
    Concur (Outcome.Agrees keep i) (arrayGet pre post dst array index)
      (arrayGet pre' post' dst array index) := by
  unfold arrayGet readInt
  rw [hPre.read_eq hArray, hPre.read_eq hIndex]
  refine .bind_same fun n => .bind_same fun v => ?_
  split
  · exact agrees_raise hPost _
  · split
    · exact agrees_raise hPost _
    · exact .bind_same fun n => agrees_assign hPost hDst _ _
    · exact agrees_assign hPost hDst _ _
  · exact agrees_assign hPost hDst _ _

theorem arrayPut_agrees {src array index : Register} (hSrc : keep src) (hArray : keep array)
    (hIndex : keep index) (hNone : i.writes? = none) :
    Concur (Outcome.Agrees keep i) (arrayPut pre post src array index)
      (arrayPut pre' post' src array index) := by
  unfold arrayPut readInt
  rw [hPre.read_eq hSrc, hPre.read_eq hArray, hPre.read_eq hIndex]
  refine .bind_same fun w => .bind_same fun n => .bind_same fun v => ?_
  split
  · exact agrees_raise hPost _
  · split
    · exact agrees_raise hPost _
    · exact .bind_same fun n => agrees_of_none (hPost.updateInstance _ _) hNone _ _
    · exact agrees_of_none (hPost.updateInstance _ _) hNone _ _
  · exact agrees_of_none hPost hNone _ _

theorem fillArray_agrees {array : Register} (data : List Literal) (hArray : keep array)
    (hNone : i.writes? = none) :
    Agree (fillArray pre post array data) (fillArray pre' post' array data) (Outcome.Agrees keep i) := by
  have hPure {flow : Flow} {post post' : State} {hazard : Option Value} (h : post.Coincides keep post') :
      Agree (pure (⟨flow, post, hazard⟩ : Outcome)) (pure (⟨flow, post', hazard⟩ : Outcome))
        (Outcome.Agrees keep i) :=
    fun _ => ⟨rfl, agrees_of_none h hNone _ _⟩
  unfold fillArray
  rw [hPre.read_eq hArray]
  refine .bind_same fun v => ?_
  split
  · exact hPure hPost
  · split
    · exact hPure hPost
    · split
      · exact .bind_same fun new => hPure (hPost.updateInstance _ _)
      · exact hPure hPost
  · exact hPure hPost
  · exact hPure hPost

omit hPost in
theorem useObject_eq {object : Option Register} (hObject : ∀ r, object = some r → keep r) :
    useObject pre object = useObject pre' object := by
  cases object with
  | none => rfl
  | some r =>
      unfold useObject
      dsimp only
      rw [hPre.read_eq (hObject r rfl)]

theorem fieldGet_agrees {dst : Register} {object : Option Register} (field : FieldReference)
    (hObject : ∀ r, object = some r → keep r) (hDst : ∀ r, i.writes? = some r → r = dst) :
    Concur (Outcome.Agrees keep i) (fieldGet pre post dst object field)
      (fieldGet pre' post' dst object field) := by
  unfold fieldGet
  rw [useObject_eq hPre hObject]
  refine .bind_same fun u => ?_
  obtain ⟨raises, hazard⟩ := u
  dsimp only
  split
  · exact agrees_raise hPost _
  · exact agrees_assign hPost hDst _ _

theorem fieldPut_agrees {src : Register} {object : Option Register} (hSrc : keep src)
    (hObject : ∀ r, object = some r → keep r) (hNone : i.writes? = none) :
    Concur (Outcome.Agrees keep i) (fieldPut pre post src object) (fieldPut pre' post' src object) := by
  unfold fieldPut
  rw [hPre.read_eq hSrc, useObject_eq hPre hObject]
  refine .bind_same fun v => .bind_same fun u => ?_
  obtain ⟨raises, hazard⟩ := u
  dsimp only
  split
  · exact agrees_raise hPost _
  · exact agrees_of_none hPost hNone _ _

end

namespace Context

variable {c : Context}

/-- After a call of which nothing is known. -/
theorem opaque_agrees (hPost : post.Coincides keep post') (hNone : i.writes? = none) (m : MethodReference)
    (args : List Register) (hazard : Option Value) :
    Agree (Run.ofExcept (opaqueResult post m args) >>= fun post => pure (⟨.next, post, hazard⟩ : Outcome))
      (Run.ofExcept (opaqueResult post' m args) >>= fun post => pure (⟨.next, post, hazard⟩ : Outcome))
      (Outcome.Agrees keep i) :=
  (Run.agree_ofExcept (opaqueResult_agrees hPost m args)).bind fun _ _ h _ =>
    ⟨rfl, agrees_of_none h hNone _ _⟩

theorem mapM_read_eq {args : List Register} (hPre : pre.Agrees keep pre') (hArgs : ∀ r ∈ args, keep r) :
    args.mapM pre.read = args.mapM pre'.read := by
  induction args with
  | nil => rfl
  | cons r args ih =>
      rw [List.mapM_cons, List.mapM_cons, hPre.read_eq (hArgs r (.head _)),
        ih fun q hq => hArgs q (.tail _ hq)]

theorem invoke_agrees (hPre : pre.Agrees keep pre') (hPost : post.Coincides keep post') (kind : InvokeKind)
    (m : MethodReference) {args : List Register} (hArgs : ∀ r ∈ args, keep r) (hNone : i.writes? = none) :
    Agree (c.invoke kind m args pre post) (c.invoke kind m args pre' post') (Outcome.Agrees keep i) := by
  unfold invoke
  rw [mapM_read_eq hPre hArgs]
  refine .bind_same fun values => ?_
  split
  · exact fun _ => ⟨rfl, agrees_raise hPost _⟩
  · unfold invokePresent
    split
    · refine .bind_same fun e => ?_
      split
      · exact opaque_agrees hPost hNone m args _
      · exact Run.agree_ofExcept (applyEffect_agrees hPost hNone m args _)
    · rw [invokeOther_eq, invokeOther_eq]
      refine .bind_same fun e => ?_
      have hNow := hPost.foldl_clobber values
      cases e with
      | none => exact opaque_agrees hNow hNone m args _
      | some e =>
          dsimp only [conclude]
          split
          · exact opaque_agrees hNow hNone m args none
          · exact Run.agree_ofExcept (applyEffect_agrees hNow hNone m args e)

/-- An instruction depends only on the registers that it reads and on what it takes over from the
instruction before it. -/
theorem execute_agrees (hPre : pre.Agrees keep pre') (hPost : post.Coincides keep post')
    (hReads : ∀ r ∈ i.reads, keep r) (hResult : ∀ dst, i = .moveResult dst → pre.result = pre'.result)
    (hException : ∀ dst, i = .moveException dst → pre.exception = pre'.exception) (a : Address) :
    Agree (c.execute a i pre post) (c.execute a i pre' post') (Outcome.Agrees keep i) := by
  have hWrites {dst r : Register} (h : some dst = some r) : r = dst := (Option.some.inj h).symm
  cases i with
  | nop => exact fun _ => ⟨rfl, agrees_of_none hPost rfl _ _⟩
  | returnVoid => exact fun _ => ⟨rfl, agrees_of_none hPost rfl _ _⟩
  | goto target => exact fun _ => ⟨rfl, agrees_of_none hPost rfl _ _⟩
  | const dst l =>
      exact .bind_same fun v => Run.agree_ofExcept (agrees_assign hPost (by intro r hr; exact hWrites hr) _ _)
  | move dst src =>
      refine Run.agree_ofExcept ?_
      rw [hPre.read_eq (hReads src (.head _))]
      exact .bind_same fun v => agrees_assign hPost (by intro r hr; exact hWrites hr) _ _
  | moveResult dst =>
      refine Run.agree_ofExcept ?_
      rw [hResult dst rfl]
      exact agrees_assign hPost (by intro r hr; exact hWrites hr) _ _
  | moveException dst =>
      refine Run.agree_ofExcept ?_
      rw [hException dst rfl]
      exact agrees_assign hPost (by intro r hr; exact hWrites hr) _ _
  | returnValue src =>
      refine Run.agree_ofExcept ?_
      unfold returnValue
      rw [hPre.read_eq (hReads src (.head _))]
      exact .bind_same fun v => agrees_of_none hPost rfl _ _
  | throw src =>
      refine Run.agree_ofExcept ?_
      unfold throwValue
      rw [hPre.read_eq (hReads src (.head _))]
      refine .bind_same fun v => ?_
      split <;> exact agrees_of_none hPost rfl _ _
  | branch cond lhs rhs target =>
      refine Run.agree_ofExcept (branch_agrees hPre hPost _ cond target (hReads lhs (.head _))
        (fun r hr => hReads r ?_) rfl)
      simp [Instruction.reads, hr]
  | switch src cases => exact Run.agree_ofExcept (switch_agrees hPre hPost _ cases (hReads src (.head _)) rfl)
  | compare kind dst lhs rhs =>
      refine Run.agree_ofExcept ?_
      unfold compare
      rw [hPre.read_eq (hReads lhs (.head _)), hPre.read_eq (hReads rhs (.tail _ (.head _)))]
      exact .bind_same fun v => .bind_same fun w => agrees_assign hPost (by intro r hr; exact hWrites hr) _ _
  | unary op dst src =>
      refine Run.agree_ofExcept ?_
      unfold unary
      rw [hPre.read_eq (hReads src (.head _))]
      exact .bind_same fun v => agrees_assign hPost (by intro r hr; exact hWrites hr) _ _
  | binary op type dst lhs rhs =>
      refine Run.agree_ofExcept (binary_agrees hPre hPost op type (hReads lhs ?_) (fun r hr => hReads r ?_)
        (by intro r hr; exact hWrites hr))
      · cases rhs <;> exact .head _
      · subst hr
        exact .tail _ (.head _)
  | newInstance dst d => exact Run.agree_ofExcept (agrees_assign hPost (by intro r hr; exact hWrites hr) _ _)
  | checkCast r d => exact Run.agree_ofExcept (checkCast_agrees hPre hPost d (hReads r (.head _)) rfl)
  | instanceOf dst src d =>
      refine Run.agree_ofExcept ?_
      unfold instanceOf
      rw [hPre.read_eq (hReads src (.head _))]
      refine .bind_same fun v => ?_
      split <;> exact agrees_assign hPost (by intro r hr; exact hWrites hr) _ _
  | newArray dst size d =>
      exact newArray_agrees hPre hPost d (hReads size (.head _)) (by intro r hr; exact hWrites hr)
  | arrayLength dst array =>
      exact Run.agree_ofExcept
        (arrayLength_agrees hPre hPost (hReads array (.head _)) (by intro r hr; exact hWrites hr))
  | arrayGet dst array index =>
      exact Run.agree_ofExcept (arrayGet_agrees hPre hPost (hReads array (.head _))
        (hReads index (.tail _ (.head _))) (by intro r hr; exact hWrites hr))
  | arrayPut src array index =>
      exact Run.agree_ofExcept (arrayPut_agrees hPre hPost (hReads src (.head _))
        (hReads array (.tail _ (.head _))) (hReads index (.tail _ (.tail _ (.head _)))) rfl)
  | fillArray array data => exact fillArray_agrees hPre hPost data (hReads array (.head _)) rfl
  | fieldGet dst o field =>
      refine Run.agree_ofExcept
        (fieldGet_agrees hPre hPost field (fun r hr => hReads r ?_) (by intro r hr; exact hWrites hr))
      simp [Instruction.reads, hr]
  | fieldPut src o field =>
      refine Run.agree_ofExcept (fieldPut_agrees hPre hPost (hReads src (.head _)) (fun r hr => hReads r ?_)
        rfl)
      simp [Instruction.reads, hr]
  | invoke kind m args => exact invoke_agrees hPre hPost kind m hReads rfl

end Context

end Semantics

end Dalvik
