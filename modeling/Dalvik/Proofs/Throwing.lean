import Dalvik.Proofs.MirroredSteps

/-!
Which instructions jump, and which raise exceptions. Only a branch jumps, and what cannot throw neither
raises an exception nor leaves the possibility of one. No instruction passes an exception on.
-/

namespace Dalvik

/-- Where an instruction of a kind sends control: it jumps only if it is a branch, and raises an exception
only if it may throw. The exception that a handler has been entered with is gone behind it. -/
structure Outcome.Obeys (i : Instruction Address) (o : Outcome) : Prop where
  jumps : ∀ ts, o.flow = .jump ts → i.isBranch = true
  raises : ∀ v, o.flow = .raise v → i.mayThrow = true
  hazard : o.hazard ≠ none → i.mayThrow = true
  plain : o.post.exception = none

namespace Semantics

variable {c : Context} {i : Instruction Address} {pre post : State} (hPost : post.exception = none)

theorem exception_clobber (s : State) (v : Value) : (clobber s v).exception = s.exception := by
  unfold clobber
  split
  · split <;> rfl
  · rfl

theorem exception_foldl_clobber (vs : List Value) (s : State) :
    (vs.foldl clobber s).exception = s.exception := by
  induction vs generalizing s with
  | nil => rfl
  | cons v vs ih => exact (ih _).trans (exception_clobber s v)

theorem ends_exception_assign (s : State) (dst : Register) (v : Value) :
    Ends (s.assign dst v) (fun t => t.exception = s.exception) fun _ => True := by
  unfold Ends
  split
  · rename_i t ht
    exact (State.registers_assign ht).2.2
  · trivial

theorem ends_exception_opaqueResult (s : State) (m : MethodReference) (args : List Register) :
    Ends (opaqueResult s m args) (fun t => t.exception = s.exception) fun _ => True := by
  unfold opaqueResult
  split
  · split
    · exact ends_exception_assign s _ _
    · rfl
  · split <;> rfl

theorem ends_bind_of_all {α β : Type} {x : Except Error α} {f : α → Except Error β} {Q : β → Prop}
    (h : ∀ v, Ends (f v) Q fun _ => True) : Ends (x >>= f) Q fun _ => True :=
  ends_bind.mpr (ends_of_all h)

include hPost

theorem obeys_next {hazard : Option Value} (h : hazard ≠ none → i.mayThrow = true) :
    Outcome.Obeys i ⟨.next, post, hazard⟩ :=
  ⟨nofun, nofun, h, hPost⟩

theorem obeys_raise (h : i.mayThrow = true) (x : Value) : Outcome.Obeys i ⟨.raise x, post, none⟩ :=
  ⟨nofun, fun _ _ => h, fun _ => h, hPost⟩

theorem obeys_jump (h : i.isBranch = true) (ts : List Address) : Outcome.Obeys i (.jump post ts) :=
  ⟨fun _ _ => h, nofun, fun hNone => absurd rfl hNone, hPost⟩

theorem ends_obeys_assign {dst : Register} {v : Value} {hazard : Option Value}
    (h : hazard ≠ none → i.mayThrow = true) :
    Ends (Outcome.assign post dst v hazard) (Outcome.Obeys i) fun _ => True := by
  unfold Outcome.assign
  rw [ends_map]
  exact (ends_exception_assign post dst v).imp (fun s hs => obeys_next (hs.trans hPost) h) fun _ h => h

theorem branch_obeys (next : Except Error Address) (cmp : Comparison) (lhs : Register)
    (rhs : Option Register) (target : Address) (h : i.isBranch = true) :
    Ends (branch pre post next cmp lhs rhs target) (Outcome.Obeys i) fun _ => True := by
  rw [branch_eq]
  exact ends_bind_of_all fun v => ends_bind_of_all fun w => ends_bind_of_all fun next => obeys_jump hPost h _

theorem switch_obeys (next : Except Error Address) (src : Register) (cases : List (Int32 × Address))
    (h : i.isBranch = true) :
    Ends (switch pre post next src cases) (Outcome.Obeys i) fun _ => True := by
  rw [switch_eq]
  exact ends_bind_of_all fun next => ends_bind_of_all fun v => obeys_jump hPost h _

omit hPost in
/-- What cannot throw, such as a quotient by a literal other than zero, assigns its result. -/
theorem binary_of_safe {op : BinaryOp} {type : NumberType} {dst lhs : Register} {rhs : Operand}
    (hSafe : (Instruction.binary op type dst lhs rhs : Instruction Address).mayThrow = false) :
    binary pre post op type dst lhs rhs = pre.read lhs >>= fun v => readOperand pre op type rhs >>= fun w =>
      Outcome.assign post dst ((Value.binary? op type (v.coerce type.descriptor) w).getD (.unknown type.descriptor))
        none := by
  unfold binary
  refine congrArg (pre.read lhs >>= ·) (funext fun v => ?_)
  cases rhs with
  | register r =>
      have hExact : (op.isDivision && type.isIntegral) = false := by
        simpa [Instruction.mayThrow] using hSafe
      exact congrArg (readOperand pre op type (.register r) >>= ·) (funext fun w => if_neg (by simp [hExact]))
  | literal n =>
      dsimp only [readOperand, bind, Except.bind]
      by_cases hDivides : (op.isDivision && type.isIntegral) = true
      · have hn : decide (n = 0) = false := by
          simpa [Instruction.mayThrow, hDivides] using hSafe
        have hZero : (Value.int n).isZero? = some false := congrArg some hn
        rw [if_pos hDivides, hZero]
      · rw [if_neg hDivides]

theorem binary_obeys (op : BinaryOp) (type : NumberType) (dst lhs : Register) (rhs : Operand) :
    Ends (binary pre post op type dst lhs rhs) (Outcome.Obeys (.binary op type dst lhs rhs))
      fun _ => True := by
  cases hThrows : (Instruction.binary op type dst lhs rhs : Instruction Address).mayThrow with
  | false =>
      rw [binary_of_safe hThrows]
      exact ends_bind_of_all fun v => ends_bind_of_all fun w =>
        ends_obeys_assign hPost fun hNone => absurd rfl hNone
  | true =>
      unfold binary
      refine ends_bind_of_all fun v => ends_bind_of_all fun w => ?_
      dsimp only
      split
      · split
        · exact obeys_raise hPost hThrows _
        · exact ends_obeys_assign hPost fun _ => hThrows
        · exact ends_obeys_assign hPost fun _ => hThrows
      · exact ends_obeys_assign hPost fun _ => hThrows

theorem checkCast_obeys (reg : Register) (type : Descriptor) (h : i.mayThrow = true) :
    Ends (checkCast pre post reg type) (Outcome.Obeys i) fun _ => True := by
  refine ends_bind_of_all fun v => ?_
  split
  · exact obeys_next hPost fun _ => h
  · exact ends_obeys_assign hPost fun _ => h
  · exact obeys_next hPost fun _ => h

theorem newArray_obeys (dst size : Register) (type : Descriptor) (h : i.mayThrow = true) (s : Supply) :
    Run.Ends (newArray pre post dst size type) s (fun o _ => o.Obeys i) fun _ _ => True := by
  unfold newArray
  rw [Run.ends_bind, Run.ends_ofExcept]
  refine ends_of_all fun n => ?_
  split
  · rw [Run.ends_bind, Run.ends_onHeap, Run.ends_ofExcept]
    exact ends_obeys_assign hPost fun _ => h
  · split
    · exact obeys_raise hPost h _
    · rw [Run.ends_bind, Run.ends_onHeap, Run.ends_ofExcept]
      exact ends_obeys_assign hPost fun _ => h

theorem arrayLength_obeys (dst array : Register) (h : i.mayThrow = true) :
    Ends (arrayLength pre post dst array) (Outcome.Obeys i) fun _ => True := by
  refine ends_bind_of_all fun v => ?_
  split
  · exact obeys_raise hPost h _
  · exact ends_obeys_assign hPost fun _ => h
  · exact ends_obeys_assign hPost fun _ => h

theorem arrayGet_obeys (dst array index : Register) (h : i.mayThrow = true) :
    Ends (arrayGet pre post dst array index) (Outcome.Obeys i) fun _ => True := by
  refine ends_bind_of_all fun n => ends_bind_of_all fun v => ?_
  split
  · exact obeys_raise hPost h _
  · split
    · exact obeys_raise hPost h _
    · exact ends_bind_of_all fun n => ends_obeys_assign hPost fun _ => h
    · exact ends_obeys_assign hPost fun _ => h
  · exact ends_obeys_assign hPost fun _ => h

theorem arrayPut_obeys (src array index : Register) (h : i.mayThrow = true) :
    Ends (arrayPut pre post src array index) (Outcome.Obeys i) fun _ => True := by
  refine ends_bind_of_all fun w => ends_bind_of_all fun n => ends_bind_of_all fun v => ?_
  split
  · exact obeys_raise hPost h _
  · split
    · exact obeys_raise hPost h _
    · exact ends_bind_of_all fun n => obeys_next (by exact hPost) fun _ => h
    · exact obeys_next (by exact hPost) fun _ => h
  · exact obeys_next hPost fun _ => h

theorem fillArray_obeys (array : Register) (data : List Literal) (h : i.mayThrow = true) (s : Supply) :
    Run.Ends (fillArray pre post array data) s (fun o _ => o.Obeys i) fun _ _ => True := by
  unfold fillArray
  rw [Run.ends_bind, Run.ends_ofExcept]
  refine ends_of_all fun v => ?_
  split
  · exact obeys_raise hPost h _
  · split
    · exact obeys_raise hPost h _
    · split
      · rw [Run.ends_bind, Run.ends_onHeap]
        exact obeys_next (by exact hPost) fun _ => h
      · exact obeys_next hPost fun _ => h
  · exact obeys_next hPost fun _ => h
  · exact obeys_next hPost fun _ => h

theorem fieldGet_obeys (dst : Register) (object : Option Register) (field : FieldReference)
    (h : i.mayThrow = true) :
    Ends (fieldGet pre post dst object field) (Outcome.Obeys i) fun _ => True := by
  refine ends_bind_of_all fun u => ?_
  dsimp only
  split
  · exact obeys_raise hPost h _
  · exact ends_obeys_assign hPost fun _ => h

theorem fieldPut_obeys (src : Register) (object : Option Register) (h : i.mayThrow = true) :
    Ends (fieldPut pre post src object) (Outcome.Obeys i) fun _ => True := by
  refine ends_bind_of_all fun v => ends_bind_of_all fun u => ?_
  dsimp only
  split
  · exact obeys_raise hPost h _
  · exact obeys_next hPost fun _ => h

theorem applyEffect_obeys (m : MethodReference) (args : List Register) (e : Effect)
    (h : i.mayThrow = true) :
    Ends (applyEffect post m args e) (Outcome.Obeys i) fun _ => True := by
  unfold applyEffect
  split
  · split
    · split
      · exact ends_obeys_assign hPost fun _ => h
      · exact obeys_next hPost fun _ => h
    · exact obeys_next (by exact hPost) fun _ => h
  · exact obeys_next hPost fun _ => h
  · exact obeys_next hPost fun _ => h
  · exact obeys_raise hPost h _

namespace Context

theorem opaque_obeys (m : MethodReference) (args : List Register) (hazard : Option Value)
    (h : i.mayThrow = true) (s : Supply) :
    Run.Ends (Run.ofExcept (opaqueResult post m args) >>= fun post =>
        pure (⟨.next, post, hazard⟩ : Outcome)) s (fun o _ => o.Obeys i) fun _ _ => True := by
  rw [Run.ends_bind, Run.ends_ofExcept]
  exact (ends_exception_opaqueResult post m args).imp
    (fun s hs => obeys_next (hs.trans hPost) fun _ => h) fun _ h => h

theorem invoke_obeys (kind : InvokeKind) (m : MethodReference) (args : List Register)
    (h : i.mayThrow = true) (s : Supply) :
    Run.Ends (c.invoke kind m args pre post) s (fun o _ => o.Obeys i) fun _ _ => True := by
  unfold invoke
  rw [Run.ends_bind, Run.ends_ofExcept]
  refine ends_of_all fun values => ?_
  split
  · exact obeys_raise hPost h _
  · unfold invokePresent
    split
    · unfold invokeFramework
      rw [Run.ends_bind]
      refine Run.ends_of_forall (fun e t => ?_) fun _ _ => trivial
      cases e with
      | unknown => exact opaque_obeys hPost m args _ h t
      | _ => exact Run.ends_ofExcept.mpr (applyEffect_obeys hPost m args _ h)
    · have hPost : (values.foldl clobber post).exception = none :=
        (exception_foldl_clobber values post).trans hPost
      rw [invokeOther_eq, Run.ends_bind]
      refine Run.ends_of_forall (fun e t => ?_) fun _ _ => trivial
      cases e with
      | none => exact opaque_obeys hPost m args _ h t
      | some e =>
          dsimp only [conclude]
          split
          · exact opaque_obeys hPost m args none h t
          · exact Run.ends_ofExcept.mpr (applyEffect_obeys hPost m args e h)

/-- Every instruction sends control only where its kind may. -/
theorem execute_obeys (pre : State) (a : Address) (i : Instruction Address) (s : Supply) :
    Run.Ends (c.execute a i pre post) s (fun o _ => o.Obeys i) fun _ _ => True := by
  have hPure {x : Except Error Outcome} (h : Ends x (Outcome.Obeys i) fun _ => True) :
      Run.Ends (Run.ofExcept x) s (fun o _ => o.Obeys i) fun _ _ => True :=
    Run.ends_ofExcept.mpr h
  have hNone {α : Type} {P : Prop} (h : (none : Option α) ≠ none) : P := absurd rfl h
  cases i with
  | nop => exact obeys_next hPost hNone
  | returnVoid => exact ⟨nofun, nofun, hNone, hPost⟩
  | goto target => exact obeys_jump hPost rfl _
  | const dst l =>
      unfold execute
      rw [Run.ends_bind, Run.ends_onHeap, Run.ends_ofExcept]
      exact ends_obeys_assign hPost hNone
  | move dst src => exact hPure (ends_bind_of_all fun v => ends_obeys_assign hPost hNone)
  | moveResult dst => exact hPure (ends_obeys_assign hPost hNone)
  | moveException dst => exact hPure (ends_obeys_assign hPost hNone)
  | returnValue src => exact hPure (ends_bind_of_all fun v => ⟨nofun, nofun, hNone, hPost⟩)
  | throw src =>
      refine hPure (ends_bind_of_all fun v => ?_)
      split <;> exact obeys_raise hPost rfl _
  | branch cond lhs rhs target => exact hPure (branch_obeys hPost _ cond lhs rhs target rfl)
  | switch src cases => exact hPure (switch_obeys hPost _ src cases rfl)
  | compare kind dst lhs rhs =>
      exact hPure (ends_bind_of_all fun v => ends_bind_of_all fun w => ends_obeys_assign hPost hNone)
  | unary op dst src => exact hPure (ends_bind_of_all fun v => ends_obeys_assign hPost hNone)
  | binary op type dst lhs rhs => exact hPure (binary_obeys hPost op type dst lhs rhs)
  | newInstance dst d => exact hPure (ends_obeys_assign hPost hNone)
  | checkCast r d => exact hPure (checkCast_obeys hPost r d rfl)
  | instanceOf dst src d =>
      refine hPure (ends_bind_of_all fun v => ?_)
      split <;> exact ends_obeys_assign hPost hNone
  | newArray dst size d => exact newArray_obeys hPost dst size d rfl s
  | arrayLength dst array => exact hPure (arrayLength_obeys hPost dst array rfl)
  | arrayGet dst array index => exact hPure (arrayGet_obeys hPost dst array index rfl)
  | arrayPut src array index => exact hPure (arrayPut_obeys hPost src array index rfl)
  | fillArray array data => exact fillArray_obeys hPost array data rfl s
  | fieldGet dst o field => exact hPure (fieldGet_obeys hPost dst o field rfl)
  | fieldPut src o field => exact hPure (fieldPut_obeys hPost src o rfl)
  | invoke kind m args => exact invoke_obeys hPost kind m args rfl s

end Context

end Semantics

end Dalvik
