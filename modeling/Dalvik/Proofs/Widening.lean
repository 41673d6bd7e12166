import Dalvik.Proofs.Likeness
import Dalvik.Proofs.Mapping
import Dalvik.Proofs.Operations

/-!
Steps of a method that has got more local registers. The parameters have moved up, in the instructions as in
the states, and so every instruction finds what it has found before, and leaves the new registers alone.
-/

namespace Dalvik

open Method (shiftRegister)

namespace State

variable {s : State} {L k : Nat}

/-- Every register is found where it has moved to. -/
theorem registers_insertLocals (hL : s.locals.length = L) (r : Register) :
    (s.insertLocals k).registers[shiftRegister L k r]? = s.registers[r]? := by
  unfold registers insertLocals shiftRegister
  dsimp only
  split
  · rename_i hParam
    rw [List.getElem?_append_right (by simpa [hL] using hParam),
      List.getElem?_append_right (by simpa [hL] using hParam)]
    congr 1
    simp only [List.length_append, List.length_replicate, hL, Register] at *
    omega
  · rename_i hLocal
    have hBound : r < s.locals.length := by rw [hL]; exact Nat.lt_of_not_le hLocal
    rw [List.append_assoc, List.getElem?_append_left hBound, List.getElem?_append_left hBound]

theorem read_insertLocals (hL : s.locals.length = L) {r : Register} (hr : r < s.registerCount) :
    (s.insertLocals k).read (shiftRegister L k r) = s.read r := by
  unfold read
  rw [registers_insertLocals hL, List.getElem?_eq_getElem (by rwa [length_registers])]

theorem assign_insertLocals (hL : s.locals.length = L) {r : Register} (hr : r < s.registerCount) (v : Value) :
    (s.insertLocals k).assign (shiftRegister L k r) v = (s.assign r v).map (insertLocals · k) := by
  have hCount : (s.insertLocals k).registerCount = s.registerCount + k := by
    simp only [registerCount, insertLocals, List.length_append, List.length_replicate]
    omega
  have hLocals : (s.insertLocals k).locals.length = L + k := by simp [insertLocals, hL]
  unfold assign shiftRegister
  rw [hLocals, hCount, hL, if_pos hr]
  by_cases hLocal : r < L
  · rw [if_neg (Nat.not_le_of_lt hLocal), if_pos hLocal, if_pos (Nat.lt_add_right k hLocal)]
    simp [insertLocals, Except.map, List.set_append_left, hL, hLocal]
  · have hParam : L ≤ r := Nat.le_of_not_lt hLocal
    rw [if_pos hParam, if_neg hLocal, if_neg (Nat.not_lt.mpr (Nat.add_le_add_right hParam k)),
      if_pos (Nat.add_lt_add_right hr k), Nat.add_sub_add_right]
    rfl

theorem updateInstance_insertLocals (s : State) (id : Nat) (v : Value) (k : Nat) :
    (s.insertLocals k).updateInstance id v = (s.updateInstance id v).insertLocals k := by
  simp [updateInstance, insertLocals]

theorem assigned_insertLocals (s : State) (k : Nat) :
    ((s.insertLocals k).assigned.filterMap fun p => p.2.id?) = s.assigned.filterMap fun p => p.2.id? := by
  have hEach (xs : List (Option Value)) (n : Nat) :
      ((xs.zipIdx n).filterMap fun p => p.1.map fun v => (p.2, v)).filterMap (fun p => p.2.id?) =
        xs.filterMap fun x => x.bind Value.id? := by
    rw [List.filterMap_filterMap]
    induction xs generalizing n with
    | nil => rfl
    | cons x xs ih =>
        rw [List.zipIdx_cons, List.filterMap_cons, List.filterMap_cons, ih]
        cases x <;> rfl
  have hNone : ((List.replicate k (none : Option Value)).filterMap fun x => x.bind Value.id?) = [] := by
    simp
  unfold assigned registers insertLocals
  rw [hEach, hEach]
  simp [List.filterMap_append, hNone]

end State

/-- An empty register refers to no instance. -/
theorem Heap.after_insertLocals (s : State) (k : Nat) : Heap.after (s.insertLocals k) = .after s := by
  unfold after
  rw [State.assigned_insertLocals]

/-- What an instruction does, in a state with more local registers. -/
def Outcome.insertLocals (k : Nat) (o : Outcome) : Outcome := { o with post := o.post.insertLocals k }

/-- Instructions do the same, the second one in a state with more local registers. -/
def Outcome.Widens (k : Nat) (o o' : Outcome) : Prop := o' = o.insertLocals k

namespace Semantics

open Run (Agree)

variable {L k : Nat} {pre post : State}

theorem clobber_insertLocals (s : State) (v : Value) (k : Nat) :
    clobber (s.insertLocals k) v = (clobber s v).insertLocals k := by
  unfold clobber
  split
  · split
    · exact State.updateInstance_insertLocals _ _ _ _
    · rfl
  · rfl

theorem foldl_clobber_insertLocals (vs : List Value) (s : State) (k : Nat) :
    vs.foldl clobber (s.insertLocals k) = (vs.foldl clobber s).insertLocals k := by
  induction vs generalizing s with
  | nil => rfl
  | cons v vs ih => rw [List.foldl_cons, List.foldl_cons, clobber_insertLocals, ih]

section

variable (hPost : post.locals.length = L)

include hPost

theorem widens_assign {dst : Register} (hDst : dst < post.registerCount) (v : Value) (hazard : Option Value) :
    Concur (Outcome.Widens k) (Outcome.assign post dst v hazard)
      (Outcome.assign (post.insertLocals k) (shiftRegister L k dst) v hazard) := by
  unfold Outcome.assign
  rw [State.assign_insertLocals hPost hDst]
  cases post.assign dst v with
  | error e => exact .error e
  | ok s => exact .ok rfl

theorem opaqueResult_widens (m : MethodReference) {args : List Register}
    (hArgs : ∀ r ∈ args, r < post.registerCount) :
    Concur (fun s t => t = s.insertLocals k) (opaqueResult post m args)
      (opaqueResult (post.insertLocals k) m (args.map (shiftRegister L k))) := by
  unfold opaqueResult
  split
  · cases args with
    | nil => exact .ok rfl
    | cons r args =>
        rw [List.map_cons, List.head?_cons, List.head?_cons]
        dsimp only
        rw [State.assign_insertLocals hPost (hArgs r (.head _))]
        cases post.assign r (.unknown m.definer) with
        | error e => exact .error e
        | ok s => exact .ok rfl
  · split <;> exact .ok rfl

theorem applyEffect_widens (m : MethodReference) {args : List Register}
    (hArgs : ∀ r ∈ args, r < post.registerCount) (e : Effect) :
    Concur (Outcome.Widens k) (applyEffect post m args e)
      (applyEffect (post.insertLocals k) m (args.map (shiftRegister L k)) e) := by
  cases e with
  | returns v =>
      unfold applyEffect
      dsimp only
      split
      · cases args with
        | nil => exact .ok rfl
        | cons r args => exact widens_assign hPost (hArgs r (.head _)) v none
      · exact .ok rfl
  | _ => exact .ok rfl

end

section

variable (hPre : pre.locals.length = L)

include hPre

theorem branch_widens (next : Except Error Address) (cmp : Comparison) {lhs : Register}
    {rhs : Option Register} (target : Address) (hLhs : lhs < pre.registerCount)
    (hRhs : ∀ r, rhs = some r → r < pre.registerCount) :
    Concur (Outcome.Widens k) (branch pre post next cmp lhs rhs target)
      (branch (pre.insertLocals k) (post.insertLocals k) next cmp (shiftRegister L k lhs)
        (rhs.map (shiftRegister L k)) target) := by
  have hOperand : (rhs.map (shiftRegister L k)).elim (pure (.int 0)) (pre.insertLocals k).read =
      rhs.elim (pure (.int 0)) pre.read := by
    cases rhs with
    | none => rfl
    | some r => exact State.read_insertLocals hPre (hRhs r rfl)
  rw [branch_eq, branch_eq, State.read_insertLocals hPre hLhs, hOperand]
  exact .bind_same fun v => .bind_same fun w => .bind_same fun next => .ok rfl

theorem switch_widens (next : Except Error Address) {src : Register} (cases : List (Int32 × Address))
    (hSrc : src < pre.registerCount) :
    Concur (Outcome.Widens k) (switch pre post next src cases)
      (switch (pre.insertLocals k) (post.insertLocals k) next (shiftRegister L k src) cases) := by
  rw [switch_eq, switch_eq, State.read_insertLocals hPre hSrc]
  exact .bind_same fun next => .bind_same fun v => .ok rfl

theorem readInt_widens {r : Register} (hr : r < pre.registerCount) :
    readInt (pre.insertLocals k) (shiftRegister L k r) = readInt pre r := by
  unfold readInt
  rw [State.read_insertLocals hPre hr]

theorem useObject_widens {object : Option Register} (hObject : ∀ r, object = some r → r < pre.registerCount) :
    useObject (pre.insertLocals k) (object.map (shiftRegister L k)) = useObject pre object := by
  cases object with
  | none => rfl
  | some r =>
      unfold useObject
      rw [Option.map_some]
      dsimp only
      rw [State.read_insertLocals hPre (hObject r rfl)]

theorem fieldPut_widens {src : Register} {object : Option Register} (hSrc : src < pre.registerCount)
    (hObject : ∀ r, object = some r → r < pre.registerCount) :
    Concur (Outcome.Widens k) (fieldPut pre post src object)
      (fieldPut (pre.insertLocals k) (post.insertLocals k) (shiftRegister L k src)
        (object.map (shiftRegister L k))) := by
  unfold fieldPut
  rw [State.read_insertLocals hPre hSrc, useObject_widens hPre hObject]
  refine .bind_same fun v => .bind_same fun u => ?_
  dsimp only
  split <;> exact .ok rfl

theorem arrayPut_widens {src array index : Register} (hSrc : src < pre.registerCount)
    (hArray : array < pre.registerCount) (hIndex : index < pre.registerCount) :
    Concur (Outcome.Widens k) (arrayPut pre post src array index)
      (arrayPut (pre.insertLocals k) (post.insertLocals k) (shiftRegister L k src) (shiftRegister L k array)
        (shiftRegister L k index)) := by
  have hUpdated (id : Nat) (v : Value) (hazard : Option Value) :
      Concur (Outcome.Widens k) (.ok (Outcome.nextOr (post.updateInstance id v) hazard))
        (.ok (Outcome.nextOr ((post.insertLocals k).updateInstance id v) hazard)) := by
    rw [State.updateInstance_insertLocals]
    exact .ok rfl
  unfold arrayPut
  rw [State.read_insertLocals hPre hSrc, readInt_widens hPre hIndex, State.read_insertLocals hPre hArray]
  refine .bind_same fun w => .bind_same fun n => .bind_same fun v => ?_
  split
  · exact .ok rfl
  · split
    · exact .ok rfl
    · exact .bind_same fun n => hUpdated _ _ none
    · exact hUpdated _ _ _
  · exact .ok rfl

theorem fillArray_widens {array : Register} (data : List Literal) (hArray : array < pre.registerCount) :
    Agree (fillArray pre post array data)
      (fillArray (pre.insertLocals k) (post.insertLocals k) (shiftRegister L k array) data)
      (Outcome.Widens k) := by
  have hPure (o : Outcome) : Agree (pure o) (pure (o.insertLocals k)) (Outcome.Widens k) :=
    Run.agree_pure rfl
  unfold fillArray
  rw [State.read_insertLocals hPre hArray]
  refine .bind_same fun v => ?_
  split
  · exact hPure _
  · split
    · exact hPure _
    · split
      · refine .bind_same fun new => ?_
        dsimp only
        rw [State.updateInstance_insertLocals]
        exact hPure _
      · exact hPure _
  · exact hPure _
  · exact hPure _

theorem mapM_read_insertLocals {args : List Register} (hArgs : ∀ r ∈ args, r < pre.registerCount) :
    (args.map (shiftRegister L k)).mapM (pre.insertLocals k).read = args.mapM pre.read := by
  induction args with
  | nil => rfl
  | cons r args ih =>
      rw [List.map_cons, List.mapM_cons, List.mapM_cons, State.read_insertLocals hPre (hArgs r (.head _)),
        ih fun q hq => hArgs q (.tail _ hq)]

variable (hPost : post.SameShape pre)

include hPost

theorem binary_widens (op : BinaryOp) (type : NumberType) {dst lhs : Register} {rhs : Operand}
    (hDst : dst < pre.registerCount) (hLhs : lhs < pre.registerCount)
    (hRhs : ∀ r, rhs = .register r → r < pre.registerCount) :
    Concur (Outcome.Widens k) (binary pre post op type dst lhs rhs)
      (binary (pre.insertLocals k) (post.insertLocals k) op type (shiftRegister L k dst)
        (shiftRegister L k lhs)
        (match rhs with
          | .register r => .register (shiftRegister L k r)
          | .literal n => .literal n)) := by
  have hAssign (v : Value) (hazard : Option Value) :=
    widens_assign (k := k) (hPost.locals.trans hPre) (hPost.registerCount ▸ hDst) v hazard
  have hOperand : readOperand (pre.insertLocals k) op type (match rhs with
      | .register r => .register (shiftRegister L k r)
      | .literal n => .literal n) = readOperand pre op type rhs := by
    cases rhs with
    | literal n => rfl
    | register r =>
        unfold readOperand
        dsimp only
        rw [State.read_insertLocals hPre (hRhs r rfl)]
  unfold binary
  rw [State.read_insertLocals hPre hLhs, hOperand]
  refine .bind_same fun v => .bind_same fun w => ?_
  dsimp only
  split
  · split
    · exact .ok rfl
    · exact hAssign _ _
    · exact hAssign _ _
  · exact hAssign _ _

theorem checkCast_widens {reg : Register} (type : Descriptor) (hReg : reg < pre.registerCount) :
    Concur (Outcome.Widens k) (checkCast pre post reg type)
      (checkCast (pre.insertLocals k) (post.insertLocals k) (shiftRegister L k reg) type) := by
  unfold checkCast
  rw [State.read_insertLocals hPre hReg]
  refine .bind_same fun v => ?_
  split
  · exact .ok rfl
  · exact widens_assign (hPost.locals.trans hPre) (hPost.registerCount ▸ hReg) _ _
  · exact .ok rfl

theorem newArray_widens {dst size : Register} (type : Descriptor) (hDst : dst < pre.registerCount)
    (hSize : size < pre.registerCount) :
    Agree (newArray pre post dst size type)
      (newArray (pre.insertLocals k) (post.insertLocals k) (shiftRegister L k dst) (shiftRegister L k size) type)
      (Outcome.Widens k) := by
  have hAssign (v : Value) (hazard : Option Value) :=
    widens_assign (k := k) (hPost.locals.trans hPre) (hPost.registerCount ▸ hDst) v hazard
  unfold newArray
  rw [readInt_widens hPre hSize]
  refine .bind_same fun n => ?_
  split
  · exact .bind_same fun v => Run.agree_ofExcept (hAssign _ _)
  · split
    · exact Run.agree_pure rfl
    · exact .bind_same fun v => Run.agree_ofExcept (hAssign _ _)

theorem arrayLength_widens {dst array : Register} (hDst : dst < pre.registerCount)
    (hArray : array < pre.registerCount) :
    Concur (Outcome.Widens k) (arrayLength pre post dst array)
      (arrayLength (pre.insertLocals k) (post.insertLocals k) (shiftRegister L k dst)
        (shiftRegister L k array)) := by
  have hAssign (v : Value) (hazard : Option Value) :=
    widens_assign (k := k) (hPost.locals.trans hPre) (hPost.registerCount ▸ hDst) v hazard
  unfold arrayLength
  rw [State.read_insertLocals hPre hArray]
  refine .bind_same fun v => ?_
  split
  · exact .ok rfl
  · exact hAssign _ _
  · exact hAssign _ _

theorem arrayGet_widens {dst array index : Register} (hDst : dst < pre.registerCount)
    (hArray : array < pre.registerCount) (hIndex : index < pre.registerCount) :
    Concur (Outcome.Widens k) (arrayGet pre post dst array index)
      (arrayGet (pre.insertLocals k) (post.insertLocals k) (shiftRegister L k dst) (shiftRegister L k array)
        (shiftRegister L k index)) := by
  have hAssign (v : Value) (hazard : Option Value) :=
    widens_assign (k := k) (hPost.locals.trans hPre) (hPost.registerCount ▸ hDst) v hazard
  unfold arrayGet
  rw [readInt_widens hPre hIndex, State.read_insertLocals hPre hArray]
  refine .bind_same fun n => .bind_same fun v => ?_
  split
  · exact .ok rfl
  · split
    · exact .ok rfl
    · exact .bind_same fun n => hAssign _ _
    · exact hAssign _ _
  · exact hAssign _ _

theorem fieldGet_widens {dst : Register} {object : Option Register} (field : FieldReference)
    (hDst : dst < pre.registerCount) (hObject : ∀ r, object = some r → r < pre.registerCount) :
    Concur (Outcome.Widens k) (fieldGet pre post dst object field)
      (fieldGet (pre.insertLocals k) (post.insertLocals k) (shiftRegister L k dst)
        (object.map (shiftRegister L k)) field) := by
  unfold fieldGet
  rw [useObject_widens hPre hObject]
  refine .bind_same fun u => ?_
  obtain ⟨raises, hazard⟩ := u
  dsimp only
  split
  · exact .ok rfl
  · exact widens_assign (hPost.locals.trans hPre) (hPost.registerCount ▸ hDst) _ _

end

namespace Context

variable {c c' : Context} {i : Instruction Address}

/-- After a call of which nothing is known. -/
theorem opaque_widens (hPost : post.locals.length = L) (m : MethodReference) {args : List Register}
    (hArgs : ∀ r ∈ args, r < post.registerCount) (hazard : Option Value) :
    Agree (Run.ofExcept (opaqueResult post m args) >>= fun post => pure (⟨.next, post, hazard⟩ : Outcome))
      (Run.ofExcept (opaqueResult (post.insertLocals k) m (args.map (shiftRegister L k))) >>= fun post =>
        pure (⟨.next, post, hazard⟩ : Outcome))
      (Outcome.Widens k) := by
  refine (Run.agree_ofExcept (opaqueResult_widens hPost m hArgs)).bind fun s t h => ?_
  subst h
  exact Run.agree_pure rfl

/-- A method and the same with more local registers are called from in the same way. -/
structure Widens (k : Nat) (c c' : Context) : Prop where
  classes : c'.classes = c.classes
  method : c'.method = c.method.addLocals k
  call : c'.call = c.call

theorem callee?_eq (h : Widens k c c') (kind : InvokeKind) (m : MethodReference) :
    c'.callee? kind m = c.callee? kind m := by
  unfold callee?
  rw [h.classes]

theorem invoke_widens (h : Widens k c c') (hPre : pre.locals.length = L) (hPost : post.SameShape pre)
    (kind : InvokeKind) (m : MethodReference) {args : List Register}
    (hArgs : ∀ r ∈ args, r < pre.registerCount) :
    Agree (c.invoke kind m args pre post)
      (c'.invoke kind m (args.map (shiftRegister L k)) (pre.insertLocals k) (post.insertLocals k))
      (Outcome.Widens k) := by
  unfold invoke
  rw [mapM_read_insertLocals hPre hArgs]
  refine .bind_same fun values => ?_
  split
  · exact Run.agree_pure rfl
  · unfold invokePresent
    split
    · have hFits : ∀ r ∈ args, r < post.registerCount := fun r hr => hPost.registerCount ▸ hArgs r hr
      unfold invokeFramework
      rw [h.classes]
      refine .bind_same fun e => ?_
      split
      · exact opaque_widens (hPost.locals.trans hPre) m hFits _
      · exact Run.agree_ofExcept (applyEffect_widens (hPost.locals.trans hPre) m hFits _)
    · have hNow := hPost.foldl_clobber values
      have hLocals : (values.foldl clobber post).locals.length = L := hNow.locals.trans hPre
      have hFits : ∀ r ∈ args, r < (values.foldl clobber post).registerCount :=
        fun r hr => hNow.registerCount ▸ hArgs r hr
      rw [invokeOther_eq, invokeOther_eq, callee?_eq h, h.call, foldl_clobber_insertLocals]
      refine .bind_same fun e => ?_
      cases e with
      | none => exact opaque_widens hLocals m hFits _
      | some e =>
          dsimp only [conclude]
          split
          · exact opaque_widens hLocals m hFits none
          · exact Run.agree_ofExcept (applyEffect_widens hLocals m hFits e)

/-- An instruction with its registers renumbered does what it has done before. -/
theorem execute_widens (h : Widens k c c') (hPre : pre.locals.length = L) (hPost : post.SameShape pre)
    (hRegisters : ∀ r ∈ i.reads ++ i.writes?.toList, r < pre.registerCount) {a : Address}
    (hNext : c'.next a = c.next a) :
    Agree (c.execute a i pre post)
      (c'.execute a (i.mapRegisters (shiftRegister L k)) (pre.insertLocals k) (post.insertLocals k))
      (Outcome.Widens k) := by
  have hReads : ∀ r ∈ i.reads, r < pre.registerCount := fun r hr => hRegisters r (List.mem_append_left _ hr)
  have hWrites {dst : Register} (hDst : i.writes? = some dst) : dst < pre.registerCount :=
    hRegisters dst (List.mem_append_right _ (by simp [hDst]))
  have hAssign {dst : Register} (hDst : i.writes? = some dst) (v : Value) (hazard : Option Value) :=
    widens_assign (k := k) (hPost.locals.trans hPre) (hPost.registerCount ▸ hWrites hDst) v hazard
  cases i with
  | nop => exact Run.agree_pure rfl
  | returnVoid => exact Run.agree_pure rfl
  | goto target => exact Run.agree_pure rfl
  | const dst l => exact .bind_same fun v => Run.agree_ofExcept (hAssign rfl _ _)
  | move dst src =>
      refine Run.agree_ofExcept ?_
      rw [State.read_insertLocals hPre (hReads src (.head _))]
      exact .bind_same fun v => hAssign rfl _ _
  | moveResult dst => exact Run.agree_ofExcept (hAssign rfl _ _)
  | moveException dst => exact Run.agree_ofExcept (hAssign rfl _ _)
  | returnValue src =>
      refine Run.agree_ofExcept ?_
      unfold returnValue
      rw [State.read_insertLocals hPre (hReads src (.head _))]
      exact .bind_same fun v => .ok rfl
  | throw src =>
      refine Run.agree_ofExcept ?_
      unfold throwValue
      rw [State.read_insertLocals hPre (hReads src (.head _))]
      exact .bind_same fun v => by split <;> exact .ok rfl
  | branch cond lhs rhs target =>
      refine Run.agree_ofExcept ?_
      rw [hNext]
      refine branch_widens hPre _ cond target (hReads lhs (.head _)) fun r hr => hReads r ?_
      simp [Instruction.reads, hr]
  | switch src cases =>
      refine Run.agree_ofExcept ?_
      rw [hNext]
      exact switch_widens hPre _ cases (hReads src (.head _))
  | compare kind dst lhs rhs =>
      refine Run.agree_ofExcept ?_
      unfold compare
      rw [State.read_insertLocals hPre (hReads lhs (.head _)),
        State.read_insertLocals hPre (hReads rhs (.tail _ (.head _)))]
      exact .bind_same fun v => .bind_same fun w => hAssign rfl _ _
  | unary op dst src =>
      refine Run.agree_ofExcept ?_
      unfold unary
      rw [State.read_insertLocals hPre (hReads src (.head _))]
      exact .bind_same fun v => hAssign rfl _ _
  | binary op type dst lhs rhs =>
      cases rhs with
      | register r =>
          exact Run.agree_ofExcept (binary_widens hPre hPost op type (hWrites rfl) (hReads lhs (.head _))
            fun q hq => hReads q (by cases hq; exact .tail _ (.head _)))
      | literal n =>
          exact Run.agree_ofExcept (binary_widens hPre hPost op type (hWrites rfl) (hReads lhs (.head _))
            fun _ hq => by cases hq)
  | newInstance dst d => exact Run.agree_ofExcept (hAssign rfl _ _)
  | checkCast r d => exact Run.agree_ofExcept (checkCast_widens hPre hPost d (hReads r (.head _)))
  | instanceOf dst src d =>
      refine Run.agree_ofExcept ?_
      unfold instanceOf
      rw [State.read_insertLocals hPre (hReads src (.head _))]
      refine .bind_same fun v => ?_
      split <;> exact hAssign rfl _ _
  | newArray dst size d => exact newArray_widens hPre hPost d (hWrites rfl) (hReads size (.head _))
  | arrayLength dst array =>
      exact Run.agree_ofExcept (arrayLength_widens hPre hPost (hWrites rfl) (hReads array (.head _)))
  | arrayGet dst array index =>
      exact Run.agree_ofExcept (arrayGet_widens hPre hPost (hWrites rfl) (hReads array (.head _))
        (hReads index (.tail _ (.head _))))
  | arrayPut src array index =>
      exact Run.agree_ofExcept (arrayPut_widens hPre (hReads src (.head _))
        (hReads array (.tail _ (.head _))) (hReads index (.tail _ (.tail _ (.head _)))))
  | fillArray array data => exact fillArray_widens hPre data (hReads array (.head _))
  | fieldGet dst o field =>
      refine Run.agree_ofExcept (fieldGet_widens hPre hPost field (hWrites rfl) fun r hr => hReads r ?_)
      simp [Instruction.reads, hr]
  | fieldPut src o field =>
      refine Run.agree_ofExcept (fieldPut_widens hPre (hReads src (.head _)) fun r hr => hReads r ?_)
      simp [Instruction.reads, hr]
  | invoke kind m args => exact invoke_widens h hPre hPost kind m hReads

end Context

end Semantics

namespace Method

variable {m : Method} {k : Nat}

theorem addLocals_at? (a : Address) :
    (m.addLocals k).code.at? a = (m.code.at? a).map (Instruction.mapRegisters (shiftRegister m.locals k)) := by
  apply Option.ext
  intro i
  rw [Code.at?_eq_some_iff, addLocals_indexOf?]
  simp only [Option.map_eq_some_iff, Code.at?_eq_some_iff]
  simp only [addLocals, List.getElem?_map, Option.map_eq_some_iff]
  constructor
  · rintro ⟨n, hn, j, hj, hSame⟩
    exact ⟨j, ⟨n, hn, hj⟩, hSame⟩
  · rintro ⟨j, ⟨n, hn, hj⟩, hSame⟩
    exact ⟨n, hn, j, hj, hSame⟩

theorem addLocals_next? (a : Address) : (m.addLocals k).code.next? a = m.code.next? a := by
  apply Option.ext
  intro b
  have hLength : (m.addLocals k).code.length = m.code.length := by simp [addLocals]
  simp only [Code.next?_eq_some_iff, addLocals_indexOf?, addLocals_addressAt, hLength]

theorem addLocals_stop : (m.addLocals k).stop = m.stop := by
  have hSize : (m.addLocals k).code.addressAt m.code.length = m.code.addressAt m.code.length :=
    addLocals_addressAt _
  unfold Code.addressAt at hSize
  rwa [List.take_length, List.take_of_length_le (by simp [addLocals])] at hSize

end Method

namespace Semantics.Context

open Run (Agree)

variable {k : Nat} {c c' : Context} {pre : State} {a : Address}

theorem next_widens (h : Widens k c c') (a : Address) : c'.next a = c.next a := by
  unfold next
  rw [h.method, Method.addLocals_next?, Method.addLocals_stop]

theorem Paired.eq_map {F : State → State} {A B : List (Address × State)}
    (h : Paired (fun s t => t = F s) A B) : B = A.map fun p => (p.1, F p.2) := by
  induction h with
  | nil => rfl
  | @cons p q _ _ hHead _ ih => rw [List.map_cons, ← ih, hHead.1, ← hHead.2]

theorem successors_widen (h : Widens k c c') {o o' : Outcome} (ho : o.Widens k o') :
    Concur (Paired fun s t => t = s.insertLocals k) (c.successors a pre o)
      (c'.successors a (pre.insertLocals k) o') := by
  subst ho
  have hHandlers : c'.method.handlersAt a = c.method.handlersAt a := by rw [h.method]; rfl
  exact paired_successors hHandlers (next_widens h a) rfl rfl (fun _ => rfl) fun _ _ => rfl

/-- A step of a valid method leads to the same places after it has got more local registers. -/
theorem apply_widens (h : Widens k c c') (hValid : c.method.validate = .ok ()) (hPre : pre.Fits c.method)
    (a : Address) :
    Agree (c.apply a pre) (c'.apply a (pre.insertLocals k))
      fun x y => y = x.mapStates (State.insertLocals · k) := by
  cases hi : c.method.code.at? a with
  | none =>
      have hi' : c'.method.code.at? a = none := by rw [h.method, Method.addLocals_at?, hi, Option.map_none]
      rw [apply_of_at?_eq_none hi, apply_of_at?_eq_none hi']
      exact fun _ => ⟨rfl, .error _⟩
  | some i =>
      have hi' : c'.method.code.at? a = some (i.mapRegisters (shiftRegister c.method.locals k)) := by
        rw [h.method, Method.addLocals_at?, hi, Option.map_some]
      have hAdmits := (Method.validate_eq_ok_iff.mp hValid).1 i (Code.mem_of_at? hi)
      rw [apply_eq c pre hi, apply_eq c' _ hi']
      refine (execute_widens h hPre.locals (sameShape_pass none none)
        (fun r hr => hPre.registerCount ▸ hAdmits.registers r hr) (next_widens h a)).bind
        fun o o' ho => Run.agree_ofExcept ?_
      have hLeads : Concur (Paired fun s t => t = s.insertLocals k) (c.successors a pre o)
          (c'.successors a (pre.insertLocals k) o') := successors_widen h ho
      generalize c.successors a pre o = x, c'.successors a (pre.insertLocals k) o' = y at hLeads
      cases hLeads with
      | error e => exact .error e
      | ok hPaired =>
          refine .ok ?_
          subst ho
          exact congrArg (Step.mk _) hPaired.eq_map

end Semantics.Context

end Dalvik
