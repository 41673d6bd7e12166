import Dalvik.Proofs.Contents
import Dalvik.Proofs.Framing

/-!
What the other instructions leave of arrays. They assign at most one register, and not an array, as long as none is
thrown, passed to a call or got from one. Another register loses at most what is known of something that is no array.
-/

namespace Dalvik

/-- No array leaves or enters the registers unseen: none is thrown or passed to a call, and a call returns none. -/
def Instruction.Withholds {τ : Type} (i : Instruction τ) (pre post : State) : Prop :=
  match i with
  | .throw src => pre.arrayAt? src = none
  | .invoke _ _ args => (∀ r ∈ args, pre.arrayAt? r = none) ∧ ∀ v ∈ post.result, v.arrayId? = none
  | _ => True

instance {τ : Type} (i : Instruction τ) (pre post : State) : Decidable (i.Withholds pre post) := by
  rcases i with ⟨⟩ <;> dsimp only [Instruction.Withholds] <;> infer_instance

/-- The register that an instruction assigns, which is that of the receiver if it is the call of a constructor. -/
def Instruction.assigned? {τ : Type} : Instruction τ → Option Register
  | invoke _ m args => if m.isConstructor then args.head? else none
  | i => i.writes?

/-- An instruction leaves arrays alone: the register that it assigns is given something else, another one keeps what it
holds or, if that is no array, some of it is forgotten, and no array is handed on. -/
structure Outcome.Skirts (i : Instruction Address) (pre : State) (o : Outcome) : Prop where
  others : ∀ q, i.assigned? ≠ some q →
    o.post.peek? q = pre.peek? q ∨ pre.arrayAt? q = none ∧ ∃ d, o.post.peek? q = some (.unknown d)
  assigned : (∀ x, o.flow ≠ .raise x) → ∀ q, i.assigned? = some q → o.post.arrayAt? q = none
  rest : ∀ v, o.post.result = some v ∨ o.post.exception = some v → v.arrayId? = none
  raised : ∀ v, o.flow = .raise v ∨ o.hazard = some v → v.arrayId? = none

namespace FrameworkMethod

/-- Framework methods return no arrays. -/
theorem call_plain (f : FrameworkMethod) (cs : Classes) (h : Heap) (args : List Value) :
    Ends (f.call cs h args) (fun p => p.1.All fun v => v.arrayId? = none) fun _ => True := by
  have hReturns {v : Value} (hv : v.arrayId? = none) : (Effect.returns v).All fun v => v.arrayId? = none := by
    rintro _ ⟨⟩
    exact hv
  have hArgument {index : Nat} {g : Value → Except Error (Effect × Heap)}
      (hg : ∀ v, Ends (g v) (fun p => p.1.All fun v => v.arrayId? = none) fun _ => True) :
      Ends (argument args index >>= g) (fun p => p.1.All fun v => v.arrayId? = none) fun _ => True :=
    Semantics.ends_bind_of_all hg
  have hSearch : Ends (findMethod cs h args) (fun p => p.1.All fun v => v.arrayId? = none) fun _ => True := by
    refine hArgument fun definer => hArgument fun name => ?_
    split
    · refine hArgument fun params => ?_
      split
      · exact hReturns rfl
      · exact nofun
    · exact nofun
  cases f with
  | classForName =>
      refine hArgument fun v => ?_
      unfold findClass
      split
      · exact nofun
      · dsimp only [keeping]
        split
        · exact hReturns rfl
        · exact nofun
      · exact nofun
  | classMethod => exact hSearch
  | classDeclaredMethod => exact hSearch
  | stringEquals =>
      refine hArgument fun receiver => ?_
      split
      · refine hArgument fun other => ?_
        split
        · exact nofun
        · exact nofun
        · exact hReturns rfl
      · exact nofun
  | stringToString =>
      refine hArgument fun v => ?_
      dsimp only [keeping]
      split
      · rename_i hText
        exact hReturns (by cases v <;> first | rfl | cases hText)
      · exact nofun
  | integerOfString =>
      refine hArgument fun v => ?_
      unfold readInteger
      split
      · exact nofun
      · split
        · exact hReturns rfl
        · exact nofun
      · exact nofun
  | stringOfString =>
      refine hArgument fun v => ?_
      split
      · exact nofun
      · exact hReturns rfl
      · exact nofun
  | _ =>
      refine hArgument fun v => ?_
      split
      · exact hReturns rfl
      · exact nofun

end FrameworkMethod

/-- A state differs from an earlier one at most in what has been forgotten of values that are no arrays, and passes
nothing on. -/
structure State.Forgets (pre post : State) : Prop where
  registers : ∀ q, post.peek? q = pre.peek? q ∨ pre.arrayAt? q = none ∧ ∃ d, post.peek? q = some (.unknown d)
  result : post.result = none
  exception : post.exception = none

namespace Semantics

variable {pre post : State}

theorem forgets_rest (pre : State) : pre.Forgets { pre with result := none, exception := none } :=
  ⟨fun _ => .inl rfl, rfl, rfl⟩

/-- A value is passed that has the identity of no array. -/
theorem forgets_clobber (hForgets : pre.Forgets post) {v : Value}
    (hOther : ∀ q w, pre.peek? q = some w → w.id? = v.id? → v.id? ≠ none → pre.arrayAt? q = none) :
    pre.Forgets (clobber post v) := by
  unfold clobber
  split
  · rename_i id hId
    split
    · refine ⟨fun q => ?_, by simp [State.updateInstance, hForgets.result], hForgets.exception⟩
      rw [State.peek?_updateInstance]
      rcases hForgets.registers q with hKept | ⟨hNone, d, hUnknown⟩
      · rw [hKept]
        cases hq : pre.peek? q with
        | none => exact .inl rfl
        | some w =>
            rw [Option.map_some, State.replaceInstance]
            split
            · rename_i hSame
              exact .inr ⟨hOther q w hq (hSame.trans hId.symm) (by simp [hId]), _, rfl⟩
            · exact .inl rfl
      · exact .inr ⟨hNone, d, by rw [hUnknown]; rfl⟩
    · exact hForgets
  · exact hForgets

theorem forgets_foldl_clobber (hForgets : pre.Forgets post) {values : List Value}
    (hOther : ∀ v ∈ values, ∀ q w, pre.peek? q = some w → w.id? = v.id? → v.id? ≠ none → pre.arrayAt? q = none) :
    pre.Forgets (values.foldl clobber post) := by
  induction values generalizing post with
  | nil => exact hForgets
  | cons v values ih =>
      exact ih (forgets_clobber hForgets (hOther v (.head _))) fun w hw => hOther w (.tail _ hw)

theorem arrayId?_unknown {v : Value} (h : ∃ d, v = .unknown d) : v.arrayId? = none := by
  obtain ⟨d, rfl⟩ := h
  rfl

theorem arrayId?_of_isAtom {v : Value} (h : v.isAtom = true) : v.arrayId? = none := by
  cases v <;> first | rfl | cases h

/-- Nothing is raised but some exception of a type. -/
theorem plain_of_hazard {flow : Flow} {d : Descriptor} (hFlow : ∀ v, flow ≠ .raise v) {v : Value}
    (h : flow = .raise v ∨ someException d = some v) : v.arrayId? = none := by
  rcases h with hRaise | ⟨⟨⟩⟩
  · exact absurd hRaise (hFlow v)
  · rfl

section

variable {i : Instruction Address} {dst : Register} {v : Value} {flow : Flow} {hazard : Option Value}
  (hForgets : pre.Forgets post)

include hForgets

theorem skirts_raise (hPlain : v.arrayId? = none) : Outcome.Skirts i pre ⟨.raise v, post, none⟩ where
  others q _ := hForgets.registers q
  assigned hFlow := absurd rfl (hFlow v)
  rest := by simp [hForgets.result, hForgets.exception]
  raised := by
    rintro _ (⟨⟨⟩⟩ | ⟨⟨⟩⟩)
    exact hPlain

theorem skirts_result (hNone : i.assigned? = none) {result : Option Value}
    (hResult : ∀ v, result = some v → v.arrayId? = none)
    (hRaised : ∀ v, flow = .raise v ∨ hazard = some v → v.arrayId? = none) :
    Outcome.Skirts i pre ⟨flow, { post with result }, hazard⟩ where
  others q _ := hForgets.registers q
  assigned _ q hq := by
    rw [hNone] at hq
    cases hq
  rest := by
    rintro v (hv | hv)
    · exact hResult v hv
    · cases hForgets.exception.symm.trans hv
  raised := hRaised

theorem skirts_pass (hNone : i.assigned? = none)
    (hRaised : ∀ v, flow = .raise v ∨ hazard = some v → v.arrayId? = none) :
    Outcome.Skirts i pre ⟨flow, post, hazard⟩ := by
  have hSame : { post with result := none } = post := by rw [← hForgets.result]
  have hSkirts : Outcome.Skirts i pre ⟨flow, { post with result := none }, hazard⟩ :=
    skirts_result hForgets hNone nofun hRaised
  rwa [hSame] at hSkirts

theorem skirts_assigned (hDst : i.assigned? = some dst) (hPlain : v.arrayId? = none)
    (hHazard : ∀ v, hazard = some v → v.arrayId? = none) {t : State} (hAssign : post.assign dst v = .ok t) :
    Outcome.Skirts i pre ⟨.next, t, hazard⟩ := by
  obtain ⟨_, hResult, hException⟩ := State.registers_assign hAssign
  constructor
  case others =>
    intro q hOther
    have hElsewhere : q ≠ dst := by
      rintro rfl
      exact hOther hDst
    dsimp only
    rw [State.peek?_assign hAssign, if_neg hElsewhere]
    exact hForgets.registers q
  case assigned =>
    intro _ q hq
    obtain rfl := Option.some.inj (hDst.symm.trans hq)
    rw [State.arrayAt?_assign hAssign, if_pos rfl, hPlain]
  case rest => simp [hResult, hException, hForgets.result, hForgets.exception]
  case raised =>
    rintro v (⟨⟨⟩⟩ | hv)
    exact hHazard v hv

theorem skirts_assign (hDst : i.assigned? = some dst) (hPlain : v.arrayId? = none)
    (hHazard : ∀ v, hazard = some v → v.arrayId? = none) :
    Ends (Outcome.assign post dst v hazard) (Outcome.Skirts i pre) fun _ => True := by
  unfold Outcome.assign
  rw [ends_map]
  exact ends_of_eq fun t hAssign => skirts_assigned hForgets hDst hPlain hHazard hAssign

end

theorem checkCast_skirts (r : Register) (type : Descriptor) :
    Ends (checkCast pre { pre with result := none, exception := none } r type)
      (Outcome.Skirts (.checkCast r type) pre) fun _ => True := by
  have hNone : (Instruction.checkCast r type : Instruction Address).assigned? = none := rfl
  have hHazard {v : Value} (h : Flow.next = .raise v ∨ someException .classCastException = some v) :
      v.arrayId? = none := plain_of_hazard (by simp) h
  unfold checkCast
  refine ends_read_bind fun v hRead => ?_
  split
  · exact skirts_pass (forgets_rest pre) hNone (by simp)
  · unfold Outcome.assign
    rw [ends_map]
    refine ends_of_eq fun t hAssign => skirts_pass ⟨fun q => ?_, ?_, ?_⟩ hNone fun _ => hHazard
    · rw [State.peek?_assign hAssign]
      split
      · rename_i hSame
        subst hSame
        refine .inr ⟨?_, type, rfl⟩
        obtain ⟨_, hHeld⟩ := (State.read_eq_ok_iff _ _ _).mp hRead
        cases hOld : pre.peek? q with
        | none => exact State.arrayAt?_of_none hOld
        | some w =>
            rw [hOld] at hHeld
            exact State.arrayAt?_of_peek? hOld ▸ arrayId?_unknown ⟨_, hHeld⟩
      · exact .inl rfl
    · exact (State.registers_assign hAssign).2.1
    · exact (State.registers_assign hAssign).2.2
  · refine skirts_pass (forgets_rest pre) hNone fun v hv => ?_
    split at hv
    · simp at hv
    · exact hHazard hv

theorem useObject_plain (object : Option Register) :
    Ends (useObject pre object) (fun p => ∀ v, p.2 = some v → v.arrayId? = none) fun _ => True := by
  unfold useObject
  cases object with
  | none => exact nofun
  | some r =>
      rw [ends_map]
      refine ends_of_all fun v => ?_
      split
      · exact nofun
      · rintro _ ⟨⟩
        rfl
      · exact nofun

theorem plain_of_someException {d : Descriptor} {v : Value} (h : someException d = some v) : v.arrayId? = none :=
  arrayId?_unknown ⟨d, (Option.some.inj h).symm⟩

section

variable (hForgets : pre.Forgets post) {dst : Register}

include hForgets

theorem compare_skirts (kind : ThreeWay) (lhs rhs : Register) :
    Ends (compare pre post kind dst lhs rhs) (Outcome.Skirts (.compare kind dst lhs rhs) pre) fun _ => True := by
  refine ends_bind_of_all fun v => ends_bind_of_all fun w => skirts_assign hForgets rfl ?_ (by simp)
  cases Value.threeWay? kind.bias (v.coerce kind.operand) (w.coerce kind.operand) <;> rfl

theorem unary_skirts (op : UnaryOp) (src : Register) :
    Ends (unary pre post op dst src) (Outcome.Skirts (.unary op dst src) pre) fun _ => True := by
  refine ends_bind_of_all fun v => skirts_assign hForgets rfl ?_ (by simp)
  cases hResult : Value.unary? op (v.coerce op.source) with
  | none => rfl
  | some r => exact arrayId?_of_isAtom (Value.unary?_isAtom hResult)

theorem binary_skirts (op : BinaryOp) (type : NumberType) (lhs : Register) (rhs : Operand) :
    Ends (binary pre post op type dst lhs rhs) (Outcome.Skirts (.binary op type dst lhs rhs) pre) fun _ => True := by
  refine ends_bind_of_all fun v => ends_bind_of_all fun w => ?_
  have hPlain : ((Value.binary? op type (v.coerce type.descriptor) w).getD (.unknown type.descriptor)).arrayId? =
      none := by
    cases hResult : Value.binary? op type (v.coerce type.descriptor) w with
    | none => rfl
    | some r => exact arrayId?_of_isAtom (Value.binary?_isAtom hResult)
  dsimp only
  split
  · split
    · exact skirts_raise hForgets rfl
    · exact skirts_assign hForgets rfl hPlain (by simp)
    · exact skirts_assign hForgets rfl hPlain fun _ => plain_of_someException
  · exact skirts_assign hForgets rfl hPlain (by simp)

theorem instanceOf_skirts (src : Register) (type : Descriptor) :
    Ends (instanceOf pre post dst src type) (Outcome.Skirts (.instanceOf dst src type) pre) fun _ => True := by
  refine ends_bind_of_all fun v => skirts_assign hForgets rfl ?_ (by simp)
  split
  · rfl
  · rfl
  · rfl
  · split <;> rfl

theorem arrayLength_skirts (array : Register) :
    Ends (arrayLength pre post dst array) (Outcome.Skirts (.arrayLength dst array) pre) fun _ => True := by
  refine ends_bind_of_all fun v => ?_
  split
  · exact skirts_raise hForgets rfl
  · exact skirts_assign hForgets rfl rfl (by simp)
  · refine skirts_assign hForgets rfl rfl fun u hu => ?_
    split at hu
    · cases hu
    · exact plain_of_someException hu

theorem fieldGet_skirts (object : Option Register) (field : FieldReference) :
    Ends (fieldGet pre post dst object field) (Outcome.Skirts (.fieldGet dst object field) pre) fun _ => True := by
  unfold fieldGet
  rw [ends_bind]
  refine (useObject_plain object).imp (fun p hPlain => ?_) fun _ he => he
  dsimp only
  split
  · exact skirts_raise hForgets rfl
  · exact skirts_assign hForgets rfl rfl hPlain

theorem fieldPut_skirts (src : Register) (object : Option Register) (field : FieldReference) :
    Ends (fieldPut pre post src object) (Outcome.Skirts (.fieldPut src object field) pre) fun _ => True := by
  unfold fieldPut
  refine ends_bind_of_all fun v => ?_
  rw [ends_bind]
  refine (useObject_plain object).imp (fun p hPlain => ?_) fun _ he => he
  dsimp only
  split
  · exact skirts_raise hForgets rfl
  · refine skirts_pass hForgets rfl ?_
    rintro v (⟨⟨⟩⟩ | hv)
    exact hPlain v hv

end

section

variable {c : Context} {L : Ledger} {kind : InvokeKind} {m : MethodReference} {args : List Register}

theorem assigned?_of_isConstructor (hConstructor : m.isConstructor = true) {r : Register} (hr : args.head? = some r) :
    (Instruction.invoke kind m args : Instruction Address).assigned? = some r := by
  rw [Instruction.assigned?, if_pos hConstructor, hr]

theorem assigned?_of_args (hNone : m.isConstructor = true → args.head? = none) :
    (Instruction.invoke kind m args : Instruction Address).assigned? = none := by
  rw [Instruction.assigned?]
  split
  · rename_i hConstructor
    exact hNone hConstructor
  · rfl

theorem opaque_skirts (hForgets : pre.Forgets post) {hazard : Option Value}
    (hHazard : ∀ v, hazard = some v → v.arrayId? = none) :
    Ends (opaqueResult post m args) (fun t => Outcome.Skirts (.invoke kind m args) pre ⟨.next, t, hazard⟩)
      fun _ => True := by
  have hRaised : ∀ v, Flow.next = .raise v ∨ hazard = some v → v.arrayId? = none := by
    rintro v (⟨⟨⟩⟩ | hv)
    exact hHazard v hv
  unfold opaqueResult
  split
  · rename_i hConstructor
    split
    · rename_i r hr
      exact ends_of_eq fun t hAssign =>
        skirts_assigned hForgets (assigned?_of_isConstructor hConstructor hr) rfl hHazard hAssign
    · rename_i hNone
      exact skirts_pass hForgets (assigned?_of_args fun _ => hNone) hRaised
  · rename_i hOther
    have hNone : (Instruction.invoke kind m args : Instruction Address).assigned? = none :=
      assigned?_of_args fun hSome => absurd hSome hOther
    split
    · exact skirts_pass hForgets hNone hRaised
    · refine skirts_result hForgets hNone ?_ hRaised
      rintro _ ⟨⟩
      rfl

/-- A call that leaves the registers alone has assigned the receiver what has been in it. -/
theorem skirts_next (hForgets : pre.Forgets post) (hArgs : ∀ r ∈ args, pre.arrayAt? r = none) :
    Outcome.Skirts (.invoke kind m args) pre (.next post) where
  others q _ := hForgets.registers q
  assigned _ q hq := by
    have hMem : q ∈ args := by
      cases hConstructor : m.isConstructor with
      | true => exact List.mem_of_mem_head? (by rwa [Instruction.assigned?, if_pos hConstructor] at hq)
      | false => cases (assigned?_of_args (by simp [hConstructor])).symm.trans hq
    have hNone := hArgs q hMem
    change post.arrayAt? q = none
    rcases hForgets.registers q with hKept | ⟨_, d, hUnknown⟩
    · rwa [State.arrayAt?, hKept]
    · exact State.arrayAt?_of_peek? hUnknown
  rest := by simp [Outcome.next, hForgets.result, hForgets.exception]
  raised := by simp [Outcome.next]

theorem applyEffect_skirts (hForgets : pre.Forgets post) (hArgs : ∀ r ∈ args, pre.arrayAt? r = none) {e : Effect}
    (he : m.isConstructor = true → e.All fun v => v.arrayId? = none) :
    Ends (applyEffect post m args e)
      (fun o => (∀ v, o.post.result = some v → v.arrayId? = none) → o.Skirts (.invoke kind m args) pre)
      fun _ => True := by
  unfold applyEffect
  split
  · rename_i v
    split
    · rename_i hConstructor
      split
      · rename_i r hr
        exact (skirts_assign hForgets (assigned?_of_isConstructor hConstructor hr) (he hConstructor v rfl)
          (by simp)).imp (fun _ ho _ => ho) fun _ he => he
      · exact fun _ => skirts_next hForgets hArgs
    · rename_i hOther
      exact fun hResult => skirts_result hForgets (assigned?_of_args fun hSome => absurd hSome hOther) hResult (by simp)
  · exact fun _ => skirts_next hForgets hArgs
  · exact fun _ => skirts_next hForgets hArgs
  · exact fun _ => skirts_raise hForgets rfl

end

namespace Context

variable {c : Context} {a : Address} {i : Instruction Address} {L : Ledger} {kind : InvokeKind} {m : MethodReference}
  {args : List Register} {o : Outcome} {s t : Supply}

/-- Every argument has been read from a register that is passed. -/
theorem exists_read_of_mapM {values : List Value} (h : args.mapM pre.read = .ok values) {v : Value} (hv : v ∈ values) :
    ∃ r ∈ args, pre.read r = .ok v := by
  induction args generalizing values with
  | nil =>
      obtain rfl : [] = values := Except.ok.inj h
      cases hv
  | cons r args ih =>
      rw [List.mapM_cons] at h
      obtain ⟨u, hu, h⟩ := except_bind_eq_ok.mp h
      obtain ⟨us, hus, h⟩ := except_bind_eq_ok.mp h
      obtain rfl : u :: us = values := Except.ok.inj h
      rcases List.mem_cons.mp hv with rfl | hv
      · exact ⟨r, .head _, hu⟩
      · obtain ⟨q, hq, hRead⟩ := ih hus hv
        exact ⟨q, .tail _ hq, hRead⟩

/-- No array has the identity of a value that is passed. -/
theorem arrayAt?_of_passed (hPre : pre.All (L.Lists Value.outline)) (hArgs : ∀ r ∈ args, pre.arrayAt? r = none)
    {values : List Value} (hReads : args.mapM pre.read = .ok values) {v : Value} (hv : v ∈ values) {q : Register}
    {w : Value} (hPeek : pre.peek? q = some w) (hSame : w.id? = v.id?) (hSome : v.id? ≠ none) :
    pre.arrayAt? q = none := by
  obtain ⟨r, hr, hRead⟩ := exists_read_of_mapM hReads hv
  rcases peek?_or_unknown hRead with hPassed | rfl
  · have hNone : v.arrayId? = none := State.arrayAt?_of_peek? hPassed ▸ hArgs r hr
    cases hHeld : pre.arrayAt? q with
    | none => rfl
    | some i =>
        obtain ⟨d, n, es, hArray⟩ := State.exists_array hHeld
        obtain rfl := Option.some.inj (hPeek.symm.trans hArray)
        obtain ⟨es', rfl⟩ := Memory.array_of_lists hPre hArray hPassed hSame.symm
        cases hNone
  · exact absurd rfl hSome

theorem invoke_skirts (hPre : pre.All (L.Lists Value.outline)) (hArgs : ∀ r ∈ args, pre.arrayAt? r = none) (s : Supply) :
    Run.Ends (c.invoke kind m args pre { pre with result := none, exception := none }) s
      (fun o _ => (∀ v, o.post.result = some v → v.arrayId? = none) → o.Skirts (.invoke kind m args) pre)
      fun _ _ => True := by
  have hOpaque {post : State} (hForgets : pre.Forgets post) (hazard : Option Value)
      (hHazard : ∀ v, hazard = some v → v.arrayId? = none) (t : Supply) :
      Run.Ends (Run.ofExcept (opaqueResult post m args) >>= fun post =>
          pure (⟨.next, post, hazard⟩ : Outcome)) t
        (fun o _ => (∀ v, o.post.result = some v → v.arrayId? = none) → o.Skirts (.invoke kind m args) pre)
        fun _ _ => True := by
    rw [Run.ends_bind, Run.ends_ofExcept]
    exact (opaque_skirts hForgets hHazard).imp (fun _ ho _ => ho) fun _ he => he
  have hHazard : ∀ v, someException .throwable = some v → v.arrayId? = none := by
    rintro _ ⟨⟩
    rfl
  unfold invoke
  rw [Run.ends_bind, Run.ends_ofExcept]
  refine ends_of_eq fun values hReads => ?_
  split
  · exact fun _ => skirts_raise (forgets_rest pre) rfl
  · unfold invokePresent
    split
    · rename_i f _
      have hForgets := forgets_rest pre
      unfold invokeFramework
      rw [Run.ends_bind, Run.ends_onHeap?]
      refine (f.call_plain c.classes s.heap values).imp (fun p hPlain => ?_) fun _ he => he
      split
      · exact hOpaque hForgets _ hHazard _
      · exact Run.ends_ofExcept.mpr (applyEffect_skirts hForgets hArgs fun _ => hPlain)
    · have hForgets : pre.Forgets (values.foldl clobber { pre with result := none, exception := none }) :=
        forgets_foldl_clobber (forgets_rest pre) fun v hv q w => arrayAt?_of_passed hPre hArgs hReads hv
      rw [invokeOther_eq, Run.ends_bind]
      refine Run.ends_of_forall (fun e t => ?_) fun _ _ => trivial
      cases e with
      | none => exact hOpaque hForgets _ hHazard t
      | some e =>
          dsimp only [conclude]
          split
          · exact hOpaque hForgets none nofun t
          · rename_i hOther
            exact Run.ends_ofExcept.mpr (applyEffect_skirts hForgets hArgs fun hSome => absurd hSome hOther)

/-- An instruction that a memory is not changed by leaves arrays alone. -/
theorem execute_skirts (hPre : pre.All (L.Lists Value.outline))
    (hRest : ∀ v, pre.result = some v ∨ pre.exception = some v → v.arrayId? = none)
    (hOther : i.handlesArrays = false) (hWithholds : i.Withholds pre o.post)
    (hDoes : c.execute a i pre { pre with result := none, exception := none } s = (.ok o, t)) : o.Skirts i pre := by
  have hForgets := forgets_rest pre
  have hPure {r : Except Error Outcome} (h : Ends r (Outcome.Skirts i pre) fun _ => True)
      (hDoes : Run.ofExcept r s = (.ok o, t)) : o.Skirts i pre := h.of_eq_ok (congrArg Prod.fst hDoes)
  cases i with
  | nop =>
      obtain ⟨rfl, _⟩ := Run.pure_eq_ok hDoes
      exact skirts_pass hForgets rfl (by simp)
  | const dst l =>
      have hEnds : Run.Ends (c.execute a (.const dst l) pre { pre with result := none, exception := none }) s
          (fun o _ => o.Skirts (.const dst l) pre) fun _ _ => True := by
        unfold execute
        rw [Run.ends_bind, Run.ends_onHeap, Run.ends_ofExcept]
        exact skirts_assign hForgets rfl (Heap.arrayId?_loads s.heap l) (by simp)
      unfold Run.Ends at hEnds
      rwa [hDoes] at hEnds
  | moveResult dst =>
      refine hPure (skirts_assign hForgets rfl ?_ (by simp)) hDoes
      cases hResult : pre.result with
      | none => rfl
      | some v => exact hRest v (.inl hResult)
  | moveException dst =>
      refine hPure (skirts_assign hForgets rfl ?_ (by simp)) hDoes
      cases hException : pre.exception with
      | none => rfl
      | some v => exact hRest v (.inr hException)
  | returnVoid =>
      obtain ⟨rfl, _⟩ := Run.pure_eq_ok hDoes
      exact skirts_pass hForgets rfl (by simp)
  | returnValue src =>
      refine hPure (ends_bind_of_all fun v => ?_) hDoes
      exact skirts_pass hForgets rfl (by simp)
  | throw src =>
      refine hPure (ends_read_bind fun v hRead => ?_) hDoes
      split
      · exact skirts_raise hForgets rfl
      · refine skirts_raise hForgets ?_
        rcases peek?_or_unknown hRead with hPeek | rfl
        · exact State.arrayAt?_of_peek? hPeek ▸ hWithholds
        · rfl
  | goto target =>
      obtain ⟨rfl, _⟩ := Run.pure_eq_ok hDoes
      exact skirts_pass hForgets rfl (by simp)
  | branch cond lhs rhs target =>
      refine hPure ?_ hDoes
      rw [branch_eq]
      exact ends_bind_of_all fun v => ends_bind_of_all fun w => ends_bind_of_all fun next =>
        skirts_pass hForgets rfl (by simp)
  | switch src cases =>
      refine hPure (ends_bind_of_all fun next => ends_bind_of_all fun v => ?_) hDoes
      split <;> exact skirts_pass hForgets rfl (by simp)
  | compare kind dst lhs rhs => exact hPure (compare_skirts hForgets kind lhs rhs) hDoes
  | unary op dst src => exact hPure (unary_skirts hForgets op src) hDoes
  | binary op type dst lhs rhs => exact hPure (binary_skirts hForgets op type lhs rhs) hDoes
  | newInstance dst d => exact hPure (skirts_assign hForgets rfl rfl (by simp)) hDoes
  | checkCast r d => exact hPure (checkCast_skirts r d) hDoes
  | instanceOf dst src d => exact hPure (instanceOf_skirts hForgets src d) hDoes
  | arrayLength dst array => exact hPure (arrayLength_skirts hForgets array) hDoes
  | fieldGet dst object field => exact hPure (fieldGet_skirts hForgets object field) hDoes
  | fieldPut src object field => exact hPure (fieldPut_skirts hForgets src object field) hDoes
  | invoke kind m args =>
      have hEnds : Run.Ends (c.invoke kind m args pre { pre with result := none, exception := none }) s
          (fun o _ => (∀ v, o.post.result = some v → v.arrayId? = none) → o.Skirts (.invoke kind m args) pre)
          fun _ _ => True := invoke_skirts hPre hWithholds.1 s
      unfold Run.Ends at hEnds
      change c.invoke kind m args pre _ s = _ at hDoes
      rw [hDoes] at hEnds
      exact hEnds hWithholds.2
  | _ => cases hOther

end Context

end Semantics

end Dalvik
