import Dalvik.Proofs.Run
import Dalvik.Proofs.Splicing
import Dalvik.Semantics.Step

/-!
What every step respects: a state keeps its registers, control goes where the instruction may send it,
and a step of a valid method fails only beyond the end of a list or of the body.
-/

namespace Dalvik

/-- A state has the registers of a method. -/
structure State.Fits (s : State) (m : Method) : Prop where
  locals : s.locals.length = m.locals
  params : s.params.length = m.paramCount

/-- Two states have the same registers, whatever these hold. -/
structure State.SameShape (s t : State) : Prop where
  locals : s.locals.length = t.locals.length
  params : s.params.length = t.params.length

namespace State

variable {s t : State} {m : Method}

theorem Fits.registerCount (h : s.Fits m) : s.registerCount = m.registerCount := by
  simp [State.registerCount, Method.registerCount, h.locals, h.params]

theorem Fits.of_sameShape (ht : t.Fits m) (h : s.SameShape t) : s.Fits m :=
  ⟨h.locals.trans ht.locals, h.params.trans ht.params⟩

theorem Fits.insertLocals (h : s.Fits m) (count : Nat) :
    (s.insertLocals count).Fits (m.addLocals count) :=
  ⟨by simp [State.insertLocals, Method.addLocals, h.locals], h.params⟩

theorem SameShape.refl (s : State) : s.SameShape s := ⟨rfl, rfl⟩

theorem SameShape.trans {u : State} (h : s.SameShape t) (h' : t.SameShape u) : s.SameShape u :=
  ⟨h.locals.trans h'.locals, h.params.trans h'.params⟩

theorem SameShape.registerCount (h : s.SameShape t) : s.registerCount = t.registerCount := by
  simp [State.registerCount, h.locals, h.params]

theorem SameShape.withResult (h : s.SameShape t) (result : Option Value) :
    ({ s with result } : State).SameShape t :=
  ⟨h.locals, h.params⟩

theorem SameShape.updateInstance (h : s.SameShape t) (id : Nat) (v : Value) :
    (s.updateInstance id v).SameShape t :=
  ⟨by simpa [State.updateInstance] using h.locals, by simpa [State.updateInstance] using h.params⟩

theorem SameShape.clobber (h : s.SameShape t) (v : Value) :
    (Semantics.clobber s v).SameShape t := by
  unfold Semantics.clobber
  split
  · split
    · exact h.updateInstance _ _
    · exact h
  · exact h

theorem SameShape.foldl_clobber (h : s.SameShape t) (vs : List Value) :
    (vs.foldl Semantics.clobber s).SameShape t := by
  induction vs generalizing s with
  | nil => exact h
  | cons v vs ih => exact ih (h.clobber v)

/-- An assignment keeps the registers, and fails only for one that there is not. -/
theorem SameShape.ends_assign (h : s.SameShape t) (r : Register) (v : Value) :
    Ends (s.assign r v) (fun u => u.SameShape t)
      fun e => t.registerCount ≤ r ∧ e = .register r t.registerCount := by
  unfold assign
  rw [h.registerCount]
  split
  · exact ⟨by simpa using h.locals, h.params⟩
  · split
    · exact ⟨h.locals, by simpa using h.params⟩
    · rename_i hBeyond
      exact ⟨Nat.le_of_not_lt hBeyond, rfl⟩

end State

namespace Semantics

/-- Control goes where the instruction at an address may send it. -/
def Follows (c : Context) (a : Address) (i : Instruction Address) : Flow → Prop
  | .next => i.fallsThrough = true
  | .jump targets => targets ≠ [] ∧ ∀ t ∈ targets, t ∈ i.targets ∨ c.next a = .ok t
  | .stop => i = .returnVoid ∨ ∃ src, i = .returnValue src
  | .raise _ => True

/-- What an instruction does keeps the registers of a state and sends control where it may. -/
structure Respects (c : Context) (a : Address) (i : Instruction Address) (pre : State)
    (o : Outcome) : Prop where
  post : o.post.SameShape pre
  flow : Follows c a i o.flow

/-- How an instruction may fail in a state: beyond the end of a list, because it is the last one and
control goes on, or for a register that the state does not have. -/
inductive Lapses (c : Context) (a : Address) (i : Instruction Address) (pre : State) : Error → Prop where
  | outOfBounds : Lapses c a i pre .outOfBounds
  | address : i.fallsThrough = true → c.method.code.next? a = none →
      Lapses c a i pre (.address c.method.stop)
  | register (r : Register) : r ∈ i.reads ++ i.writes?.toList → pre.registerCount ≤ r →
      Lapses c a i pre (.register r pre.registerCount)

theorem Context.next_eq_ok_iff {c : Context} {a b : Address} :
    c.next a = .ok b ↔ c.method.code.next? a = some b := by
  unfold Context.next
  cases c.method.code.next? a <;> simp

theorem switchTarget_mem (cases : List (Int32 × Address)) (next : Address) (key : Int32) :
    switchTarget cases next key ∈ next :: cases.map Prod.snd := by
  unfold switchTarget
  cases hKey : cases.lookup key with
  | none => exact .head _
  | some target => exact .tail _ (List.mem_map.mpr ⟨_, Lookup.mem_of_lookup hKey, rfl⟩)

/-- The places between which a branch decides, by what its comparison comes to. -/
def decided (target next : Address) : Option Bool → List Address
  | some true => [target]
  | some false => [next]
  | none => [next, target]

/-- The places between which a switch decides, by the key that it reads. -/
def selected (cases : List (Int32 × Address)) (next : Address) : Option Int32 → List Address
  | some key => [switchTarget cases next key]
  | none => next :: cases.map Prod.snd

theorem branch_eq (pre post : State) (next : Except Error Address) (cmp : Comparison) (lhs : Register)
    (rhs : Option Register) (target : Address) : branch pre post next cmp lhs rhs target =
      pre.read lhs >>= fun v => rhs.elim (pure (.int 0)) pre.read >>= fun w =>
        next >>= fun next => pure (.jump post (decided target next (Value.compare? cmp v w))) := by
  unfold branch
  refine congrArg (pre.read lhs >>= ·) (funext fun v => ?_)
  cases rhs with
  | none =>
      refine congrArg (next >>= ·) (funext fun n => ?_)
      rcases Value.compare? cmp v (.int 0) with _ | _ | _ <;> rfl
  | some r =>
      refine congrArg (pre.read r >>= ·) (funext fun w => congrArg (next >>= ·) (funext fun n => ?_))
      rcases Value.compare? cmp v w with _ | _ | _ <;> rfl

theorem switch_eq (pre post : State) (next : Except Error Address) (src : Register)
    (cases : List (Int32 × Address)) : switch pre post next src cases =
      next >>= fun next => pre.read src >>= fun v => pure (.jump post (selected cases next v.int32?)) := by
  unfold switch
  refine congrArg (next >>= ·) (funext fun next => congrArg (pre.read src >>= ·) (funext fun v => ?_))
  cases v.int32? <;> rfl

/-- A branch that is not decided goes to all the places to which one may that is. -/
theorem decided_subset (target next : Address) (b : Option Bool) :
    decided target next b ⊆ decided target next none := by
  rcases b with _ | _ | _ <;> simp [decided]

/-- A switch whose key is not known goes to all the places to which one may whose key is. -/
theorem selected_subset (cases : List (Int32 × Address)) (next : Address) (key : Option Int32) :
    selected cases next key ⊆ selected cases next none := by
  cases key with
  | none => exact List.Subset.refl _
  | some key => exact List.cons_subset.mpr ⟨switchTarget_mem cases next key, List.nil_subset _⟩

section

variable {c : Context} {a : Address} {i : Instruction Address} {pre post : State}

theorem respects_raise (hPost : post.SameShape pre) (d : Descriptor) :
    Respects c a i pre (.raise post d) := ⟨hPost, trivial⟩

theorem respects_nextOr (hPost : post.SameShape pre) (hFalls : i.fallsThrough = true)
    (hazard : Option Value) : Respects c a i pre (.nextOr post hazard) := ⟨hPost, hFalls⟩

theorem respects_next (hPost : post.SameShape pre) (hFalls : i.fallsThrough = true) :
    Respects c a i pre (.next post) := ⟨hPost, hFalls⟩

theorem ends_read {r : Register} (hr : r ∈ i.reads) {Q : Value → Prop}
    (h : Q ((pre.peek? r).getD (.unknown .object))) : Ends (pre.read r) Q (Lapses c a i pre) := by
  by_cases hBound : r < pre.registerCount
  · rwa [(State.read_eq_ok_iff pre r _).mpr ⟨hBound, rfl⟩, ends_ok]
  · have hNone : pre.read r = .error (.register r pre.registerCount) := by
      have hBeyond : pre.registers.length ≤ r := by
        rw [State.length_registers]
        exact Nat.le_of_not_lt hBound
      simp [State.read, hBeyond]
    rw [hNone, ends_error]
    exact .register r (List.mem_append_left _ hr) (Nat.le_of_not_lt hBound)

theorem ends_assignRegister {s : State} (hs : s.SameShape pre) {r : Register}
    (hr : r ∈ i.reads ++ i.writes?.toList) (v : Value) :
    Ends (s.assign r v) (fun t => t.SameShape pre) (Lapses c a i pre) :=
  (hs.ends_assign r v).imp (fun _ h => h) fun _ he => he.2 ▸ .register r hr he.1

theorem ends_assign (hPost : post.SameShape pre) (hFalls : i.fallsThrough = true) {dst : Register}
    (hDst : dst ∈ i.reads ++ i.writes?.toList) (v : Value) (hazard : Option Value) :
    Ends (Outcome.assign post dst v hazard) (Respects c a i pre) (Lapses c a i pre) := by
  unfold Outcome.assign
  rw [ends_map]
  exact (ends_assignRegister hPost hDst v).imp (fun s hs => ⟨hs, hFalls⟩) fun _ h => h

theorem ends_next {Q : Address → Prop} (hFalls : i.fallsThrough = true)
    (h : ∀ next, c.next a = .ok next → Q next) : Ends (c.next a) Q (Lapses c a i pre) := by
  unfold Context.next at *
  cases hNext : c.method.code.next? a with
  | none => exact .address hFalls hNext
  | some next => exact h next (by rw [hNext])

theorem ends_readInt {r : Register} (hr : r ∈ i.reads) {Q : Option Int32 → Prop} (h : ∀ n, Q n) :
    Ends (readInt pre r) Q (Lapses c a i pre) := by
  unfold readInt
  rw [ends_map]
  exact ends_read hr (h _)

theorem ends_readOperand {op : BinaryOp} {type : NumberType} {o : Operand}
    (ho : ∀ r, o = .register r → r ∈ i.reads) {Q : Value → Prop} (h : ∀ v, Q v) :
    Ends (readOperand pre op type o) Q (Lapses c a i pre) := by
  cases o with
  | literal v => exact h _
  | register r =>
      unfold readOperand
      rw [ends_map]
      exact ends_read (ho r rfl) (h _)

theorem ends_useObject {object : Option Register} (ho : ∀ r, object = some r → r ∈ i.reads)
    {Q : Bool × Option Value → Prop} (h : ∀ u, Q u) :
    Ends (useObject pre object) Q (Lapses c a i pre) := by
  cases object with
  | none => exact h _
  | some r =>
      unfold useObject
      rw [ends_map]
      exact ends_read (ho r rfl) (h _)

theorem ends_position {index : Int32} {elements : List Value} {Q : Nat → Prop} (h : ∀ n, Q n) :
    Ends (position index elements) Q (Lapses c a i pre) := by
  unfold position
  split
  · exact .outOfBounds
  · exact h _

end

section

variable {c : Context} {a : Address} {pre post : State} (hPost : post.SameShape pre)

include hPost

theorem returnValue_ends (src : Register) :
    Ends (returnValue pre post src) (Respects c a (.returnValue src) pre)
      (Lapses c a (.returnValue src) pre) := by
  unfold returnValue
  rw [ends_bind]
  exact ends_read (.head _) ⟨hPost, .inr ⟨src, rfl⟩⟩

theorem throwValue_ends (src : Register) :
    Ends (throwValue pre post src) (Respects c a (.throw src) pre) (Lapses c a (.throw src) pre) := by
  unfold throwValue
  rw [ends_bind]
  apply ends_read (.head _)
  split
  · exact respects_raise hPost _
  · exact ⟨hPost, trivial⟩

theorem branch_ends (cond : Comparison) (lhs : Register) (rhs : Option Register) (target : Address) :
    Ends (branch pre post (c.next a) cond lhs rhs target)
      (Respects c a (.branch cond lhs rhs target) pre)
      (Lapses c a (.branch cond lhs rhs target) pre) := by
  rw [branch_eq, ends_bind]
  refine ends_read (.head _) ?_
  have hDecided (v w : Value) : Ends (c.next a >>= fun next =>
      pure (Outcome.jump post (decided target next (Value.compare? cond v w))))
      (Respects c a (.branch cond lhs rhs target) pre) (Lapses c a (.branch cond lhs rhs target) pre) := by
    rw [ends_bind]
    refine ends_next rfl fun next hNext => ⟨hPost, ?_, fun t ht => ?_⟩
    · rcases Value.compare? cond v w with _ | _ | _ <;> exact List.cons_ne_nil _ _
    · rcases List.mem_cons.mp (decided_subset _ _ _ ht) with rfl | hTarget
      · exact .inr hNext
      · exact .inl hTarget
  rw [ends_bind]
  cases rhs with
  | none => exact hDecided _ _
  | some r => exact ends_read (by simp [Instruction.reads]) (hDecided _ _)

theorem switch_ends (src : Register) (cases : List (Int32 × Address)) :
    Ends (switch pre post (c.next a) src cases) (Respects c a (.switch src cases) pre)
      (Lapses c a (.switch src cases) pre) := by
  rw [switch_eq, ends_bind]
  refine ends_next rfl fun next hNext => ?_
  rw [ends_bind]
  refine ends_read (.head _) ⟨hPost, ?_, fun t ht => ?_⟩
  · cases ((pre.peek? src).getD (.unknown .object)).int32? <;> exact List.cons_ne_nil _ _
  · rcases List.mem_cons.mp (selected_subset _ _ _ ht) with rfl | hCase
    · exact .inr hNext
    · exact .inl hCase

theorem compare_ends (kind : ThreeWay) (dst lhs rhs : Register) :
    Ends (compare pre post kind dst lhs rhs) (Respects c a (.compare kind dst lhs rhs) pre)
      (Lapses c a (.compare kind dst lhs rhs) pre) := by
  unfold compare
  rw [ends_bind]
  apply ends_read (.head _)
  rw [ends_bind]
  apply ends_read (.tail _ (.head _))
  exact ends_assign hPost rfl (by simp [Instruction.writes?]) _ _

theorem unary_ends (op : UnaryOp) (dst src : Register) :
    Ends (unary pre post op dst src) (Respects c a (.unary op dst src) pre)
      (Lapses c a (.unary op dst src) pre) := by
  unfold unary
  rw [ends_bind]
  apply ends_read (.head _)
  exact ends_assign hPost rfl (by simp [Instruction.writes?]) _ _

theorem binary_ends (op : BinaryOp) (type : NumberType) (dst lhs : Register) (rhs : Operand) :
    Ends (binary pre post op type dst lhs rhs) (Respects c a (.binary op type dst lhs rhs) pre)
      (Lapses c a (.binary op type dst lhs rhs) pre) := by
  have hAssign (v : Value) (hazard : Option Value) :
      Ends (Outcome.assign post dst v hazard) (Respects c a (.binary op type dst lhs rhs) pre)
        (Lapses c a (.binary op type dst lhs rhs) pre) :=
    ends_assign hPost rfl (by simp [Instruction.writes?]) _ _
  unfold binary
  rw [ends_bind]
  apply ends_read (by cases rhs <;> simp [Instruction.reads])
  rw [ends_bind]
  apply ends_readOperand (by rintro r rfl; simp [Instruction.reads])
  intro w
  split
  · split
    · exact respects_raise hPost _
    · exact hAssign _ _
    · exact hAssign _ _
  · exact hAssign _ _

theorem checkCast_ends (reg : Register) (type : Descriptor) :
    Ends (checkCast pre post reg type) (Respects c a (.checkCast reg type) pre)
      (Lapses c a (.checkCast reg type) pre) := by
  unfold checkCast
  rw [ends_bind]
  apply ends_read (.head _)
  split
  · exact respects_next hPost rfl
  · exact ends_assign hPost rfl (by simp [Instruction.reads]) _ _
  · exact respects_nextOr hPost rfl _

theorem instanceOf_ends (dst src : Register) (type : Descriptor) :
    Ends (instanceOf pre post dst src type) (Respects c a (.instanceOf dst src type) pre)
      (Lapses c a (.instanceOf dst src type) pre) := by
  unfold instanceOf
  rw [ends_bind]
  apply ends_read (.head _)
  split <;> exact ends_assign hPost rfl (by simp [Instruction.writes?]) _ _

theorem fieldGet_ends (dst : Register) (object : Option Register) (field : FieldReference) :
    Ends (fieldGet pre post dst object field) (Respects c a (.fieldGet dst object field) pre)
      (Lapses c a (.fieldGet dst object field) pre) := by
  unfold fieldGet
  rw [ends_bind]
  apply ends_useObject (by rintro r rfl; simp [Instruction.reads])
  intro u
  dsimp only
  split
  · exact respects_raise hPost _
  · exact ends_assign hPost rfl (by simp [Instruction.writes?]) _ _

theorem fieldPut_ends (src : Register) (object : Option Register) (field : FieldReference) :
    Ends (fieldPut pre post src object) (Respects c a (.fieldPut src object field) pre)
      (Lapses c a (.fieldPut src object field) pre) := by
  unfold fieldPut
  rw [ends_bind]
  apply ends_read (.head _)
  rw [ends_bind]
  apply ends_useObject (by rintro r rfl; simp [Instruction.reads])
  intro u
  dsimp only
  split
  · exact respects_raise hPost _
  · exact respects_nextOr hPost rfl _

theorem newArray_ends (dst size : Register) (type : Descriptor) (s : Supply) :
    Run.Ends (newArray pre post dst size type) s
      (fun o _ => Respects c a (.newArray dst size type) pre o)
      (fun e _ => Lapses c a (.newArray dst size type) pre e) := by
  have hAssign (v : Value) (hazard : Option Value) :
      Ends (Outcome.assign post dst v hazard) (Respects c a (.newArray dst size type) pre)
        (Lapses c a (.newArray dst size type) pre) :=
    ends_assign hPost rfl (by simp [Instruction.writes?]) _ _
  unfold newArray
  rw [Run.ends_bind, Run.ends_ofExcept]
  apply ends_readInt (.head _)
  intro n
  cases n with
  | none =>
      simp only [Run.ends_bind, Run.ends_onHeap, Run.ends_ofExcept]
      exact hAssign _ _
  | some n =>
      dsimp only
      split
      · exact respects_raise hPost _
      · simp only [Run.ends_bind, Run.ends_onHeap, Run.ends_ofExcept]
        exact hAssign _ _

theorem arrayLength_ends (dst array : Register) :
    Ends (arrayLength pre post dst array) (Respects c a (.arrayLength dst array) pre)
      (Lapses c a (.arrayLength dst array) pre) := by
  unfold arrayLength
  rw [ends_bind]
  apply ends_read (.head _)
  split
  · exact respects_raise hPost _
  · exact ends_assign hPost rfl (by simp [Instruction.writes?]) _ _
  · exact ends_assign hPost rfl (by simp [Instruction.writes?]) _ _

theorem arrayGet_ends (dst array index : Register) :
    Ends (arrayGet pre post dst array index) (Respects c a (.arrayGet dst array index) pre)
      (Lapses c a (.arrayGet dst array index) pre) := by
  have hAssign (v : Value) (hazard : Option Value) :
      Ends (Outcome.assign post dst v hazard) (Respects c a (.arrayGet dst array index) pre)
        (Lapses c a (.arrayGet dst array index) pre) :=
    ends_assign hPost rfl (by simp [Instruction.writes?]) _ _
  unfold arrayGet
  rw [ends_bind]
  apply ends_readInt (.tail _ (.head _))
  intro n
  rw [ends_bind]
  apply ends_read (.head _)
  split
  · exact respects_raise hPost _
  · split
    · exact respects_raise hPost _
    · rw [ends_bind]
      exact ends_position fun _ => hAssign _ _
    · exact hAssign _ _
  · exact hAssign _ _

theorem arrayPut_ends (src array index : Register) :
    Ends (arrayPut pre post src array index) (Respects c a (.arrayPut src array index) pre)
      (Lapses c a (.arrayPut src array index) pre) := by
  unfold arrayPut
  rw [ends_bind]
  apply ends_read (.head _)
  rw [ends_bind]
  apply ends_readInt (.tail _ (.tail _ (.head _)))
  intro n
  rw [ends_bind]
  apply ends_read (.tail _ (.head _))
  split
  · exact respects_raise hPost _
  · split
    · exact respects_raise hPost _
    · rw [ends_bind]
      exact ends_position fun _ => respects_next (hPost.updateInstance _ _) rfl
    · exact respects_nextOr (hPost.updateInstance _ _) rfl _
  · exact respects_nextOr hPost rfl _

theorem fillArray_ends (array : Register) (data : List Literal) (s : Supply) :
    Run.Ends (fillArray pre post array data) s
      (fun o _ => Respects c a (.fillArray array data) pre o)
      (fun e _ => Lapses c a (.fillArray array data) pre e) := by
  unfold fillArray
  rw [Run.ends_bind, Run.ends_ofExcept]
  apply ends_read (.head _)
  split
  · exact respects_raise hPost _
  · split
    · exact respects_raise hPost _
    · split
      · simp only [Run.ends_bind, Run.ends_onHeap]
        exact respects_next (hPost.updateInstance _ _) rfl
      · exact respects_nextOr hPost rfl _
  · exact respects_nextOr hPost rfl _
  · exact respects_nextOr hPost rfl _

theorem opaqueResult_ends (kind : InvokeKind) (m : MethodReference) (args : List Register) :
    Ends (opaqueResult post m args) (fun s => s.SameShape pre) (Lapses c a (.invoke kind m args) pre) := by
  unfold opaqueResult
  split
  · split
    · rename_i receiver hReceiver
      have hArg : receiver ∈ (Instruction.invoke kind m args : Instruction Address).reads :=
        List.mem_of_head? hReceiver
      exact ends_assignRegister hPost (List.mem_append_left _ hArg) _
    · exact hPost
  · split
    · exact hPost
    · exact hPost.withResult _

theorem applyEffect_ends (kind : InvokeKind) (m : MethodReference) (args : List Register)
    (e : Effect) :
    Ends (applyEffect post m args e) (Respects c a (.invoke kind m args) pre)
      (Lapses c a (.invoke kind m args) pre) := by
  unfold applyEffect
  cases e with
  | returns v =>
      dsimp only
      split
      · split
        · rename_i receiver hReceiver
          have hArg : receiver ∈ (Instruction.invoke kind m args : Instruction Address).reads :=
            List.mem_of_head? hReceiver
          exact ends_assign hPost rfl (List.mem_append_left _ hArg) _ _
        · exact respects_next hPost rfl
      · exact respects_next (hPost.withResult _) rfl
  | void => exact respects_next hPost rfl
  | unknown => exact respects_next hPost rfl
  | throws type => exact respects_raise hPost _

end

end Semantics

namespace FrameworkMethod

theorem argument_ends (args : List Value) (index : Nat) {Q : Value → Prop} (h : ∀ v, Q v) :
    Ends (argument args index) Q (· = .outOfBounds) := by
  unfold argument
  split
  · exact h _
  · exact rfl

variable {h : Heap} {Q : Effect × Heap → Prop} (hKeeps : ∀ e, Q (e, h))
  (hNew : ∀ v, Q (.returns v, h.alloc.2))

include hKeeps hNew

theorem findMethod_ends (cs : Classes) (args : List Value) :
    Ends (findMethod cs h args) Q (· = .outOfBounds) := by
  unfold findMethod
  rw [ends_bind]
  refine argument_ends args 0 fun definer => ?_
  rw [ends_bind]
  refine argument_ends args 1 fun name => ?_
  split
  · rw [ends_bind]
    refine argument_ends args 2 fun params => ?_
    split
    · exact hNew _
    · exact hKeeps _
  · exact hKeeps _

omit hNew in
theorem compareString_ends (args : List Value) :
    Ends (compareString h args) Q (· = .outOfBounds) := by
  unfold compareString
  rw [ends_bind]
  refine argument_ends args 0 fun receiver => ?_
  split
  · rw [ends_bind]
    refine argument_ends args 1 fun other => ?_
    split <;> exact hKeeps _
  · exact hKeeps _

/-- A call returns a new instance, or leaves the heap alone. Something is missing only if an argument
is. -/
theorem call_ends (f : FrameworkMethod) (cs : Classes) (args : List Value) :
    Ends (f.call cs h args) Q (· = .outOfBounds) := by
  have hFind (name : Value) : Ends (findClass cs h name) Q (· = .outOfBounds) := by
    unfold findClass
    split <;> exact hKeeps _
  have hRead (v : Value) : Ends (readInteger h v) Q (· = .outOfBounds) := by
    unfold readInteger
    split
    · exact hKeeps _
    · split <;> exact hKeeps _
    · exact hKeeps _
  cases f with
  | classForName => exact ends_bind.mpr (argument_ends args 0 hFind)
  | classMethod => exact findMethod_ends hKeeps hNew cs args
  | classDeclaredMethod => exact findMethod_ends hKeeps hNew cs args
  | stringEquals => exact compareString_ends hKeeps args
  | stringToString => exact ends_bind.mpr (argument_ends args 0 fun v => hKeeps _)
  | integerOfString => exact ends_bind.mpr (argument_ends args 0 hRead)
  | stringLength | integerToInt =>
      refine ends_bind.mpr (argument_ends args 0 fun v => ?_)
      split <;> exact hKeeps _
  | className | stringOfInt | integerOfInt =>
      refine ends_bind.mpr (argument_ends args 0 fun v => ?_)
      split
      · exact hNew _
      · exact hKeeps _
  | stringOfBytes | stringOfChars =>
      refine ends_bind.mpr (argument_ends args 1 fun v => ?_)
      split
      · exact hNew _
      · exact hKeeps _
  | stringOfString =>
      refine ends_bind.mpr (argument_ends args 1 fun v => ?_)
      split
      · exact hKeeps _
      · exact hNew _
      · exact hKeeps _

end FrameworkMethod

namespace Semantics.Context

variable {c : Context} {a : Address} {i : Instruction Address} {pre post : State}

/-- Calls of local methods fail only beyond the end of a list. -/
def CallsLapse (c : Context) : Prop :=
  ∀ callee values s, Run.Ends (c.call callee values) s (fun _ _ => True) fun e _ => e = .outOfBounds

theorem invokeFramework_ends (hPost : post.SameShape pre) (f : FrameworkMethod) (kind : InvokeKind)
    (m : MethodReference) (args : List Register) (values : List Value) (s : Supply) :
    Run.Ends (c.invokeFramework f m args values post) s
      (fun o _ => Respects c a (.invoke kind m args) pre o)
      (fun e _ => Lapses c a (.invoke kind m args) pre e) := by
  unfold invokeFramework
  rw [Run.ends_bind, Run.ends_onHeap?]
  refine (f.call_ends (fun _ => trivial) (fun _ => trivial) c.classes values).imp
    (fun p (_ : True) => ?_) fun e he => he ▸ .outOfBounds
  split
  · simp only [Run.ends_bind, Run.ends_ofExcept]
    exact (opaqueResult_ends hPost kind m args).imp (fun t ht => respects_nextOr ht rfl _)
      fun e he => he
  · rw [Run.ends_ofExcept]
    exact applyEffect_ends hPost kind m args _

theorem conclude_ends (hPost : post.SameShape pre) (kind : InvokeKind) (m : MethodReference)
    (args : List Register) (effect : Option Effect) (s : Supply) :
    Run.Ends (conclude post m args effect) s
      (fun o _ => Respects c a (.invoke kind m args) pre o)
      (fun e _ => Lapses c a (.invoke kind m args) pre e) := by
  have hOpaque {Q : State → Supply → Prop} (h : ∀ t, t.SameShape pre → Q t s) :
      Run.Ends (Run.ofExcept (opaqueResult post m args)) s Q
        (fun e _ => Lapses c a (.invoke kind m args) pre e) := by
    rw [Run.ends_ofExcept]
    exact (opaqueResult_ends hPost kind m args).imp h fun e he => he
  unfold conclude
  cases effect with
  | none =>
      simp only [Run.ends_bind]
      exact hOpaque fun t ht => respects_nextOr ht rfl _
  | some e =>
      dsimp only
      split
      · simp only [Run.ends_bind]
        exact hOpaque fun t ht => respects_next ht rfl
      · rw [Run.ends_ofExcept]
        exact applyEffect_ends hPost kind m args e

theorem invokeOther_ends (hCalls : c.CallsLapse) (hPost : post.SameShape pre) (kind : InvokeKind)
    (m : MethodReference) (args : List Register) (values : List Value) (s : Supply) :
    Run.Ends (c.invokeOther kind m args values post) s
      (fun o _ => Respects c a (.invoke kind m args) pre o)
      (fun e _ => Lapses c a (.invoke kind m args) pre e) := by
  have hClobbered := hPost.foldl_clobber values
  rw [invokeOther_eq, Run.ends_bind]
  cases c.callee? kind m with
  | none => exact conclude_ends hClobbered kind m args none s
  | some callee =>
      exact (hCalls callee values s).imp (fun effect t _ => conclude_ends hClobbered kind m args effect t)
        fun e _ he => he ▸ .outOfBounds

theorem ends_mapM_read {args : List Register} (hArgs : ∀ r ∈ args, r ∈ i.reads)
    {Q : List Value → Prop} (h : ∀ vs, Q vs) :
    Dalvik.Ends (args.mapM pre.read) Q (Lapses c a i pre) := by
  induction args generalizing Q with
  | nil => exact h []
  | cons r args ih =>
      rw [List.mapM_cons, Dalvik.ends_bind]
      apply ends_read (hArgs r (.head _))
      rw [Dalvik.ends_bind]
      exact ih (fun r hr => hArgs r (.tail _ hr)) fun vs => h _

theorem invoke_ends (hCalls : c.CallsLapse) (hPost : post.SameShape pre) (kind : InvokeKind)
    (m : MethodReference) (args : List Register) (s : Supply) :
    Run.Ends (c.invoke kind m args pre post) s
      (fun o _ => Respects c a (.invoke kind m args) pre o)
      (fun e _ => Lapses c a (.invoke kind m args) pre e) := by
  have hArgs : ∀ r ∈ args, r ∈ (Instruction.invoke kind m args : Instruction Address).reads :=
    fun r hr => hr
  unfold invoke
  rw [Run.ends_bind, Run.ends_ofExcept]
  refine ends_mapM_read hArgs fun values => ?_
  split
  · exact respects_raise hPost _
  · unfold invokePresent
    split
    · exact invokeFramework_ends hPost _ kind m args values s
    · exact invokeOther_ends hCalls hPost kind m args values s

/-- What an instruction does, and how it may fail. -/
theorem execute_ends (hCalls : c.CallsLapse) (hPost : post.SameShape pre) (i : Instruction Address)
    (s : Supply) :
    Run.Ends (c.execute a i pre post) s (fun o _ => Respects c a i pre o)
      (fun e _ => Lapses c a i pre e) := by
  cases i with
  | nop => exact respects_next hPost rfl
  | const dst l =>
      simp only [execute, Run.ends_bind, Run.ends_onHeap, Run.ends_ofExcept]
      exact ends_assign hPost rfl (.head _) _ _
  | move dst src =>
      simp only [execute, Run.ends_ofExcept, Dalvik.ends_bind]
      exact ends_read (.head _) (ends_assign hPost rfl (by simp [Instruction.writes?]) _ _)
  | moveResult dst => exact Run.ends_ofExcept.mpr (ends_assign hPost rfl (.head _) _ _)
  | moveException dst => exact Run.ends_ofExcept.mpr (ends_assign hPost rfl (.head _) _ _)
  | returnVoid => exact ⟨hPost, .inl rfl⟩
  | returnValue src => exact Run.ends_ofExcept.mpr (returnValue_ends hPost src)
  | throw src => exact Run.ends_ofExcept.mpr (throwValue_ends hPost src)
  | goto t => exact ⟨hPost, List.cons_ne_nil _ _, fun u hu => .inl hu⟩
  | branch cond lhs rhs t => exact Run.ends_ofExcept.mpr (branch_ends hPost cond lhs rhs t)
  | switch src cases => exact Run.ends_ofExcept.mpr (switch_ends hPost src cases)
  | compare k dst lhs rhs => exact Run.ends_ofExcept.mpr (compare_ends hPost k dst lhs rhs)
  | unary op dst src => exact Run.ends_ofExcept.mpr (unary_ends hPost op dst src)
  | binary op type dst lhs rhs =>
      exact Run.ends_ofExcept.mpr (binary_ends hPost op type dst lhs rhs)
  | newInstance dst d => exact Run.ends_ofExcept.mpr (ends_assign hPost rfl (.head _) _ _)
  | checkCast r d => exact Run.ends_ofExcept.mpr (checkCast_ends hPost r d)
  | instanceOf dst src d => exact Run.ends_ofExcept.mpr (instanceOf_ends hPost dst src d)
  | newArray dst size d => exact newArray_ends hPost dst size d s
  | arrayLength dst array => exact Run.ends_ofExcept.mpr (arrayLength_ends hPost dst array)
  | arrayGet dst array index => exact Run.ends_ofExcept.mpr (arrayGet_ends hPost dst array index)
  | arrayPut src array index => exact Run.ends_ofExcept.mpr (arrayPut_ends hPost src array index)
  | fillArray array data => exact fillArray_ends hPost array data s
  | fieldGet dst o fld => exact Run.ends_ofExcept.mpr (fieldGet_ends hPost dst o fld)
  | fieldPut src o fld => exact Run.ends_ofExcept.mpr (fieldPut_ends hPost src o fld)
  | invoke kind m args => exact invoke_ends hCalls hPost kind m args s

theorem mem_addSuccessor {successors : List (Address × State)} {b : Address} {t : State}
    {p : Address × State} (h : p ∈ addSuccessor successors b t) : p ∈ successors ∨ p = (b, t) := by
  unfold addSuccessor at h
  split at h
  · exact .inl h
  · simpa using h

/-- Handlers are entered in the state before the exception, with nothing else than the exception
changed. -/
theorem mem_route {exception : Value} {successors : List (Address × State)} {hs : List Handler}
    {p : Address × State} (h : p ∈ route pre exception successors hs) :
    p ∈ successors ∨ ∃ k ∈ hs, ∃ v, p = (k.target, { pre with result := none, exception := some v }) := by
  induction hs generalizing successors with
  | nil => exact .inl h
  | cons k hs ih =>
      have hEnter {certain : Bool} {successors : List (Address × State)}
          (h : p ∈ addSuccessor successors k.target
            { pre with result := none, exception := some (caught k exception certain) }) :
          p ∈ successors ∨ ∃ k' ∈ k :: hs, ∃ v,
            p = (k'.target, { pre with result := none, exception := some v }) :=
        (mem_addSuccessor h).imp_right fun hNew => ⟨k, .head _, _, hNew⟩
      have hLater (h : ∃ k ∈ hs, ∃ v,
            p = (k.target, { pre with result := none, exception := some v })) :
          ∃ k' ∈ k :: hs, ∃ v, p = (k'.target, { pre with result := none, exception := some v }) := by
        obtain ⟨k', hk', hSuccessor⟩ := h
        exact ⟨k', .tail _ hk', hSuccessor⟩
      unfold route at h
      split at h
      · exact (ih h).imp_right hLater
      · exact hEnter h
      · rcases ih h with hHere | hRest
        · exact hEnter hHere
        · exact .inr (hLater hRest)

theorem mem_jump {targets : List Address} {t : State} {p : Address × State}
    (hMem : p ∈ targets.foldl (fun successors b => addSuccessor successors b t) []) :
    p.1 ∈ targets ∧ p.2 = t := by
  have hFold (successors : List (Address × State))
      (h : p ∈ targets.foldl (fun successors b => addSuccessor successors b t) successors) :
      p ∈ successors ∨ p.1 ∈ targets ∧ p.2 = t := by
    clear hMem
    induction targets generalizing successors with
    | nil => exact .inl h
    | cons b targets ih =>
        rcases ih _ h with hHere | ⟨hMem, hState⟩
        · rcases mem_addSuccessor hHere with hOld | rfl
          · exact .inl hOld
          · exact .inr ⟨.head _, rfl⟩
        · exact .inr ⟨.tail _ hMem, hState⟩
  exact (hFold [] hMem).resolve_left (by simp)

theorem handlersAt_subset {m : Method} {k : Handler} (h : k ∈ m.handlersAt a) : k ∈ m.handlers := by
  obtain ⟨b, hb, hk⟩ := List.mem_flatMap.mp h
  exact List.mem_flatMap.mpr ⟨b, List.mem_of_mem_filter hb, hk⟩

/-- How a step fails: there is no instruction, or the one that there is lapses. -/
def Fails (c : Context) (a : Address) (pre : State) (e : Error) : Prop :=
  c.method.code.at? a = none ∧ e = .address a ∨
    ∃ i, c.method.code.at? a = some i ∧ Lapses c a i pre e

theorem sameShape_pass (result exception : Option Value) :
    ({ pre with result, exception } : State).SameShape pre := ⟨rfl, rfl⟩

/-- Where control arrives in a valid method, there is an instruction, and the state has the registers
that it had before. -/
theorem apply_ends (hCalls : c.CallsLapse) (hValid : c.method.validate = .ok ()) (a : Address)
    (pre : State) (s : Supply) :
    Run.Ends (c.apply a pre) s
      (fun step _ => step.post.SameShape pre ∧
        ∀ p ∈ step.successors, c.method.code.HasAddress p.1 ∧ p.2.SameShape pre)
      (fun e _ => c.Fails a pre e) := by
  obtain ⟨hCode, hHandlers⟩ := Method.validate_eq_ok_iff.mp hValid
  unfold apply
  cases hi : c.method.code.at? a with
  | none => exact .inl ⟨hi, rfl⟩
  | some i =>
      have hTargets : ∀ t ∈ i.targets, c.method.code.HasAddress t :=
        (hCode i (Code.mem_of_at? hi)).targets
      have hHandled {exception : Value} {successors : List (Address × State)}
          (h : ∀ p ∈ successors, c.method.code.HasAddress p.1 ∧ p.2.SameShape pre) :
          ∀ p ∈ route pre exception successors (c.method.handlersAt a),
            c.method.code.HasAddress p.1 ∧ p.2.SameShape pre := fun p hp => by
        rcases mem_route hp with hOld | ⟨k, hk, v, rfl⟩
        · exact h p hOld
        · exact ⟨hHandlers k (handlersAt_subset hk), sameShape_pass _ _⟩
      have hNext {next : Address} (h : c.next a = .ok next) : c.method.code.HasAddress next := by
        obtain ⟨n, _, hn, rfl⟩ := Code.next?_eq_some_iff.mp (next_eq_ok_iff.mp h)
        exact Code.hasAddress_addressAt hn
      dsimp only
      rw [Run.ends_bind]
      refine (execute_ends hCalls (sameShape_pass none none) i s).imp (fun o t ho => ?_)
        fun e _ he => .inr ⟨i, hi, he⟩
      have hFlow : Dalvik.Ends (c.flowSuccessors a pre o.post o.flow)
          (fun successors => ∀ p ∈ successors, c.method.code.HasAddress p.1 ∧ p.2.SameShape pre)
          (Lapses c a i pre) := by
        cases hKind : o.flow with
        | next =>
            have hFalls : i.fallsThrough = true := by simpa [Follows, hKind] using ho.flow
            unfold flowSuccessors
            rw [Dalvik.ends_map]
            refine ends_next hFalls fun next h p hp => ?_
            obtain rfl : p = (next, o.post) := by simpa using hp
            exact ⟨hNext h, ho.post⟩
        | jump targets =>
            have hJumps : targets ≠ [] ∧ ∀ u ∈ targets, u ∈ i.targets ∨ c.next a = .ok u := by
              simpa [Follows, hKind] using ho.flow
            intro p hp
            obtain ⟨hMem, hState⟩ := mem_jump hp
            refine ⟨?_, hState ▸ ho.post⟩
            rcases hJumps.2 _ hMem with hTarget | hFalls
            · exact hTargets _ hTarget
            · exact hNext hFalls
        | stop =>
            intro p hp
            simp at hp
        | raise exception => exact hHandled (by simp)
      rw [Run.ends_bind, Run.ends_ofExcept]
      refine hFlow.imp (fun successors hs => ?_) fun e he => .inr ⟨i, hi, he⟩
      refine ⟨ho.post, ?_⟩
      dsimp only
      split
      · exact hHandled hs
      · exact hs

end Semantics.Context

end Dalvik
