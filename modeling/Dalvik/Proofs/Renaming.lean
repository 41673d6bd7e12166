import Dalvik.Exploration
import Dalvik.Proofs.Routing
import Mathlib.Logic.Function.Basic

/-!
Values and states with their instances renamed. What is computed from values does not depend on what
their instances are called, as long as different ones are called differently, so that renaming first or
last makes no difference.
-/

namespace Dalvik

open Function (Injective comp_def)

namespace Value

mutual

/-- The value with its instances renamed, at every depth. -/
def rename (f : Nat → Nat) : Value → Value
  | string id v => string (f id) v
  | boxed id d v => boxed (f id) d (rename f v)
  | method id d m => method (f id) d m
  | object id d => object (f id) d
  | array id d n es => array (f id) d n (renameElements f es)
  | v => v

/-- The tracked elements of an array with their instances renamed. -/
def renameElements (f : Nat → Nat) : Option (List Value) → Option (List Value)
  | none => none
  | some vs => some (renameAll f vs)

/-- The values of a list with their instances renamed. -/
def renameAll (f : Nat → Nat) : List Value → List Value
  | [] => []
  | v :: vs => rename f v :: renameAll f vs

end

variable {f : Nat → Nat} {v w : Value}

theorem renameAll_eq (f : Nat → Nat) (vs : List Value) : renameAll f vs = vs.map (rename f) := by
  induction vs with
  | nil => rfl
  | cons v vs ih => rw [renameAll, ih, List.map_cons]

@[simp] theorem rename_array (f : Nat → Nat) (id : Nat) (d : Descriptor) (n : Option Nat)
    (es : Option (List Value)) :
    (array id d n es).rename f = array (f id) d n (es.map (List.map (rename f))) := by
  cases es with
  | none => rfl
  | some vs => rw [rename, renameElements, renameAll_eq, Option.map_some]

@[simp] theorem rename_boxed (f : Nat → Nat) (id : Nat) (d : Descriptor) (v : Value) :
    (boxed id d v).rename f = boxed (f id) d (v.rename f) := rfl

@[simp] theorem rename_string (f : Nat → Nat) (id : Nat) (t : String) :
    (string id t).rename f = string (f id) t := rfl

@[simp] theorem rename_method (f : Nat → Nat) (id : Nat) (d : Descriptor) (m : MethodReference) :
    (method id d m).rename f = method (f id) d m := rfl

@[simp] theorem rename_object (f : Nat → Nat) (id : Nat) (d : Descriptor) :
    (object id d).rename f = object (f id) d := rfl

/-- A value without an identity has nothing to rename. -/
theorem rename_of_id? (h : v.id? = none) : v.rename f = v := by
  cases v <;> first | rfl | cases h

@[simp] theorem rename_int (n : Int32) : (int n).rename f = int n := rfl

@[simp] theorem id?_rename (v : Value) : (v.rename f).id? = v.id?.map f := by
  cases v <;> rfl

@[simp] theorem descriptor_rename (v : Value) : (v.rename f).descriptor = v.descriptor := by
  cases v <;> rfl

@[simp] theorem isKnown_rename (v : Value) : (v.rename f).isKnown = v.isKnown := by
  cases v <;> rfl

@[simp] theorem isMutable_rename (v : Value) : (v.rename f).isMutable = v.isMutable := by
  cases v <;> rfl

@[simp] theorem int32?_rename (v : Value) : (v.rename f).int32? = v.int32? := by
  cases v <;> rfl

@[simp] theorem int64?_rename (v : Value) : (v.rename f).int64? = v.int64? := by
  cases v <;> rfl

@[simp] theorem single?_rename (v : Value) : (v.rename f).single? = v.single? := by
  cases v <;> rfl

@[simp] theorem double?_rename (v : Value) : (v.rename f).double? = v.double? := by
  cases v <;> rfl

@[simp] theorem isBoolean_rename (v : Value) : (v.rename f).isBoolean = v.isBoolean := by
  cases v <;> rfl

@[simp] theorem text?_rename (v : Value) : (v.rename f).text? = v.text? := by
  cases v <;> rfl

@[simp] theorem unboxed?_rename (v : Value) :
    (v.rename f).unboxed? = v.unboxed?.map (rename f) := by
  cases v <;> rfl

@[simp] theorem elements?_rename (v : Value) :
    (v.rename f).elements? = v.elements?.map (List.map (rename f)) := by
  cases v with
  | array id d n es => rw [rename_array]; rfl
  | _ => rfl

@[simp] theorem byte?_rename (v : Value) : (v.rename f).byte? = v.byte? := by
  cases v <;> rfl

@[simp] theorem char?_rename (v : Value) : (v.rename f).char? = v.char? := by
  cases v <;> rfl

/-- Reading the parts of a list that have nothing to rename. -/
theorem mapM_rename {β : Type} {g : Value → Option β} (hg : ∀ v, g (v.rename f) = g v)
    (vs : List Value) : (vs.map (rename f)).mapM g = vs.mapM g := by
  induction vs with
  | nil => rfl
  | cons v vs ih => rw [List.map_cons, List.mapM_cons, List.mapM_cons, hg, ih]

@[simp] theorem bytes?_rename (v : Value) : (v.rename f).bytes? = v.bytes? := by
  unfold bytes?
  rw [elements?_rename]
  cases v.elements? with
  | none => rfl
  | some vs => exact mapM_rename byte?_rename vs

@[simp] theorem chars?_rename (v : Value) : (v.rename f).chars? = v.chars? := by
  unfold chars?
  rw [elements?_rename]
  cases v.elements? with
  | none => rfl
  | some vs => exact mapM_rename char?_rename vs

@[simp] theorem rename_zero (d : Descriptor) : (zero d).rename f = zero d := by
  unfold zero
  repeat' split
  all_goals rfl

theorem id?_ofInt32? {d : Descriptor} {n : Int32} (h : ofInt32? d n = some v) : v.id? = none := by
  unfold ofInt32? at h
  repeat' split at h
  all_goals cases h
  all_goals rfl

@[simp] theorem coerce_rename (v : Value) (d : Descriptor) :
    (v.rename f).coerce d = (v.coerce d).rename f := by
  have hInstance (w : Value) (hId : (w.id?).isSome = true) : w.coerce d = w := by
    cases w <;> first | (cases hId; done) | rfl | simp [coerce, int32?]
  cases hId : v.id? with
  | some id =>
      rw [hInstance v (by rw [hId]; rfl), hInstance _ (by rw [id?_rename, hId]; rfl)]
  | none =>
      have hResult : (v.coerce d).id? = none := by
        cases v <;> first
          | (cases hId; done)
          | (simp only [coerce]
             repeat' split
             all_goals first
               | rfl
               | (rename_i hNarrow
                  obtain ⟨n, _, hNarrow⟩ := Option.bind_eq_some_iff.mp hNarrow
                  exact id?_ofInt32? hNarrow))
      rw [rename_of_id? hId, rename_of_id? hResult]

@[simp] theorem number?_rename (v : Value) : (v.rename f).number? = v.number? := by
  cases v <;> rfl

@[simp] theorem isZero?_rename (v : Value) : (v.rename f).isZero? = v.isZero? := by
  simp [isZero?]

/-- What reads a value as a number has nothing to rename in its result. -/
@[simp] theorem unary?_rename (op : UnaryOp) (v : Value) : unary? op (v.rename f) = unary? op v := by
  cases op <;> simp [unary?]

/-- A number that has been computed has no instances. -/
@[simp] theorem map_rename_unary? (f : Nat → Nat) (op : UnaryOp) (v : Value) :
    (unary? op v).map (rename f) = unary? op v := by
  cases op <;> simp [unary?, comp_def, rename]

@[simp] theorem binary?_rename (op : BinaryOp) (type : NumberType) (v w : Value) :
    binary? op type (v.rename f) (w.rename f) = binary? op type v w := by
  cases type <;> simp [binary?]

@[simp] theorem map_rename_binary? (f : Nat → Nat) (op : BinaryOp) (type : NumberType) (v w : Value) :
    (binary? op type v w).map (rename f) = binary? op type v w := by
  cases type with
  | long =>
      simp only [binary?, Option.bind_eq_bind]
      split <;> simp [Option.map_bind, comp_def, rename]
  | _ => simp [binary?, Option.map_bind, comp_def, rename]

@[simp] theorem threeWay?_rename (bias : Int32) (v w : Value) :
    threeWay? bias (v.rename f) (w.rename f) = threeWay? bias v w := by
  simp [threeWay?]

@[simp] theorem sameAsNumber?_rename (t : Target) (v : Value) :
    sameAsNumber? t (v.rename f) = sameAsNumber? t v := by
  simp [sameAsNumber?]

@[simp] theorem compareNumbers?_rename (c : Comparison) (v w : Value) :
    compareNumbers? c (v.rename f) (w.rename f) = compareNumbers? c v w := by
  simp [compareNumbers?]

end Value

/-- What a reference points to with its instance renamed. -/
def Target.rename (f : Nat → Nat) : Target → Target
  | .identity id => .identity (f id)
  | t => t

namespace Value

variable {f : Nat → Nat}

theorem target?_rename (v : Value) : (v.rename f).target? = v.target?.map (Target.rename f) := by
  cases v <;> rfl

theorem same?_rename (hf : Injective f) (s t : Target) :
    (s.rename f).same? (t.rename f) = s.same? t := by
  cases s <;> cases t <;> simp [Target.rename, Target.same?, hf.eq_iff]

theorem sameAsNumber?_target (t : Target) (v : Value) :
    sameAsNumber? (t.rename f) v = sameAsNumber? t v := by
  cases t <;> simp [Target.rename, sameAsNumber?]

/-- Different instances stay different. -/
theorem compare?_rename (hf : Injective f) (c : Comparison) (v w : Value) :
    compare? c (v.rename f) (w.rename f) = compare? c v w := by
  unfold compare?
  rw [isKnown_rename, isKnown_rename, target?_rename, target?_rename]
  cases v.target? <;> cases w.target? <;>
    simp [same?_rename hf, sameAsNumber?_target]

theorem rename_rename (f g : Nat → Nat) (v : Value) :
    (v.rename f).rename g = v.rename (g ∘ f) := by
  induction v using nested with
  | hBoxed id d v ih => simp [ih]
  | hArray id d n vs ih => simpa using ih
  | hOther v hBoxed hArray =>
      cases v with
      | boxed id d u => exact absurd rfl (hBoxed id d u)
      | array id d n es =>
          cases es with
          | some vs => exact absurd rfl (hArray id d n vs)
          | none => simp
      | _ => rfl

/-- A value whose instances keep their names is what it was. -/
theorem rename_of_fixed (v : Value) : (∀ i ∈ v.ids, f i = i) → v.rename f = v := by
  induction v using nested with
  | hBoxed id d v ih =>
      intro hFixed
      rw [rename_boxed, hFixed id (.head _), ih fun i hi => hFixed i (.tail _ hi)]
  | hArray id d n vs ih =>
      intro hFixed
      have hAll : ∀ v ∈ vs, v.rename f = v := fun v hv =>
        ih v hv fun i hi => hFixed i (.tail _ (mem_allIds.mpr ⟨v, hv, hi⟩))
      rw [rename_array, hFixed id (.head _), Option.map_some, List.map_congr_left hAll, List.map_id']
  | hOther v hBoxed hArray =>
      intro hFixed
      cases v with
      | boxed id d u => exact absurd rfl (hBoxed id d u)
      | array id d n es =>
          cases es with
          | some vs => exact absurd rfl (hArray id d n vs)
          | none => rw [rename_array, hFixed id (.head _), Option.map_none]
      | string id t => rw [rename_string, hFixed id (.head _)]
      | method id d m => rw [rename_method, hFixed id (.head _)]
      | object id d => rw [rename_object, hFixed id (.head _)]
      | _ => rfl

theorem rename_id (v : Value) : v.rename id = v := rename_of_fixed v fun _ _ => rfl

theorem rename_injective (hf : Injective f) : Injective (rename f) := by
  obtain ⟨g, hg⟩ := hf.hasLeftInverse
  refine Function.LeftInverse.injective (g := rename g) fun v => ?_
  rw [rename_rename, hg.comp_eq_id, rename_id]

end Value

namespace State

/-- The state with its instances renamed. -/
def rename (f : Nat → Nat) (s : State) : State where
  locals := s.locals.map (Option.map (Value.rename f))
  params := s.params.map (Option.map (Value.rename f))
  result := s.result.map (Value.rename f)
  exception := s.exception.map (Value.rename f)

variable {f : Nat → Nat}

theorem registers_rename (s : State) :
    (s.rename f).registers = s.registers.map (Option.map (Value.rename f)) := by
  simp [registers, rename]

@[simp] theorem registerCount_rename (s : State) : (s.rename f).registerCount = s.registerCount := by
  simp [registerCount, rename]

theorem read_rename (s : State) (r : Register) :
    (s.rename f).read r = (s.read r).map (Value.rename f) := by
  unfold read
  rw [registers_rename, registerCount_rename, List.getElem?_map]
  cases s.registers[r]? with
  | none => rfl
  | some v => cases v <;> rfl

theorem peek?_rename (s : State) (r : Register) :
    (s.rename f).peek? r = (s.peek? r).map (Value.rename f) := by
  unfold peek?
  rw [registers_rename, List.getElem?_map]
  cases s.registers[r]? <;> rfl

theorem assign_rename (s : State) (r : Register) (v : Value) :
    (s.rename f).assign r (v.rename f) = (s.assign r v).map (rename f) := by
  unfold assign
  rw [registerCount_rename]
  have hLocals : (s.rename f).locals.length = s.locals.length := List.length_map _
  rw [hLocals]
  split
  · simp [rename, Except.map, List.map_set]
  · split
    · simp [rename, Except.map, List.map_set]
    · rfl

theorem replaceInstance_rename (hf : Injective f) (id : Nat) (new old : Value) :
    replaceInstance (f id) (new.rename f) (old.rename f) = (replaceInstance id new old).rename f := by
  unfold replaceInstance
  rw [Value.id?_rename]
  by_cases h : old.id? = some id
  · simp [h]
  · have hOther : old.id?.map f ≠ some (f id) := by
      intro hSame
      obtain ⟨i, hi, hSame⟩ := Option.map_eq_some_iff.mp hSame
      exact h (hf hSame ▸ hi)
    rw [if_neg h, if_neg hOther]

theorem updateInstance_rename (hf : Injective f) (s : State) (id : Nat) (v : Value) :
    (s.rename f).updateInstance (f id) (v.rename f) = (s.updateInstance id v).rename f := by
  simp [updateInstance, rename, comp_def, Option.map_map, replaceInstance_rename hf]

end State

/-- Where control goes, with instances renamed. -/
def Flow.rename (f : Nat → Nat) : Flow → Flow
  | .raise v => .raise (v.rename f)
  | flow => flow

/-- What an instruction does, with instances renamed. -/
def Outcome.rename (f : Nat → Nat) (o : Outcome) : Outcome :=
  ⟨o.flow.rename f, o.post.rename f, o.hazard.map (Value.rename f)⟩

/-- A step with instances renamed. -/
def Step.rename (f : Nat → Nat) (s : Step) : Step :=
  ⟨s.post.rename f, s.successors.map fun p => (p.1, p.2.rename f)⟩

/-- What is known about a call, with instances renamed. -/
def Effect.rename (f : Nat → Nat) : Effect → Effect
  | .returns v => .returns (v.rename f)
  | e => e

/-- A slot of an array with instances renamed. -/
def Semantics.Slot.rename (f : Nat → Nat) : Semantics.Slot → Semantics.Slot
  | .tracked i es => .tracked i (es.map (Value.rename f))
  | s => s

/-- Parts of a computation that are renamed one after another. -/
theorem except_map_bind {ε α α' β β' : Type} {x : Except ε α} {g : α → α'} {k : α' → Except ε β'}
    {k' : α → Except ε β} {h : β → β'} (hk : ∀ v, k (g v) = (k' v).map h) :
    x.map g >>= k = (x >>= k').map h := by
  cases x with
  | error e => rfl
  | ok v => exact hk v

namespace Semantics

variable {f : Nat → Nat} {pre post : State} {hazard : Option Value}

theorem assign_rename (hHazard : hazard.map (Value.rename f) = hazard) (dst : Register) (v : Value) :
    Outcome.assign (post.rename f) dst (v.rename f) hazard =
      (Outcome.assign post dst v hazard).map (Outcome.rename f) := by
  unfold Outcome.assign
  rw [State.assign_rename]
  cases post.assign dst v with
  | error e => rfl
  | ok s => simp [Except.map, Outcome.rename, Flow.rename, hHazard]

/-- What is assigned has nothing to rename. -/
theorem assign_rename_self {v : Value} (hv : v.rename f = v)
    (hHazard : hazard.map (Value.rename f) = hazard) (dst : Register) :
    Outcome.assign (post.rename f) dst v hazard =
      (Outcome.assign post dst v hazard).map (Outcome.rename f) := by
  have hAssign : Outcome.assign (post.rename f) dst (v.rename f) hazard = _ := assign_rename hHazard dst v
  rwa [hv] at hAssign

theorem returnValue_rename (src : Register) :
    returnValue (pre.rename f) (post.rename f) src =
      (returnValue pre post src).map (Outcome.rename f) := by
  unfold returnValue
  rw [State.read_rename]
  exact except_map_bind fun _ => rfl

theorem throwValue_rename (src : Register) :
    throwValue (pre.rename f) (post.rename f) src =
      (throwValue pre post src).map (Outcome.rename f) := by
  unfold throwValue
  rw [State.read_rename]
  refine except_map_bind fun v => ?_
  cases v <;> rfl

theorem branch_rename (hf : Injective f) (next : Except Error Address) (cmp : Comparison)
    (lhs : Register) (rhs : Option Register) (t : Address) :
    branch (pre.rename f) (post.rename f) next cmp lhs rhs t =
      (branch pre post next cmp lhs rhs t).map (Outcome.rename f) := by
  have hOperand : rhs.elim (pure (.int 0)) (pre.rename f).read =
      (rhs.elim (pure (.int 0)) pre.read).map (Value.rename f) := by
    cases rhs with
    | none => rfl
    | some r => exact State.read_rename ..
  rw [branch_eq, branch_eq, State.read_rename, hOperand]
  refine except_map_bind fun v => except_map_bind fun w => ?_
  rw [Value.compare?_rename hf]
  cases next <;> rfl

theorem switch_rename (next : Except Error Address) (src : Register) (cases : List (Int32 × Address)) :
    switch (pre.rename f) (post.rename f) next src cases =
      (switch pre post next src cases).map (Outcome.rename f) := by
  rw [switch_eq, switch_eq, State.read_rename]
  cases next with
  | error e => rfl
  | ok n =>
      refine except_map_bind fun v => ?_
      rw [Value.int32?_rename]
      rfl

theorem compare_rename (kind : ThreeWay) (dst lhs rhs : Register) :
    compare (pre.rename f) (post.rename f) kind dst lhs rhs =
      (compare pre post kind dst lhs rhs).map (Outcome.rename f) := by
  unfold compare
  rw [State.read_rename, State.read_rename]
  refine except_map_bind fun v => except_map_bind fun w => ?_
  dsimp only
  rw [Value.coerce_rename, Value.coerce_rename, Value.threeWay?_rename]
  refine assign_rename_self ?_ rfl dst
  cases Value.threeWay? kind.bias (v.coerce kind.operand) (w.coerce kind.operand) <;> rfl

/-- What has been computed, or else what is not known of a type, has nothing to rename. -/
theorem rename_getD {x : Option Value} (hx : x.map (Value.rename f) = x) (d : Descriptor) :
    (x.getD (.unknown d)).rename f = x.getD (.unknown d) := by
  cases x with
  | none => rfl
  | some v => exact Option.some.inj hx

theorem unary_rename (op : UnaryOp) (dst src : Register) :
    unary (pre.rename f) (post.rename f) op dst src =
      (unary pre post op dst src).map (Outcome.rename f) := by
  unfold unary
  rw [State.read_rename]
  refine except_map_bind fun v => ?_
  rw [Value.coerce_rename, Value.unary?_rename]
  exact assign_rename_self (rename_getD (Value.map_rename_unary? f op _) _) rfl dst

theorem readOperand_rename (op : BinaryOp) (type : NumberType) (o : Operand) :
    readOperand (pre.rename f) op type o = (readOperand pre op type o).map (Value.rename f) := by
  cases o with
  | literal v => rfl
  | register r =>
      unfold readOperand
      dsimp only
      rw [State.read_rename]
      cases pre.read r with
      | error e => rfl
      | ok v => simp [Except.map]

theorem binary_rename (op : BinaryOp) (type : NumberType) (dst lhs : Register) (rhs : Operand) :
    binary (pre.rename f) (post.rename f) op type dst lhs rhs =
      (binary pre post op type dst lhs rhs).map (Outcome.rename f) := by
  unfold binary
  rw [State.read_rename, readOperand_rename]
  refine except_map_bind fun v => except_map_bind fun w => ?_
  dsimp only
  rw [Value.coerce_rename, Value.binary?_rename, Value.isZero?_rename]
  have hNumber := rename_getD (Value.map_rename_binary? f op type (v.coerce type.descriptor) w)
    type.descriptor
  split
  · rcases w.isZero? with _ | _ | _
    · exact assign_rename_self hNumber rfl dst
    · exact assign_rename_self hNumber rfl dst
    · rfl
  · exact assign_rename_self hNumber rfl dst

theorem certainlyIs_rename (v : Value) (type : Descriptor) :
    certainlyIs (v.rename f) type = certainlyIs v type := by
  simp [certainlyIs]

theorem checkCast_rename (reg : Register) (type : Descriptor) :
    checkCast (pre.rename f) (post.rename f) reg type =
      (checkCast pre post reg type).map (Outcome.rename f) := by
  unfold checkCast
  rw [State.read_rename]
  refine except_map_bind fun v => ?_
  have hKnown : Except.ok (Outcome.nextOr (post.rename f)
      (if certainlyIs (v.rename f) type then none else someException .classCastException)) =
      (Except.ok (Outcome.nextOr post
        (if certainlyIs v type then none else someException .classCastException)) :
          Except Error Outcome).map (Outcome.rename f) := by
    rw [certainlyIs_rename]
    split <;> rfl
  cases v with
  | unknown d => exact assign_rename_self rfl rfl reg
  | null d => rfl
  | _ => exact hKnown

theorem instanceOf_rename (dst src : Register) (type : Descriptor) :
    instanceOf (pre.rename f) (post.rename f) dst src type =
      (instanceOf pre post dst src type).map (Outcome.rename f) := by
  unfold instanceOf
  rw [State.read_rename]
  refine except_map_bind fun v => ?_
  have hKnown : Outcome.assign (post.rename f) dst
      (if certainlyIs (v.rename f) type then .boolean true else .unknown .boolean) none =
      (Outcome.assign post dst
        (if certainlyIs v type then .boolean true else .unknown .boolean) none).map
          (Outcome.rename f) := by
    rw [certainlyIs_rename]
    refine assign_rename_self ?_ rfl dst
    split <;> rfl
  cases v with
  | unknown d | null d | uninit d => exact assign_rename_self rfl rfl dst
  | _ => exact hKnown

theorem useObject_rename (o : Option Register) :
    useObject (pre.rename f) o = useObject pre o := by
  cases o with
  | none => rfl
  | some r =>
      unfold useObject
      dsimp only
      rw [State.read_rename]
      rcases pre.read r with _ | v
      · rfl
      · cases v <;> rfl

/-- An exception that the use of an object may raise is of a type only. -/
theorem useObject_hazard {o : Option Register} {raises : Bool}
    (h : useObject pre o = .ok (raises, hazard)) : hazard.map (Value.rename f) = hazard := by
  cases o with
  | none => cases h; rfl
  | some r =>
      unfold useObject at h
      dsimp only at h
      rcases hRead : pre.read r with _ | v
      · rw [hRead] at h
        cases h
      · rw [hRead] at h
        cases v <;> cases h <;> rfl

theorem fieldGet_rename (dst : Register) (o : Option Register) (field : FieldReference) :
    fieldGet (pre.rename f) (post.rename f) dst o field =
      (fieldGet pre post dst o field).map (Outcome.rename f) := by
  unfold fieldGet
  rw [useObject_rename]
  rcases hUse : useObject pre o with _ | ⟨raises, hazard⟩
  · rfl
  · cases raises with
    | true => rfl
    | false => exact assign_rename_self rfl (useObject_hazard hUse) dst

theorem fieldPut_rename (src : Register) (o : Option Register) :
    fieldPut (pre.rename f) (post.rename f) src o =
      (fieldPut pre post src o).map (Outcome.rename f) := by
  unfold fieldPut
  rw [useObject_rename, State.read_rename]
  refine except_map_bind fun v => ?_
  rcases hUse : useObject pre o with _ | ⟨raises, hazard⟩
  · rfl
  · cases raises with
    | true => rfl
    | false => exact congrArg (fun h => Except.ok (Outcome.nextOr (post.rename f) h)) (useObject_hazard hUse).symm

theorem arrayLength_rename (dst array : Register) :
    arrayLength (pre.rename f) (post.rename f) dst array =
      (arrayLength pre post dst array).map (Outcome.rename f) := by
  unfold arrayLength
  rw [State.read_rename]
  refine except_map_bind fun v => ?_
  cases v with
  | null d => rfl
  | array id d n es => cases n <;> exact assign_rename_self rfl rfl dst
  | _ => exact assign_rename_self rfl rfl dst

theorem slot_rename (index : Option Int32) (length : Option Nat) (es : Option (List Value)) :
    slot index length (es.map (List.map (Value.rename f))) = (slot index length es).rename f := by
  unfold slot
  cases index with
  | none => rfl
  | some i =>
      dsimp only
      split
      · rfl
      · cases es <;> rfl

theorem position_rename (index : Int32) (es : List Value) :
    position index (es.map (Value.rename f)) = position index es := by
  simp [position]

theorem readInt_rename (r : Register) : readInt (pre.rename f) r = readInt pre r := by
  unfold readInt
  rw [State.read_rename]
  cases pre.read r with
  | error e => rfl
  | ok v => simp [Except.map]

theorem arrayGet_rename (dst array index : Register) :
    arrayGet (pre.rename f) (post.rename f) dst array index =
      (arrayGet pre post dst array index).map (Outcome.rename f) := by
  unfold arrayGet
  rw [State.read_rename, readInt_rename]
  rcases readInt pre index with _ | i
  · rfl
  · refine except_map_bind fun v => ?_
    cases v with
    | null d => rfl
    | array id d n es =>
        rw [Value.rename_array]
        dsimp only
        rw [slot_rename]
        cases slot i n es with
        | outside => rfl
        | untracked => exact assign_rename_self rfl rfl dst
        | tracked i es =>
            dsimp only [Slot.rename]
            rw [position_rename]
            rcases position i es with _ | k
            · rfl
            · have hElement : ((es.map (Value.rename f))[k]?.getD (.unknown d.elementOrObject)) =
                  (es[k]?.getD (.unknown d.elementOrObject)).rename f := by
                rw [List.getElem?_map]
                cases es[k]? <;> rfl
              change Outcome.assign (post.rename f) dst
                ((es.map (Value.rename f))[k]?.getD (.unknown d.elementOrObject)) none = _
              rw [hElement]
              exact assign_rename rfl dst _
    | _ => exact assign_rename_self rfl rfl dst

theorem arrayPut_rename (hf : Injective f) (src array index : Register) :
    arrayPut (pre.rename f) (post.rename f) src array index =
      (arrayPut pre post src array index).map (Outcome.rename f) := by
  unfold arrayPut
  rw [State.read_rename, State.read_rename, readInt_rename]
  refine except_map_bind fun v => ?_
  rcases readInt pre index with _ | i
  · rfl
  · refine except_map_bind fun w => ?_
    cases w with
    | array id d n es =>
        rw [Value.rename_array]
        dsimp only
        rw [slot_rename]
        cases slot i n es with
        | outside => rfl
        | untracked =>
            have hUpdate := State.updateInstance_rename hf post id (.array id d n none)
            rw [Value.rename_array] at hUpdate
            exact congrArg (fun s => Except.ok (Outcome.nextOr s (someException .indexException))) hUpdate
        | tracked i es =>
            dsimp only [Slot.rename]
            rw [position_rename]
            rcases position i es with _ | k
            · rfl
            · have hUpdate := State.updateInstance_rename hf post id
                (.array id d n (some (es.set k (v.coerce d.elementOrObject))))
              rw [Value.rename_array, Option.map_some, List.map_set, ← Value.coerce_rename] at hUpdate
              exact congrArg (fun s => Except.ok (Outcome.next s)) hUpdate
    | _ => rfl

theorem overwrite_rename (es new : List Value) :
    overwrite (es.map (Value.rename f)) (new.map (Value.rename f)) =
      (overwrite es new).map (Value.rename f) := by
  simp [overwrite, List.map_take, List.map_drop]

theorem opaqueResult_rename (m : MethodReference) (args : List Register) :
    opaqueResult (post.rename f) m args = (opaqueResult post m args).map (State.rename f) := by
  unfold opaqueResult
  split
  · split
    · exact State.assign_rename post _ (.unknown m.definer)
    · rfl
  · split <;> rfl

theorem applyEffect_rename (m : MethodReference) (args : List Register) (e : Effect) :
    applyEffect (post.rename f) m args (e.rename f) =
      (applyEffect post m args e).map (Outcome.rename f) := by
  cases e with
  | returns v =>
      simp only [applyEffect, Effect.rename]
      split
      · split
        · exact assign_rename rfl _ v
        · rfl
      · rw [Value.coerce_rename]
        rfl
  | _ => rfl

theorem clobber_rename (hf : Injective f) (post : State) (v : Value) :
    clobber (post.rename f) (v.rename f) = (clobber post v).rename f := by
  unfold clobber
  rw [Value.id?_rename, Value.isMutable_rename, Value.descriptor_rename]
  cases v.id? with
  | none => rfl
  | some id =>
      dsimp only [Option.map_some]
      split
      · exact State.updateInstance_rename hf post id (.unknown v.descriptor)
      · rfl

theorem foldl_clobber_rename (hf : Injective f) (values : List Value) (post : State) :
    (values.map (Value.rename f)).foldl clobber (post.rename f) =
      (values.foldl clobber post).rename f := by
  induction values generalizing post with
  | nil => rfl
  | cons v values ih => rw [List.map_cons, List.foldl_cons, clobber_rename hf, ih, List.foldl_cons]

theorem hasNullReceiver_rename (kind : InvokeKind) (values : List Value) :
    Context.hasNullReceiver kind (values.map (Value.rename f)) =
      Context.hasNullReceiver kind values := by
  cases kind <;> first
    | rfl
    | (cases values with
       | nil => rfl
       | cons v values => cases v <;> rfl)

theorem mapM_read_rename (args : List Register) :
    args.mapM (pre.rename f).read = (args.mapM pre.read).map (List.map (Value.rename f)) := by
  induction args with
  | nil => rfl
  | cons r args ih =>
      rw [List.mapM_cons, List.mapM_cons, State.read_rename, ih]
      refine except_map_bind fun v => except_map_bind fun vs => rfl

namespace Context

theorem caught_rename (h : Handler) (v : Value) (certain : Bool) :
    caught h (v.rename f) certain = (caught h v certain).rename f := by
  cases v <;> first
    | rfl
    | (unfold caught
       cases certain <;> rfl)

/-- Places with the states that control arrives there with, with instances renamed. -/
def renamePlaces (f : Nat → Nat) (places : List (Address × State)) : List (Address × State) :=
  places.map fun p => (p.1, p.2.rename f)

theorem addSuccessor_rename (places : List (Address × State)) (a : Address) (s : State) :
    addSuccessor (renamePlaces f places) a (s.rename f) =
      renamePlaces f (addSuccessor places a s) := by
  have hAny : (renamePlaces f places).any (fun p => p.1 = a) = places.any fun p => p.1 = a := by
    simp [renamePlaces, List.any_map, comp_def]
  unfold addSuccessor
  rw [hAny]
  split
  · rfl
  · simp [renamePlaces]

theorem route_rename (v : Value) (places : List (Address × State)) (handlers : List Handler) :
    route (pre.rename f) (v.rename f) (renamePlaces f places) handlers =
      renamePlaces f (route pre v places handlers) := by
  induction handlers generalizing places with
  | nil => rfl
  | cons h handlers ih =>
      have hEnter (certain : Bool) : addSuccessor (renamePlaces f places) h.target
          { pre.rename f with result := none, exception := some (caught h (v.rename f) certain) } =
          renamePlaces f (addSuccessor places h.target
            { pre with result := none, exception := some (caught h v certain) }) := by
        rw [caught_rename]
        exact addSuccessor_rename places h.target
          { pre with result := none, exception := some (caught h v certain) }
      unfold route
      rw [Value.descriptor_rename]
      dsimp only
      cases Classes.catches? h.type v.descriptor with
      | none =>
          dsimp only
          rw [hEnter, ih]
      | some certain =>
          cases certain with
          | true => exact hEnter true
          | false => exact ih places

theorem flowSuccessors_rename (c : Context) (a : Address) (flow : Flow) :
    c.flowSuccessors a (pre.rename f) (post.rename f) (flow.rename f) =
      (c.flowSuccessors a pre post flow).map (renamePlaces f) := by
  cases flow with
  | next =>
      unfold flowSuccessors
      dsimp only [Flow.rename]
      cases c.next a <;> rfl
  | jump targets =>
      have hJump (places : List (Address × State)) :
          targets.foldl (fun successors t => addSuccessor successors t (post.rename f))
              (renamePlaces f places) =
            renamePlaces f (targets.foldl (fun successors t => addSuccessor successors t post) places) := by
        induction targets generalizing places with
        | nil => rfl
        | cons t targets ih => rw [List.foldl_cons, List.foldl_cons, addSuccessor_rename, ih]
      exact congrArg Except.ok (hJump [])
  | stop => rfl
  | raise v => exact congrArg Except.ok (route_rename v [] _)

theorem successors_rename (c : Context) (a : Address) (o : Outcome) :
    c.successors a (pre.rename f) (o.rename f) = (c.successors a pre o).map (renamePlaces f) := by
  unfold successors Outcome.rename
  dsimp only
  rw [flowSuccessors_rename]
  cases c.flowSuccessors a pre o.post o.flow with
  | error e => rfl
  | ok places =>
      cases o.hazard with
      | none => rfl
      | some v => exact congrArg Except.ok (route_rename v places _)

end Context

end Semantics

end Dalvik
