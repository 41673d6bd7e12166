import Dalvik.Framework.Effect
import Dalvik.Semantics.Outcome
import Dalvik.Semantics.Run

/-!
Calls. A framework method may have a known effect; a local method counts for what is known of every
path through it; of any other call only the type of the result is known.
-/

namespace Dalvik.Semantics

/-- The state after a call of which nothing is known: a constructor leaves an initialised object, and
any other method a result of its type. -/
def opaqueResult (post : State) (m : MethodReference) (args : List Register) : Except Error State :=
  if m.isConstructor then
    match args.head? with
    | some receiver => post.assign receiver (.unknown m.definer)
    | none => .ok post
  else if m.ret.isVoid then .ok post
  else .ok { post with result := some (.unknown m.ret) }

/-- What a call with a known effect does. -/
def applyEffect (post : State) (m : MethodReference) (args : List Register) (e : Effect) :
    Except Error Outcome :=
  match e with
  | .returns v =>
    if m.isConstructor then
      match args.head? with
      | some receiver => Outcome.assign post receiver v none
      | none => .ok (.next post)
    else .ok (.next { post with result := some (v.coerce m.ret) })
  | .void => .ok (.next post)
  | .unknown => .ok (.next post)
  | .throws type => .ok (.raise post type)

/-- The state after an argument has been passed to code that may change its contents. -/
def clobber (post : State) (v : Value) : State :=
  match v.id? with
  | some id =>
    if v.isMutable && !v.descriptor.isImmutable then post.updateInstance id (.unknown v.descriptor)
    else post
  | none => post

/-- What a step depends on besides the state: the classes, the method that runs, and what is known of
a call of a local method with given arguments. -/
structure Context where
  classes : Classes
  method : Method
  call : Method → List Value → Run (Option Effect)

namespace Context

/-- The instruction after the one at an address, which has to exist. -/
def next (c : Context) (a : Address) : Except Error Address :=
  match c.method.code.next? a with
  | some next => .ok next
  | none => .error (.address c.method.stop)

/-- A call of a framework method with a known effect. -/
def invokeFramework (c : Context) (f : FrameworkMethod) (m : MethodReference) (args : List Register)
    (values : List Value) (post : State) : Run Outcome := do
  match ← Run.onHeap? fun h => f.call c.classes h values with
  | .unknown => do
    let post ← Run.ofExcept (opaqueResult post m args)
    return .nextOr post (someException .throwable)
  | e => Run.ofExcept (applyEffect post m args e)

/-- The local method that a call certainly runs. -/
def callee? (c : Context) (kind : InvokeKind) (m : MethodReference) : Option Method :=
  match kind with
  | .static => c.classes.method? m
  | .direct => c.classes.method? m
  | _ => none

/-- What becomes of a call of another method, given what is known of it. -/
def conclude (post : State) (m : MethodReference) (args : List Register) : Option Effect → Run Outcome
  | none => do
    let post ← Run.ofExcept (opaqueResult post m args)
    return .nextOr post (someException .throwable)
  | some e =>
    if m.isConstructor then do
      let post ← Run.ofExcept (opaqueResult post m args)
      return .next post
    else Run.ofExcept (applyEffect post m args e)

/-- A call of any other method. Its arguments may come back changed whatever is known of its
result. -/
def invokeOther (c : Context) (kind : InvokeKind) (m : MethodReference) (args : List Register)
    (values : List Value) (post : State) : Run Outcome := do
  let effect ←
    match c.callee? kind m with
    | some callee => c.call callee values
    | none => pure none
  conclude (values.foldl clobber post) m args effect

/-- What is known of a call of any other method is known before anything becomes of it. -/
theorem invokeOther_eq (c : Context) (kind : InvokeKind) (m : MethodReference) (args : List Register)
    (values : List Value) (post : State) :
    c.invokeOther kind m args values post =
      ((match c.callee? kind m with
        | some callee => c.call callee values
        | none => pure none) >>= conclude (values.foldl clobber post) m args) := by
  unfold invokeOther
  cases c.callee? kind m <;> rfl

/-- A call with a receiver that is not null, or without one. -/
def invokePresent (c : Context) (kind : InvokeKind) (m : MethodReference) (args : List Register)
    (values : List Value) (post : State) : Run Outcome :=
  match FrameworkMethod.find? m with
  | some f => c.invokeFramework f m args values post
  | none => c.invokeOther kind m args values post

/-- Whether a call has a receiver, and it is null. -/
def hasNullReceiver (kind : InvokeKind) (values : List Value) : Bool :=
  match kind, values with
  | .static, _ => false
  | _, .null _ :: _ => true
  | _, _ => false

/-- A call. A null receiver throws. -/
def invoke (c : Context) (kind : InvokeKind) (m : MethodReference) (args : List Register)
    (pre post : State) : Run Outcome := do
  let values ← Run.ofExcept (args.mapM pre.read)
  if hasNullReceiver kind values then return .raise post .nullPointerException
  else c.invokePresent kind m args values post

end Context

end Dalvik.Semantics
