import Dalvik.Semantics.Array
import Dalvik.Semantics.Call
import Dalvik.Semantics.Number
import Dalvik.Semantics.Object

/-!
One abstract step: from the state before an instruction to the state after it, and to every place
where control may go next with the state that it arrives with.
-/

namespace Dalvik

/-- The state after an instruction, and the places that control may reach with the states that it
arrives with. -/
structure Step where
  post : State
  successors : List (Address × State)
  deriving DecidableEq, Repr

namespace Semantics.Context

/-- What the instruction at an address does. `post` is the state before it without the result and the
exception, which no instruction passes on. -/
def execute (c : Context) (a : Address) (i : Instruction Address) (pre post : State) : Run Outcome :=
  match i with
  | .nop => return .next post
  | .const dst l => do
    let v ← Run.onHeap fun h => h.literal l
    Run.ofExcept (Outcome.assign post dst v none)
  | .move dst src => Run.ofExcept do
    let v ← pre.read src
    Outcome.assign post dst v none
  | .moveResult dst =>
    Run.ofExcept (Outcome.assign post dst (pre.result.getD (.unknown .object)) none)
  | .moveException dst =>
    Run.ofExcept (Outcome.assign post dst (pre.exception.getD (.unknown .throwable)) none)
  | .returnVoid => return ⟨.stop, post, none⟩
  | .returnValue src => Run.ofExcept (returnValue pre post src)
  | .throw src => Run.ofExcept (throwValue pre post src)
  | .goto t => return .jump post [t]
  | .branch cond lhs rhs t => Run.ofExcept (branch pre post (c.next a) cond lhs rhs t)
  | .switch src cases => Run.ofExcept (switch pre post (c.next a) src cases)
  | .compare k dst lhs rhs => Run.ofExcept (compare pre post k dst lhs rhs)
  | .unary op dst src => Run.ofExcept (unary pre post op dst src)
  | .binary op type dst lhs rhs => Run.ofExcept (binary pre post op type dst lhs rhs)
  | .newInstance dst d => Run.ofExcept (Outcome.assign post dst (.uninit d) none)
  | .checkCast r d => Run.ofExcept (checkCast pre post r d)
  | .instanceOf dst src d => Run.ofExcept (instanceOf pre post dst src d)
  | .newArray dst size d => newArray pre post dst size d
  | .arrayLength dst array => Run.ofExcept (arrayLength pre post dst array)
  | .arrayGet dst array index => Run.ofExcept (arrayGet pre post dst array index)
  | .arrayPut src array index => Run.ofExcept (arrayPut pre post src array index)
  | .fillArray array data => fillArray pre post array data
  | .fieldGet dst o fld => Run.ofExcept (fieldGet pre post dst o fld)
  | .fieldPut src o _ => Run.ofExcept (fieldPut pre post src o)
  | .invoke kind m args => c.invoke kind m args pre post

/-- The exception that a handler is entered with. If it is not certain that the handler catches what
is not known, the exception is one that it catches. -/
def caught (h : Handler) (exception : Value) (certain : Bool) : Value :=
  match exception with
  | .unknown thrown => if certain then exception else .unknown (h.type.getD thrown)
  | _ => exception

/-- Successors with one more, unless control reaches its place already. -/
def addSuccessor (successors : List (Address × State)) (a : Address) (s : State) :
    List (Address × State) :=
  if successors.any fun p => p.1 = a then successors else successors ++ [(a, s)]

/-- The successors with every handler that an exception may reach, the handlers taken in order up to
the first that certainly catches it. -/
def route (pre : State) (exception : Value) (successors : List (Address × State)) :
    List Handler → List (Address × State)
  | [] => successors
  | h :: hs =>
    let enter (certain : Bool) : List (Address × State) :=
      addSuccessor successors h.target
        { pre with result := none, exception := some (caught h exception certain) }
    match Classes.catches? h.type exception.descriptor with
    | some false => route pre exception successors hs
    | some true => enter true
    | none => route pre exception (enter false) hs

/-- The places that control reaches without an exception, and after one that is raised for certain. -/
def flowSuccessors (c : Context) (a : Address) (pre post : State) :
    Flow → Except Error (List (Address × State))
  | .next => (c.next a).map fun next => [(next, post)]
  | .jump targets => .ok (targets.foldl (fun successors t => addSuccessor successors t post) [])
  | .stop => .ok []
  | .raise exception => .ok (route pre exception [] (c.method.handlersAt a))

/-- One step of the instruction at an address. -/
def apply (c : Context) (a : Address) (pre : State) : Run Step := do
  match c.method.code.at? a with
  | none => throw (.address a)
  | some i =>
    let outcome ← c.execute a i pre { pre with result := none, exception := none }
    let successors ← Run.ofExcept (c.flowSuccessors a pre outcome.post outcome.flow)
    let successors :=
      match outcome.hazard with
      | some exception => route pre exception successors (c.method.handlersAt a)
      | none => successors
    return ⟨outcome.post, successors⟩

end Semantics.Context

end Dalvik
