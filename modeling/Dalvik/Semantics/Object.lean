import Dalvik.Semantics.Outcome

/-!
The instructions that test the type of a reference or use a field. The contents of fields are not
tracked.
-/

namespace Dalvik.Semantics

/-- Whether a known value certainly has a type: it is its own type, or that of all objects. -/
def certainlyIs (v : Value) (type : Descriptor) : Bool :=
  v.descriptor = type || type = .object

/-- Casts a reference. What is not known is of the type from then on. -/
def checkCast (pre post : State) (reg : Register) (type : Descriptor) : Except Error Outcome := do
  match ← pre.read reg with
  | .null _ => return .next post
  | .unknown _ => Outcome.assign post reg (.unknown type) (someException .classCastException)
  | v =>
    return .nextOr post (if certainlyIs v type then none else someException .classCastException)

/-- Tests the type of a reference. -/
def instanceOf (pre post : State) (dst src : Register) (type : Descriptor) :
    Except Error Outcome := do
  let r : Value :=
    match ← pre.read src with
    | .null _ => .boolean false
    | .unknown _ => .unknown .boolean
    | .uninit _ => .unknown .boolean
    | v => if certainlyIs v type then .boolean true else .unknown .boolean
  Outcome.assign post dst r none

/-- What happens when the object of a field access is used: an exception that is raised, or one that
may be. -/
def useObject (pre : State) : Option Register → Except Error (Bool × Option Value)
  | none => .ok (false, none)
  | some r =>
    (pre.read r).map fun v =>
      match v with
      | .null _ => (true, none)
      | .unknown _ => (false, someException .nullPointerException)
      | _ => (false, none)

/-- Reads a field, of which only the type is known. -/
def fieldGet (pre post : State) (dst : Register) (object : Option Register)
    (field : FieldReference) : Except Error Outcome := do
  let (raises, hazard) ← useObject pre object
  if raises then return .raise post .nullPointerException
  else Outcome.assign post dst (.unknown field.type) hazard

/-- Writes a field, which leaves no trace. -/
def fieldPut (pre post : State) (src : Register) (object : Option Register) :
    Except Error Outcome := do
  let _ ← pre.read src
  let (raises, hazard) ← useObject pre object
  if raises then return .raise post .nullPointerException
  else return .nextOr post hazard

end Dalvik.Semantics
