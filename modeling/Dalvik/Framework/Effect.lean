import Dalvik.Classes
import Dalvik.Heap
import Dalvik.Text.Utf8

/-!
What the framework methods with a known effect do to abstract arguments.
-/

namespace Dalvik

/-- What is known about a call. The value that a constructor returns is what its receiver becomes. -/
inductive Effect where
  | returns (v : Value)
  | void
  | throws (type : Descriptor)
  | unknown
  deriving DecidableEq, Repr

namespace FrameworkMethod

/-- The argument at a position. -/
def argument (args : List Value) (index : Nat) : Except Error Value :=
  match args[index]? with
  | some v => .ok v
  | none => .error .outOfBounds

/-- The type that a class object stands for. -/
def classType? : Value → Option Descriptor
  | .type d => some d
  | _ => none

/-- The parameter types that the argument of a reflective search lists. None are listed by null. -/
def paramTypes? : Value → Option (List Descriptor)
  | .null _ => some []
  | v => v.elements?.bind fun es => es.mapM classType?

/-- An effect that leaves the heap as it is. -/
def keeping (h : Heap) (e : Effect) : Except Error (Effect × Heap) := .ok (e, h)

/-- A call that returns a new string. -/
def returnString (h : Heap) (text : String) : Except Error (Effect × Heap) :=
  let (v, h) := h.newString text
  .ok (.returns v, h)

/-- Looks a class up by its binary name. -/
def findClass (cs : Classes) (h : Heap) (name : Value) : Except Error (Effect × Heap) :=
  match name with
  | .null _ => keeping h (.throws .nullPointerException)
  | .string _ text =>
    let d := Descriptor.ofBinaryName text
    keeping h (if cs.knows d then .returns (.type d) else .unknown)
  | _ => keeping h .unknown

/-- Looks a method up by its name and parameter types. The last argument is needed only for a known
class and a known name. -/
def findMethod (cs : Classes) (h : Heap) (args : List Value) : Except Error (Effect × Heap) := do
  let definer ← argument args 0
  let name ← argument args 1
  match definer, name with
  | .type definer, .string _ name => do
    let params ← argument args 2
    match (paramTypes? params).bind fun ps => cs.lookup? definer name ps with
    | some (m, _) =>
      let (v, h) := h.newMethod m
      return (.returns v, h)
    | none => return (.unknown, h)
  | _, _ => return (.unknown, h)

/-- Compares a string with any other argument. -/
def compareString (h : Heap) (args : List Value) : Except Error (Effect × Heap) := do
  let receiver ← argument args 0
  match receiver with
  | .string _ text => do
    let other ← argument args 1
    match other with
    | .unknown _ => return (.unknown, h)
    | .uninit _ => return (.unknown, h)
    | v => return (.returns (.boolean (v.text? = some text)), h)
  | _ => return (.unknown, h)

/-- Reads a number from a string. -/
def readInteger (h : Heap) (v : Value) : Except Error (Effect × Heap) :=
  match v with
  | .null _ => keeping h (.throws .numberFormatException)
  | .string _ text =>
    match Text.int32? text.toList with
    | some n => keeping h (.returns (.int n))
    | none => keeping h (.throws .numberFormatException)
  | _ => keeping h .unknown

/-- The effect of a call, and the heap after it. Arguments that the effect hangs on have to be
passed. -/
def call (f : FrameworkMethod) (cs : Classes) (h : Heap) (args : List Value) :
    Except Error (Effect × Heap) :=
  match f with
  | classForName => do findClass cs h (← argument args 0)
  | className => do
    match ← argument args 0 with
    | .type d => returnString h d.binaryName
    | _ => keeping h .unknown
  | classMethod => findMethod cs h args
  | classDeclaredMethod => findMethod cs h args
  | stringOfBytes => do
    match (← argument args 1).bytes? with
    | some bytes => returnString h (String.ofList (Text.ofUtf8Lossy bytes))
    | none => keeping h .unknown
  | stringOfChars => do
    match (← argument args 1).chars? with
    | some units => returnString h (String.ofList (Text.ofUtf16Lossy units))
    | none => keeping h .unknown
  | stringOfString => do
    match ← argument args 1 with
    | .null _ => keeping h (.throws .nullPointerException)
    | .string _ text => returnString h text
    | _ => keeping h .unknown
  | stringLength => do
    match (← argument args 0).text? with
    | some text => keeping h (.returns (.int (Int32.ofNat (Text.utf16 text.toList).length)))
    | none => keeping h .unknown
  | stringEquals => compareString h args
  | stringOfInt => do
    match (← argument args 0).int32? with
    | some n => returnString h (toString n.toInt)
    | none => keeping h .unknown
  | stringToString => do
    let v ← argument args 0
    keeping h (if v.text?.isSome then .returns v else .unknown)
  | integerOfInt => do
    match (← argument args 0).int32? with
    | some n =>
      let (v, h) := h.newBox .integerBox (.int n)
      return (.returns v, h)
    | none => keeping h .unknown
  | integerToInt => do
    match (← argument args 0).unboxed?.bind Value.int32? with
    | some n => keeping h (.returns (.int n))
    | none => keeping h .unknown
  | integerOfString => do readInteger h (← argument args 0)

end FrameworkMethod

end Dalvik
