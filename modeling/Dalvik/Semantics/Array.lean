import Dalvik.Semantics.Outcome
import Dalvik.Semantics.Run

/-!
The instructions on arrays. The contents of an array are tracked while every write is to a known
place, and every register that refers to the array sees them.
-/

namespace Dalvik.Semantics

/-- Arrays of more elements than this are tracked by their length alone. -/
def maxTracked : Nat := 65536

/-- The integer that a register holds, if it is known. -/
def readInt (pre : State) (r : Register) : Except Error (Option Int32) :=
  (pre.read r).map fun v => (v.coerce .int).int32?

/-- Creates an array of a size. -/
def newArray (pre post : State) (dst size : Register) (type : Descriptor) : Run Outcome := do
  match ← Run.ofExcept (readInt pre size) with
  | none => do
    let v ← Run.onHeap fun h => h.newArray type none none
    Run.ofExcept (Outcome.assign post dst v (someException .negativeSizeException))
  | some n =>
    if n < 0 then return .raise post .negativeSizeException
    else do
      let length := n.toInt.toNat
      let elements :=
        if length ≤ maxTracked then some (List.replicate length (Value.zero type.elementOrObject))
        else none
      let v ← Run.onHeap fun h => h.newArray type (some length) elements
      Run.ofExcept (Outcome.assign post dst v none)

/-- Reads the length of an array. -/
def arrayLength (pre post : State) (dst array : Register) : Except Error Outcome := do
  match ← pre.read array with
  | .null _ => return .raise post .nullPointerException
  | .array _ _ (some n) _ => Outcome.assign post dst (.int (Int32.ofNat n)) none
  | v =>
    Outcome.assign post dst (.unknown .int)
      (if v.isKnown then none else someException .nullPointerException)

/-- Where an index points to in an array. -/
inductive Slot where
  /-- Not into the array. -/
  | outside
  /-- To the element at a position, of those that are tracked. -/
  | tracked (index : Int32) (elements : List Value)
  /-- To an element of which nothing is known, if to one at all. -/
  | untracked
  deriving DecidableEq, Repr

/-- Whether an index is certainly not that of an element. -/
def isOutside (index : Int32) (length : Nat) : Bool :=
  index < 0 || length ≤ index.toInt.toNat

/-- Where an index points to in an array. -/
def slot (index : Option Int32) (length : Option Nat) (elements : Option (List Value)) : Slot :=
  match index with
  | none => .untracked
  | some i =>
    if (length.map (isOutside i)).getD false then .outside
    else
      match elements with
      | some es => .tracked i es
      | none => .untracked

/-- The position that an index names in a list, which has to have it. -/
def position (index : Int32) (elements : List Value) : Except Error Nat :=
  if isOutside index elements.length then .error .outOfBounds else .ok index.toInt.toNat

/-- Reads an element of an array. -/
def arrayGet (pre post : State) (dst array index : Register) : Except Error Outcome := do
  let i ← readInt pre index
  match ← pre.read array with
  | .null _ => return .raise post .nullPointerException
  | .array _ type length elements =>
    match slot i length elements with
    | .outside => return .raise post .indexException
    | .tracked i es => do
      let n ← position i es
      Outcome.assign post dst (es[n]?.getD (.unknown type.elementOrObject)) none
    | .untracked =>
      Outcome.assign post dst (.unknown type.elementOrObject) (someException .indexException)
  | v =>
    Outcome.assign post dst (.unknown v.descriptor.elementOrObject)
      (someException .nullPointerException)

/-- Writes an element of an array. Without a known index, nothing more is known of any element. -/
def arrayPut (pre post : State) (src array index : Register) : Except Error Outcome := do
  let v ← pre.read src
  let i ← readInt pre index
  match ← pre.read array with
  | .null _ => return .raise post .nullPointerException
  | .array id type length elements =>
    match slot i length elements with
    | .outside => return .raise post .indexException
    | .tracked i es => do
      let n ← position i es
      let es := es.set n (v.coerce type.elementOrObject)
      return .next (post.updateInstance id (.array id type length (some es)))
    | .untracked =>
      return .nextOr (post.updateInstance id (.array id type length none))
        (someException .indexException)
  | _ => return .nextOr post (someException .nullPointerException)

/-- The elements of an array with the first ones overwritten. -/
def overwrite (elements new : List Value) : List Value :=
  new.take elements.length ++ elements.drop new.length

/-- Fills the first elements of an array. Of an array with lost contents the other elements count as
those of a new one. -/
def fillArray (pre post : State) (array : Register) (data : List Literal) : Run Outcome := do
  match ← Run.ofExcept (pre.read array) with
  | .null _ => return .raise post .nullPointerException
  | .array id type (some length) elements =>
    if length < data.length then return .raise post .indexException
    else if length ≤ maxTracked then do
      let elementType := type.elementOrObject
      let old := elements.getD (List.replicate length (Value.zero elementType))
      let new ← Run.onHeap fun h => h.literals (data.take old.length)
      let es := overwrite old (new.map fun v => v.coerce elementType)
      return .next (post.updateInstance id (.array id type (some length) (some es)))
    else return .nextOr post (someException .indexException)
  | .array _ _ none _ => return .nextOr post (someException .indexException)
  | _ => return .nextOr post (someException .nullPointerException)

end Dalvik.Semantics
