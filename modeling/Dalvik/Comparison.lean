import Dalvik.Floating.Arithmetic
import Dalvik.Value

/-!
Comparisons of abstract values. A comparison has an outcome only if every pair of actual values that
the operands stand for has the same one.
-/

namespace Dalvik

/-- A condition on two operands. -/
inductive Comparison where
  | eq
  | ne
  | lt
  | ge
  | gt
  | le
  deriving DecidableEq, Repr

namespace Comparison

/-- Every condition. -/
def all : List Comparison := [eq, ne, lt, ge, gt, le]

/-- The word for the condition in the names of instructions. -/
def keyword : Comparison → String
  | eq => "eq"
  | ne => "ne"
  | lt => "lt"
  | ge => "ge"
  | gt => "gt"
  | le => "le"

/-- The condition that a word names. -/
def ofKeyword? (word : String) : Option Comparison :=
  all.find? fun c => c.keyword = word

/-- Whether the condition asks for more than equality. -/
def isOrdering : Comparison → Bool
  | eq => false
  | ne => false
  | _ => true

/-- Whether the condition holds of operands in a given order. -/
def holds : Comparison → Ordering → Bool
  | eq, o => o.isEq
  | ne, o => o.isNe
  | lt, o => o.isLT
  | ge, o => o.isGE
  | gt, o => o.isGT
  | le, o => o.isLE

end Comparison

/-- A number of one of the four arithmetic types. -/
inductive Number where
  | int (v : Int32)
  | long (v : Int64)
  | float (v : Single)
  | double (v : Double)
  deriving DecidableEq, Repr

namespace Number

/-- The number in 32-bit floating point. -/
def toSingle : Number → Single
  | int v => .ofInt v.toInt
  | long v => .ofInt v.toInt
  | float v => v
  | double v => v.convert

/-- The number in 64-bit floating point. -/
def toDouble : Number → Double
  | int v => .ofInt v.toInt
  | long v => .ofInt v.toInt
  | float v => v.convert
  | double v => v

/-- The order of two numbers in the wider of their types, and nothing if one of them is no number. A
32-bit floating point number is the widest type, so that a `double` is narrowed beside it. -/
def compare? : Number → Number → Option Ordering
  | float a, b => a.compare? b.toSingle
  | a, float b => a.toSingle.compare? b
  | double a, b => a.compare? b.toDouble
  | a, double b => a.toDouble.compare? b
  | int a, int b => some (compare a.toInt b.toInt)
  | int a, long b => some (compare a.toInt b.toInt)
  | long a, int b => some (compare a.toInt b.toInt)
  | long a, long b => some (compare a.toInt b.toInt)

end Number

/-- What a reference points to, as far as comparisons can tell. -/
inductive Target where
  | nothing
  | identity (id : Nat)
  | type (d : Descriptor)
  | uninit
  deriving DecidableEq, Repr

/-- Whether two references are the same, if that is certain. -/
def Target.same? : Target → Target → Option Bool
  | nothing, nothing => some true
  | nothing, _ => some false
  | _, nothing => some false
  | uninit, _ => none
  | _, uninit => none
  | .identity i, .identity j => some (i = j)
  | type a, type b => some (a = b)
  | .identity _, type _ => some false
  | type _, .identity _ => some false

namespace Value

/-- The number that a value is, if it is one. -/
def number? : Value → Option Number
  | long v => some (.long v)
  | float v => some (.float v)
  | double v => some (.double v)
  | v => v.int32?.map .int

/-- What a value points to, if it is a known reference. -/
def target? : Value → Option Target
  | null _ => some .nothing
  | type d => some (.type d)
  | uninit _ => some .uninit
  | v => v.id?.map .identity

/-- Whether the value is a truth value. -/
def isBoolean : Value → Bool
  | boolean _ => true
  | _ => false

/-- Whether a reference is the same as a number, which a null reference is with zero. -/
def sameAsNumber? (t : Target) (v : Value) : Option Bool :=
  match v.int32? with
  | none => none
  | some n => if n = 0 then some (t = .nothing) else if t = .nothing then some false else none

/-- The outcome of a condition on two numbers. Truth values have no order. -/
def compareNumbers? (c : Comparison) (v w : Value) : Option Bool :=
  if c.isOrdering && (v.isBoolean || w.isBoolean) then none
  else
    match v.number?, w.number? with
    | some a, some b =>
      match a.compare? b with
      | some o => some (c.holds o)
      | none => some (c = .ne)
    | _, _ => none

/-- The outcome of a condition on the sameness of two operands. References have no order. -/
def compareSame? (c : Comparison) (same : Option Bool) : Option Bool :=
  if c.isOrdering then none else same.map fun s => s == (c == .eq)

/-- The outcome of a condition, if it is certain. -/
def compare? (c : Comparison) (v w : Value) : Option Bool :=
  if v.isKnown && w.isKnown then
    match v.target?, w.target? with
    | some s, some t => compareSame? c (s.same? t)
    | some s, none => compareSame? c (sameAsNumber? s w)
    | none, some t => compareSame? c (sameAsNumber? t v)
    | none, none => compareNumbers? c v w
  else none

/-- The order of two numbers as `-1`, `0` or `1`, with `bias` for operands that are not ordered. -/
def threeWay? (bias : Int32) (v w : Value) : Option Int32 :=
  match v.number?, w.number? with
  | some a, some b =>
    match a.compare? b with
    | none => some bias
    | some .lt => some (-1)
    | some .eq => some 0
    | some .gt => some 1
  | _, _ => none

end Value

end Dalvik
