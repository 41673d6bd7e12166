import Dalvik.Instruction.Operation

/-!
Arithmetic on abstract values. Integers are taken modulo a power of two; an operand of another type
than the operation asks for has no result.
-/

namespace Dalvik

/-- The part of a distance that a shift of a word of `width` bits uses. -/
def shiftDistance (width : Nat) (distance : Int32) : Nat :=
  distance.toBitVec.toNat % width

/-- Arithmetic on 32-bit integers. Division by zero has no result. -/
def int32Op? (op : BinaryOp) (a b : Int32) : Option Int32 :=
  match op with
  | .add => some (a + b)
  | .sub => some (a - b)
  | .mul => some (a * b)
  | .div => if b = 0 then none else some (a / b)
  | .rem => if b = 0 then none else some (a % b)
  | .and => some (a &&& b)
  | .or => some (a ||| b)
  | .xor => some (a ^^^ b)
  | .shl => some (Int32.ofBitVec (a.toBitVec <<< shiftDistance 32 b))
  | .shr => some (Int32.ofBitVec (a.toBitVec.sshiftRight (shiftDistance 32 b)))
  | .ushr => some (Int32.ofBitVec (a.toBitVec >>> shiftDistance 32 b))

/-- Arithmetic on 64-bit integers, shifts left out. Division by zero has no result. -/
def int64Op? (op : BinaryOp) (a b : Int64) : Option Int64 :=
  match op with
  | .add => some (a + b)
  | .sub => some (a - b)
  | .mul => some (a * b)
  | .div => if b = 0 then none else some (a / b)
  | .rem => if b = 0 then none else some (a % b)
  | .and => some (a &&& b)
  | .or => some (a ||| b)
  | .xor => some (a ^^^ b)
  | .shl => none
  | .shr => none
  | .ushr => none

/-- Shifts of 64-bit integers by a 32-bit distance. -/
def int64Shift? (op : BinaryOp) (a : Int64) (b : Int32) : Option Int64 :=
  match op with
  | .shl => some (Int64.ofBitVec (a.toBitVec <<< shiftDistance 64 b))
  | .shr => some (Int64.ofBitVec (a.toBitVec.sshiftRight (shiftDistance 64 b)))
  | .ushr => some (Int64.ofBitVec (a.toBitVec >>> shiftDistance 64 b))
  | _ => none

/-- Arithmetic on floating point numbers, which knows neither bits nor shifts. -/
def floatingOp? {f : Format} (op : BinaryOp) (a b : Floating f) : Option (Floating f) :=
  match op with
  | .add => some (a.add b)
  | .sub => some (a.sub b)
  | .mul => some (a.mul b)
  | .div => some (a.div b)
  | .rem => some (a.rem b)
  | _ => none

namespace Value

/-- The result of an operation on two values of a type, if they are known numbers of that type. -/
def binary? (op : BinaryOp) (type : NumberType) (v w : Value) : Option Value :=
  match type with
  | .int => do
    let a ← v.int32?
    let b ← w.int32?
    let r ← int32Op? op a b
    return int r
  | .long => do
    let a ← v.int64?
    let r ← if op.isShift then w.int32?.bind (int64Shift? op a) else w.int64?.bind (int64Op? op a)
    return long r
  | .float => do
    let a ← v.single?
    let b ← w.single?
    let r ← floatingOp? op a b
    return float r
  | .double => do
    let a ← v.double?
    let b ← w.double?
    let r ← floatingOp? op a b
    return double r

/-- The result of an operation on one value, if it is a known number of the right type. -/
def unary? (op : UnaryOp) (v : Value) : Option Value :=
  match op with
  | .negInt => v.int32?.map fun n => int (-n)
  | .notInt => v.int32?.map fun n => int (~~~n)
  | .negLong => v.int64?.map fun n => long (-n)
  | .notLong => v.int64?.map fun n => long (~~~n)
  | .negFloat => v.single?.map fun x => float x.neg
  | .negDouble => v.double?.map fun x => double x.neg
  | .intToLong => v.int32?.map fun n => long n.toInt64
  | .intToFloat => v.int32?.map fun n => float (.ofInt n.toInt)
  | .intToDouble => v.int32?.map fun n => double (.ofInt n.toInt)
  | .longToInt => v.int64?.map fun n => int n.toInt32
  | .longToFloat => v.int64?.map fun n => float (.ofInt n.toInt)
  | .longToDouble => v.int64?.map fun n => double (.ofInt n.toInt)
  | .floatToInt => v.single?.map fun x => int x.toInt32
  | .floatToLong => v.single?.map fun x => long x.toInt64
  | .floatToDouble => v.single?.map fun x => double x.convert
  | .doubleToInt => v.double?.map fun x => int x.toInt32
  | .doubleToLong => v.double?.map fun x => long x.toInt64
  | .doubleToFloat => v.double?.map fun x => float x.convert
  | .intToByte => v.int32?.map fun n => byte n.toInt8
  | .intToChar => v.int32?.map fun n => char n.toUInt32.toUInt16
  | .intToShort => v.int32?.map fun n => short n.toInt16

/-- Whether an integer is zero, of whatever width; nothing if the value is no known integer. -/
def isZero? (v : Value) : Option Bool :=
  match v.int32?, v.int64? with
  | some n, _ => some (n = 0)
  | none, some n => some (n = 0)
  | none, none => none

end Value

end Dalvik
