import Dalvik.Semantics.Arithmetic
import Dalvik.Semantics.Outcome

/-!
The instructions that compute from numbers, and those whose flow of control depends on a register.
`pre` is the state before the instruction, `post` the same state without the result and the exception
that no instruction passes on.
-/

namespace Dalvik.Semantics

/-- Returns from a method, for which the register has to exist. -/
def returnValue (pre post : State) (src : Register) : Except Error Outcome := do
  let _ ← pre.read src
  return ⟨.stop, post, none⟩

/-- Throws the exception in a register. Throwing null throws another exception. -/
def throwValue (pre post : State) (src : Register) : Except Error Outcome := do
  match ← pre.read src with
  | .null _ => return .raise post .nullPointerException
  | v => return ⟨.raise v, post, none⟩

/-- Jumps if a condition holds. If that is not certain, control may go either way. -/
def branch (pre post : State) (next : Except Error Address) (c : Comparison) (lhs : Register)
    (rhs : Option Register) (target : Address) : Except Error Outcome := do
  let v ← pre.read lhs
  let w ←
    match rhs with
    | some r => pre.read r
    | none => pure (.int 0)
  let next ← next
  match Value.compare? c v w with
  | some true => return .jump post [target]
  | some false => return .jump post [next]
  | none => return .jump post [next, target]

/-- Where a switch goes for a key: to the first case with the key, or to the next instruction. -/
def switchTarget (cases : List (Int32 × Address)) (next : Address) (key : Int32) : Address :=
  (cases.lookup key).getD next

/-- Jumps to the case for a key, or anywhere if the key is not known. -/
def switch (pre post : State) (next : Except Error Address) (src : Register)
    (cases : List (Int32 × Address)) : Except Error Outcome := do
  let next ← next
  match (← pre.read src).int32? with
  | some key => return .jump post [switchTarget cases next key]
  | none => return .jump post (next :: cases.map Prod.snd)

/-- Compares two numbers. -/
def compare (pre post : State) (kind : ThreeWay) (dst lhs rhs : Register) :
    Except Error Outcome := do
  let v ← pre.read lhs
  let w ← pre.read rhs
  let r := Value.threeWay? kind.bias (v.coerce kind.operand) (w.coerce kind.operand)
  Outcome.assign post dst ((r.map Value.int).getD (.unknown .int)) none

/-- Computes from one number. -/
def unary (pre post : State) (op : UnaryOp) (dst src : Register) : Except Error Outcome := do
  let v ← pre.read src
  Outcome.assign post dst ((Value.unary? op (v.coerce op.source)).getD (.unknown op.target)) none

/-- The second operand of an arithmetic instruction. The distance of a shift is read as a 32-bit
integer. -/
def readOperand (pre : State) (op : BinaryOp) (type : NumberType) : Operand → Except Error Value
  | .literal v => .ok (.int v)
  | .register r =>
    (pre.read r).map fun v => v.coerce (if op.isShift then .int else type.descriptor)

/-- Computes from two numbers. Integer division throws for zero, and may throw if it is not known
whether it divides by zero. -/
def binary (pre post : State) (op : BinaryOp) (type : NumberType) (dst lhs : Register)
    (rhs : Operand) : Except Error Outcome := do
  let v ← pre.read lhs
  let w ← readOperand pre op type rhs
  let r := (Value.binary? op type (v.coerce type.descriptor) w).getD (.unknown type.descriptor)
  if op.isDivision && type.isIntegral then
    match w.isZero? with
    | some true => return .raise post .arithmeticException
    | some false => Outcome.assign post dst r none
    | none => Outcome.assign post dst r (someException .arithmeticException)
  else Outcome.assign post dst r none

end Dalvik.Semantics
