import Dalvik.Access
import Dalvik.Error

/-!
Methods: instructions laid out one after another from address zero, and the ranges in which
exceptions are handled. The address of an instruction is the sum of the sizes before it.
-/

namespace Dalvik

/-- Where control goes when an exception is caught. Without a type, every exception is. -/
structure Handler where
  type : Option Descriptor
  target : Address
  deriving DecidableEq, Repr

/-- The handlers of the instructions from `start` up to, and not including, `stop`. -/
structure TryBlock where
  start : Address
  stop : Address
  handlers : List Handler
  deriving DecidableEq, Repr

/-- Whether a block handles the exceptions of the instruction at an address. -/
def TryBlock.covers (b : TryBlock) (a : Address) : Bool :=
  b.start ≤ a && a < b.stop

/-- The instructions of a method body. -/
abbrev Code := List (Instruction Address)

namespace Code

/-- The size of a body in units of sixteen bits. -/
def size (code : Code) : Nat := Instruction.totalSize code

/-- The addresses of the instructions. -/
def addresses (code : Code) : List Address := Instruction.addressesFrom 0 code

/-- The instructions from address `a` on in a body that starts at `start`, and none if no
instruction has that address. -/
def seekFrom (a : Address) (start : Address) : Code → Code
  | [] => []
  | i :: r => if start = a then i :: r else seekFrom a (start + i.size) r

/-- The instructions from an address on. -/
def seek (code : Code) (a : Address) : Code := seekFrom a 0 code

/-- The position of the instruction at address `a` in a body that starts at `start`. -/
def indexFrom? (a : Address) (start : Address) : Code → Option Nat
  | [] => none
  | i :: r => if start = a then some 0 else (indexFrom? a (start + i.size) r).map (· + 1)

/-- The position of the instruction at an address. -/
def indexOf? (code : Code) (a : Address) : Option Nat := indexFrom? a 0 code

/-- The instruction at an address. -/
def at? (code : Code) (a : Address) : Option (Instruction Address) := (code.seek a).head?

/-- The address of the instruction after the one at an address, if there is one. -/
def next? (code : Code) (a : Address) : Option Address :=
  match code.seek a with
  | i :: _ :: _ => some (a + i.size)
  | _ => none

/-- The address of the instruction at a position, and the end of the body for every position after
the last. -/
def addressAt (code : Code) (index : Nat) : Address := size (code.take index)

/-- The instructions with their addresses. -/
def located (code : Code) : List (Address × Instruction Address) := code.addresses.zip code

end Code

/-- A method with its body. The parameters are held by the registers after the local ones. -/
structure Method where
  reference : MethodReference
  flags : AccessFlags
  locals : Nat
  code : Code
  tries : List TryBlock
  deriving DecidableEq, Repr

namespace Method

/-- Methods without a body that could be run. -/
def isBodiless (m : Method) : Bool := m.flags.native || m.flags.abstract

/-- The types of the parameter registers. The receiver comes first. -/
def paramTypes (m : Method) : List Descriptor :=
  if m.flags.static then m.reference.params else m.reference.definer :: m.reference.params

/-- The number of parameter registers. -/
def paramCount (m : Method) : Nat := m.paramTypes.length

/-- The number of registers. -/
def registerCount (m : Method) : Nat := m.locals + m.paramCount

/-- The address after the last instruction. -/
def stop (m : Method) : Address := m.code.size

/-- The handlers that may catch an exception of the instruction at an address, in order of
precedence. -/
def handlersAt (m : Method) (a : Address) : List Handler :=
  (m.tries.filter fun b => b.covers a).flatMap TryBlock.handlers

/-- The handlers of all blocks. -/
def handlers (m : Method) : List Handler := m.tries.flatMap TryBlock.handlers

/-- Whether some handler is at an address. -/
def isHandler (m : Method) (a : Address) : Bool := m.handlers.any fun h => h.target = a

/-- The name of a register in the method. -/
def registerName (m : Method) (r : Register) : String := Register.name m.locals r

/-- Checks that a register exists. -/
def checkRegister (m : Method) (r : Register) : Except Error Unit :=
  if r < m.registerCount then .ok () else .error (.register r m.registerCount)

/-- Checks that an instruction has an address. -/
def checkAddress (m : Method) (a : Address) : Except Error Unit :=
  if (m.code.indexOf? a).isSome then .ok () else .error (.address a)

/-- Checks the registers and the targets of an instruction. -/
def checkInstruction (m : Method) (i : Instruction Address) : Except Error Unit := do
  (i.reads ++ i.writes?.toList).forM m.checkRegister
  i.targets.forM m.checkAddress

/-- Checks that every register and every address that the method mentions exists. The bounds of
blocks are free. -/
def validate (m : Method) : Except Error Unit := do
  m.code.forM m.checkInstruction
  m.handlers.forM fun h => m.checkAddress h.target

end Method

end Dalvik
