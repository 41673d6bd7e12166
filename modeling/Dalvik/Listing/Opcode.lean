import Dalvik.Error
import Dalvik.Listing.Lexer

/-!
Reading one instruction of a listing: the name of the instruction, and operands of the kinds that the
name asks for. Jumps still name labels.
-/

namespace Dalvik.Listing

/-- The endings that tell the width or kind of the operands of an instruction. -/
def widthEndings : List String :=
  ["-wide", "-object", "-boolean", "-byte", "-char", "-short"]

/-- The names before which a width is told by an ending. -/
def widened : List String :=
  ["move", "return", "aget", "aput", "iget", "iput", "sget", "sput"]

/-- The names before which a size is told after a slash. -/
def sized : List String :=
  ["const", "move", "goto", "invoke-"]

/-- Whether a text starts with one of some words. -/
def startsWithAny (words : List String) (s : List Char) : Bool :=
  words.any fun w => w.toList.isPrefixOf s

/-- The name of an instruction without the part after a slash, where that tells a size. -/
def dropSize (name : List Char) : List Char :=
  match Text.cutAt? ['/'] name with
  | some (base, _) => if startsWithAny sized base then base else name
  | none => name

/-- The name of an instruction without the ending that tells a width. -/
def dropWidth (name : List Char) : List Char :=
  if startsWithAny widened name then
    (widthEndings.findSome? fun e => Text.dropTail? e.toList name).getD name
  else name

/-- The name that stands for all sizes and widths of an instruction. -/
def canonical (name : List Char) : List Char :=
  dropWidth (dropSize name)

/-- Reads a register. Those named as parameters come after the local ones. -/
def readRegister (locals : Nat) (s : List Char) : Except Complaint Register :=
  let text := String.ofList s
  let numbered (first : Nat) (digits : List Char) : Except Complaint Register :=
    match Text.decimal? digits with
    | none => .error (.notRegister text)
    | some n => if n < 0x10000 then .ok (first + n) else .error (.registerOutOfRange text)
  match s with
  | 'v' :: digits => numbered 0 digits
  | 'p' :: digits => numbered locals digits
  | _ => .error (.notRegister text)

/-- Reads the registers in braces: a range with two dots, or a list. -/
def readRegisters (locals : Nat) (s : List Char) : Except Complaint (List Register) :=
  match Text.enclosed? '\x7b' '\x7d' s with
  | none => .error (.notRegisterList (String.ofList s))
  | some body =>
    let body := Text.trim body
    match Text.cutAt? ['.', '.'] body with
    | some (first, last) => do
      let first ← readRegister locals (Text.trim first)
      let last ← readRegister locals (Text.trim last)
      return List.range' first (last + 1 - first)
    | none => (items body).mapM (readRegister locals)

/-- Reads a label. -/
def readLabel (s : List Char) : Except Complaint String :=
  match labelName? s with
  | some name => .ok name
  | none => .error (.notLabel (String.ofList s))

/-- Reads a literal. -/
def readLiteral (s : List Char) : Except Complaint Literal :=
  (Literal.read s).mapError .literal

/-- Reads a type. -/
def readType (s : List Char) : Except Complaint Descriptor :=
  (Descriptor.parse (String.ofList s)).mapError .malformed

/-- Reads a field. -/
def readField (s : List Char) : Except Complaint FieldReference :=
  (FieldReference.parse (String.ofList s)).mapError .malformed

/-- Reads a method. -/
def readMethod (s : List Char) : Except Complaint MethodReference :=
  (MethodReference.parse (String.ofList s)).mapError .malformed

/-- Reads a case of a switch: a key, an arrow and a label. -/
def readCase (s : List Char) : Except Complaint (Int32 × String) :=
  match Text.cutAt? ['-', '>'] s with
  | none => .error (.badCase (String.ofList s))
  | some (key, target) =>
    match (Text.integer? (Text.trim key)).bind Text.narrow32? with
    | none => .error (.badCaseKey (String.ofList s))
    | some key => do
      let target ← readLabel (Text.trim target)
      return (key, target)

/-- Reads the cases of a switch. -/
def readCases (s : List Char) : Except Complaint (List (Int32 × String)) :=
  match Text.enclosed? '\x7b' '\x7d' s with
  | none => .error (.notCaseList (String.ofList s))
  | some body => (items body).mapM readCase

/-- An instruction with a single operand. -/
def oneOperand {α : Type} (name : String) (ops : List (List Char))
    (read : List Char → Except Complaint α) : Except Complaint α :=
  match ops with
  | [a] => read a
  | _ => .error (.operandCount name 1 ops.length)

/-- An instruction with two operands. -/
def twoOperands {α : Type} (name : String) (ops : List (List Char))
    (read : List Char → List Char → Except Complaint α) : Except Complaint α :=
  match ops with
  | [a, b] => read a b
  | _ => .error (.operandCount name 2 ops.length)

/-- An instruction with three operands. -/
def threeOperands {α : Type} (name : String) (ops : List (List Char))
    (read : List Char → List Char → List Char → Except Complaint α) : Except Complaint α :=
  match ops with
  | [a, b, c] => read a b c
  | _ => .error (.operandCount name 3 ops.length)

/-- Reads the instructions that compute from two numbers. The second may be written in the name of
the instruction to be the result register, or to be a literal. -/
def readBinary (locals : Nat) (name : String) (ops : List (List Char)) :
    Except Complaint (Instruction String) :=
  let (base, form) := (Text.cutAt? ['/'] name.toList).getD (name.toList, [])
  let parts : Option (BinaryOp × NumberType) := do
    let (op, type) ← Text.cutAt? ['-'] base
    let op ← BinaryOp.ofKeyword? (String.ofList op)
    let type ← NumberType.ofKeyword? (String.ofList type)
    return (op, type)
  match parts with
  | none => .error (.unknownOpcode name)
  | some (op, type) =>
    let form := String.ofList form
    if form = "" then
      threeOperands name ops fun a b c => do
        let dst ← readRegister locals a
        let lhs ← readRegister locals b
        let rhs ← readRegister locals c
        return .binary op type dst lhs (.register rhs)
    else if form = "2addr" then
      twoOperands name ops fun a b => do
        let dst ← readRegister locals a
        let rhs ← readRegister locals b
        return .binary op type dst dst (.register rhs)
    else if (form = "lit" ∨ form = "lit8" ∨ form = "lit16") ∧ type = .int then
      threeOperands name ops fun a b c =>
        match (Text.integer? c).bind Text.narrow32? with
        | none => .error (.literal (.bad (String.ofList c)))
        | some v => do
          let dst ← readRegister locals a
          let lhs ← readRegister locals b
          return .binary op type dst lhs (.literal v)
    else .error (.unknownOpcode name)

/-- Reads the conditional jumps. A comparison with zero has a name that ends in `z`. -/
def readBranch (locals : Nat) (name : String) (condition : List Char) (ops : List (List Char)) :
    Except Complaint (Instruction String) :=
  match Comparison.ofKeyword? (String.ofList condition) with
  | some c =>
    threeOperands name ops fun x y z => do
      let lhs ← readRegister locals x
      let rhs ← readRegister locals y
      let target ← readLabel z
      return .branch c lhs (some rhs) target
  | none =>
    match (Text.dropTail? ['z'] condition).bind fun w => Comparison.ofKeyword? (String.ofList w) with
    | none => .error (.unknownOpcode name)
    | some c =>
      twoOperands name ops fun x y => do
        let lhs ← readRegister locals x
        let target ← readLabel y
        return .branch c lhs none target

/-- Reads the calls. -/
def readInvoke (locals : Nat) (name : String) (kind : List Char) (ops : List (List Char)) :
    Except Complaint (Instruction String) :=
  twoOperands name ops fun x y =>
    match InvokeKind.ofKeyword? (String.ofList kind) with
    | none => .error (.unknownOpcode name)
    | some kind => do
      let args ← readRegisters locals x
      let method ← readMethod y
      return .invoke kind method args

/-- Reads the instructions whose names have parts. -/
def readFamily (locals : Nat) (name : String) (ops : List (List Char)) :
    Except Complaint (Instruction String) :=
  match Text.dropLead? "invoke-".toList name.toList with
  | some kind => readInvoke locals name kind ops
  | none =>
    match Text.dropLead? "if-".toList name.toList with
    | some condition => readBranch locals name condition ops
    | none =>
      match ThreeWay.ofKeyword? name with
      | some kind =>
        threeOperands name ops fun a b c => do
          let dst ← readRegister locals a
          let lhs ← readRegister locals b
          let rhs ← readRegister locals c
          return .compare kind dst lhs rhs
      | none =>
        match UnaryOp.ofKeyword? name with
        | some op =>
          twoOperands name ops fun a b => do
            let dst ← readRegister locals a
            let src ← readRegister locals b
            return .unary op dst src
        | none => readBinary locals name ops

/-- Reads an instruction whose name has been brought into the form that stands for all sizes and
widths. -/
def readInstruction (locals : Nat) (name : String) (ops : List (List Char)) :
    Except Complaint (Instruction String) :=
  let reg := readRegister locals
  match name with
  | "nop" => .ok .nop
  | "return-void" => .ok .returnVoid
  | "const" | "const-wide" | "const-string" | "const-class" =>
    twoOperands name ops fun a b => do
      return .const (← reg a) (← readLiteral b)
  | "move" => twoOperands name ops fun a b => do return .move (← reg a) (← reg b)
  | "move-result" => oneOperand name ops fun a => do return .moveResult (← reg a)
  | "move-exception" => oneOperand name ops fun a => do return .moveException (← reg a)
  | "return" => oneOperand name ops fun a => do return .returnValue (← reg a)
  | "throw" => oneOperand name ops fun a => do return .throw (← reg a)
  | "goto" => oneOperand name ops fun a => do return .goto (← readLabel a)
  | "switch" | "packed-switch" | "sparse-switch" =>
    twoOperands name ops fun a b => do return .switch (← reg a) (← readCases b)
  | "new-instance" => twoOperands name ops fun a b => do return .newInstance (← reg a) (← readType b)
  | "check-cast" => twoOperands name ops fun a b => do return .checkCast (← reg a) (← readType b)
  | "instance-of" =>
    threeOperands name ops fun a b c => do return .instanceOf (← reg a) (← reg b) (← readType c)
  | "new-array" =>
    threeOperands name ops fun a b c => do return .newArray (← reg a) (← reg b) (← readType c)
  | "array-length" => twoOperands name ops fun a b => do return .arrayLength (← reg a) (← reg b)
  | "aget" => threeOperands name ops fun a b c => do return .arrayGet (← reg a) (← reg b) (← reg c)
  | "aput" => threeOperands name ops fun a b c => do return .arrayPut (← reg a) (← reg b) (← reg c)
  | "fill-array-data" =>
    twoOperands name ops fun a b =>
      match Text.enclosed? '[' ']' b with
      | none => .error (.notElementList (String.ofList b))
      | some body => do
        return .fillArray (← reg a) (← (items body).mapM readLiteral)
  | "iget" =>
    threeOperands name ops fun a b c => do
      return .fieldGet (← reg a) (some (← reg b)) (← readField c)
  | "iput" =>
    threeOperands name ops fun a b c => do
      return .fieldPut (← reg a) (some (← reg b)) (← readField c)
  | "sget" => twoOperands name ops fun a b => do return .fieldGet (← reg a) none (← readField b)
  | "sput" => twoOperands name ops fun a b => do return .fieldPut (← reg a) none (← readField b)
  | _ => readFamily locals name ops

/-- Reads the line of an instruction: its name, and its operands after the first blank. -/
def readLine (locals : Nat) (line : List Char) : Except Complaint (Instruction String) :=
  let (name, rest) := (Text.cutWhere? Text.isBlank line).getD (line, [])
  readInstruction locals (String.ofList (canonical name)) (operands (Text.trim rest))

end Dalvik.Listing
