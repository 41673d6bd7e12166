import Dalvik.Instruction

/-!
How instructions are written. Registers are named by a function, because the name of a parameter
register depends on how many local registers a method has.
-/

namespace Dalvik

/-- The name of a register by its number alone. -/
def Register.plainName (r : Register) : String := "v" ++ toString r

/-- The name of a register in a method with a number of local registers. Those above them are named
as parameters. -/
def Register.name (locals : Nat) (r : Register) : String :=
  if locals ≤ r then "p" ++ toString (r - locals) else Register.plainName r

/-- The label that stands for an address. -/
def Address.label (a : Address) : String := ":addr_" ++ toString a

namespace Operand

/-- How an operand is written. -/
def text (name : Register → String) : Operand → String
  | register r => name r
  | literal v => toString v.toInt

end Operand

namespace Instruction

/-- A list of items in braces. -/
def braced (items : List String) : String := "\x7b" ++ Text.separated ", " items ++ "\x7d"

/-- A list of items in brackets. -/
def bracketed (items : List String) : String := "[" ++ Text.separated ", " items ++ "]"

/-- How a case of a switch is written. -/
def caseText (c : Int32 × Address) : String := toString c.1.toInt ++ " -> " ++ Address.label c.2

/-- The operands of an instruction, as they are written. -/
def operandTexts (name : Register → String) : Instruction Address → List String
  | nop | returnVoid => []
  | const dst v => [name dst, v.text]
  | move dst src | unary _ dst src => [name dst, name src]
  | moveResult r | moveException r | returnValue r | throw r => [name r]
  | goto t => [Address.label t]
  | branch _ lhs rhs t => name lhs :: (rhs.toList.map name ++ [Address.label t])
  | switch src cases => [name src, braced (cases.map caseText)]
  | compare _ dst lhs rhs => [name dst, name lhs, name rhs]
  | binary _ _ dst lhs rhs => [name dst, name lhs, rhs.text name]
  | newInstance r d | checkCast r d => [name r, d.text]
  | instanceOf dst src d | newArray dst src d => [name dst, name src, d.text]
  | arrayLength dst a => [name dst, name a]
  | arrayGet r a i | arrayPut r a i => [name r, name a, name i]
  | fillArray a data => [name a, bracketed (data.map Literal.text)]
  | fieldGet r o fld | fieldPut r o fld => name r :: (o.toList.map name ++ [fld.text])
  | invoke _ m args => [braced (args.map name), m.text]

/-- How an instruction is written. -/
def text (name : Register → String) (i : Instruction Address) : String :=
  match operandTexts name i with
  | [] => i.opcode
  | operands => i.opcode ++ " " ++ Text.separated ", " operands

/-- How an instruction is written with every register named by its number alone. -/
def plainText (i : Instruction Address) : String := i.text Register.plainName

end Instruction

end Dalvik
