import Dalvik.Comparison

/-!
The operations of instructions, with the words for them in the names of instructions.
-/

namespace Dalvik

/-- The number of a register. -/
abbrev Register := Nat

/-- Registers are numbered and counted in sixteen bits. -/
def Register.limit : Nat := 0x10000

/-- The instructions that compare two numbers with a number as the result. -/
inductive ThreeWay where
  | cmplFloat
  | cmpgFloat
  | cmplDouble
  | cmpgDouble
  | cmpLong
  deriving DecidableEq, Repr

namespace ThreeWay

def all : List ThreeWay := [cmplFloat, cmpgFloat, cmplDouble, cmpgDouble, cmpLong]

/-- The name of the instruction. -/
def keyword : ThreeWay → String
  | cmplFloat => "cmpl-float"
  | cmpgFloat => "cmpg-float"
  | cmplDouble => "cmpl-double"
  | cmpgDouble => "cmpg-double"
  | cmpLong => "cmp-long"

/-- The comparison with a given name. -/
def ofKeyword? (word : String) : Option ThreeWay :=
  all.find? fun k => k.keyword = word

/-- The result for operands that are not ordered. -/
def bias : ThreeWay → Int32
  | cmplFloat => -1
  | cmplDouble => -1
  | cmpgFloat => 1
  | cmpgDouble => 1
  | cmpLong => 0

/-- The type that the operands are read as. -/
def operand : ThreeWay → Descriptor
  | cmplFloat => .float
  | cmpgFloat => .float
  | cmplDouble => .double
  | cmpgDouble => .double
  | cmpLong => .long

end ThreeWay

/-- The operations on one number. -/
inductive UnaryOp where
  | negInt
  | notInt
  | negLong
  | notLong
  | negFloat
  | negDouble
  | intToLong
  | intToFloat
  | intToDouble
  | longToInt
  | longToFloat
  | longToDouble
  | floatToInt
  | floatToLong
  | floatToDouble
  | doubleToInt
  | doubleToLong
  | doubleToFloat
  | intToByte
  | intToChar
  | intToShort
  deriving DecidableEq, Repr

namespace UnaryOp

def all : List UnaryOp :=
  [negInt, notInt, negLong, notLong, negFloat, negDouble, intToLong, intToFloat, intToDouble,
    longToInt, longToFloat, longToDouble, floatToInt, floatToLong, floatToDouble, doubleToInt,
    doubleToLong, doubleToFloat, intToByte, intToChar, intToShort]

/-- The name of the instruction. -/
def keyword : UnaryOp → String
  | negInt => "neg-int"
  | notInt => "not-int"
  | negLong => "neg-long"
  | notLong => "not-long"
  | negFloat => "neg-float"
  | negDouble => "neg-double"
  | intToLong => "int-to-long"
  | intToFloat => "int-to-float"
  | intToDouble => "int-to-double"
  | longToInt => "long-to-int"
  | longToFloat => "long-to-float"
  | longToDouble => "long-to-double"
  | floatToInt => "float-to-int"
  | floatToLong => "float-to-long"
  | floatToDouble => "float-to-double"
  | doubleToInt => "double-to-int"
  | doubleToLong => "double-to-long"
  | doubleToFloat => "double-to-float"
  | intToByte => "int-to-byte"
  | intToChar => "int-to-char"
  | intToShort => "int-to-short"

/-- The operation with a given name. -/
def ofKeyword? (word : String) : Option UnaryOp :=
  all.find? fun op => op.keyword = word

/-- The type that the operand is read as. -/
def source : UnaryOp → Descriptor
  | negInt | notInt | intToLong | intToFloat | intToDouble | intToByte | intToChar
  | intToShort => .int
  | negLong | notLong | longToInt | longToFloat | longToDouble => .long
  | negFloat | floatToInt | floatToLong | floatToDouble => .float
  | negDouble | doubleToInt | doubleToLong | doubleToFloat => .double

/-- The type of the result. -/
def target : UnaryOp → Descriptor
  | negInt | notInt | longToInt | floatToInt | doubleToInt => .int
  | negLong | notLong | intToLong | floatToLong | doubleToLong => .long
  | negFloat | intToFloat | longToFloat | doubleToFloat => .float
  | negDouble | intToDouble | longToDouble | floatToDouble => .double
  | intToByte => .byte
  | intToChar => .char
  | intToShort => .short

end UnaryOp

/-- The operations on two numbers. -/
inductive BinaryOp where
  | add
  | sub
  | mul
  | div
  | rem
  | and
  | or
  | xor
  | shl
  | shr
  | ushr
  deriving DecidableEq, Repr

namespace BinaryOp

def all : List BinaryOp := [add, sub, mul, div, rem, and, or, xor, shl, shr, ushr]

/-- The word for the operation in the names of instructions. -/
def keyword : BinaryOp → String
  | add => "add"
  | sub => "sub"
  | mul => "mul"
  | div => "div"
  | rem => "rem"
  | and => "and"
  | or => "or"
  | xor => "xor"
  | shl => "shl"
  | shr => "shr"
  | ushr => "ushr"

/-- The operation that a word names. -/
def ofKeyword? (word : String) : Option BinaryOp :=
  all.find? fun op => op.keyword = word

/-- The operations whose second operand is a distance. -/
def isShift : BinaryOp → Bool
  | shl | shr | ushr => true
  | _ => false

/-- The operations that a zero as the second operand leaves without a result. -/
def isDivision : BinaryOp → Bool
  | div | rem => true
  | _ => false

end BinaryOp

/-- The types of arithmetic. -/
inductive NumberType where
  | int
  | long
  | float
  | double
  deriving DecidableEq, Repr

namespace NumberType

def all : List NumberType := [int, long, float, double]

/-- The word for the type in the names of instructions. -/
def keyword : NumberType → String
  | int => "int"
  | long => "long"
  | float => "float"
  | double => "double"

/-- The type that a word names. -/
def ofKeyword? (word : String) : Option NumberType :=
  all.find? fun t => t.keyword = word

/-- The descriptor of the type. -/
def descriptor : NumberType → Descriptor
  | int => .int
  | long => .long
  | float => .float
  | double => .double

/-- The types in which division by zero throws. -/
def isIntegral : NumberType → Bool
  | int | long => true
  | _ => false

end NumberType

/-- The second operand of an arithmetic instruction. -/
inductive Operand where
  | register (r : Register)
  | literal (v : Int32)
  deriving DecidableEq, Repr

/-- How a call chooses the method that it runs. -/
inductive InvokeKind where
  | virtual
  | super
  | direct
  | static
  | interface
  deriving DecidableEq, Repr

namespace InvokeKind

def all : List InvokeKind := [virtual, super, direct, static, interface]

/-- The word for the kind in the names of instructions. -/
def keyword : InvokeKind → String
  | virtual => "virtual"
  | super => "super"
  | direct => "direct"
  | static => "static"
  | interface => "interface"

/-- The kind that a word names. -/
def ofKeyword? (word : String) : Option InvokeKind :=
  all.find? fun k => k.keyword = word

end InvokeKind

end Dalvik
