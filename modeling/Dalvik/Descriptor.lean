import Dalvik.Text.Split

/-!
Type descriptors. A descriptor is a text; the grammar of descriptors is stated by the functions that
read one from the start of a text, and only readers ask for it.
-/

namespace Dalvik

/-- The text that names a type, such as `I`, `[B` or `Ljava/lang/String;`. -/
structure Descriptor where
  text : String
  deriving DecidableEq, Repr

namespace Descriptor

def boolean : Descriptor := ⟨"Z"⟩
def byte : Descriptor := ⟨"B"⟩
def short : Descriptor := ⟨"S"⟩
def char : Descriptor := ⟨"C"⟩
def int : Descriptor := ⟨"I"⟩
def long : Descriptor := ⟨"J"⟩
def float : Descriptor := ⟨"F"⟩
def double : Descriptor := ⟨"D"⟩
def void : Descriptor := ⟨"V"⟩
def object : Descriptor := ⟨"Ljava/lang/Object;"⟩
def string : Descriptor := ⟨"Ljava/lang/String;"⟩
def classObject : Descriptor := ⟨"Ljava/lang/Class;"⟩
def integerBox : Descriptor := ⟨"Ljava/lang/Integer;"⟩
def reflectedMethod : Descriptor := ⟨"Ljava/lang/reflect/Method;"⟩
def throwable : Descriptor := ⟨"Ljava/lang/Throwable;"⟩
def anyException : Descriptor := ⟨"Ljava/lang/Exception;"⟩
def runtimeException : Descriptor := ⟨"Ljava/lang/RuntimeException;"⟩
def arithmeticException : Descriptor := ⟨"Ljava/lang/ArithmeticException;"⟩
def nullPointerException : Descriptor := ⟨"Ljava/lang/NullPointerException;"⟩
def indexException : Descriptor := ⟨"Ljava/lang/ArrayIndexOutOfBoundsException;"⟩
def negativeSizeException : Descriptor := ⟨"Ljava/lang/NegativeArraySizeException;"⟩
def classCastException : Descriptor := ⟨"Ljava/lang/ClassCastException;"⟩
def numberFormatException : Descriptor := ⟨"Ljava/lang/NumberFormatException;"⟩
def classNotFoundException : Descriptor := ⟨"Ljava/lang/ClassNotFoundException;"⟩

/-- The letters of the primitive types. -/
def isPrimitiveLetter (c : Char) : Bool :=
  c = 'Z' || c = 'B' || c = 'S' || c = 'C' || c = 'I' || c = 'J' || c = 'F' || c = 'D'

def isVoid (d : Descriptor) : Bool := d = void

/-- The types of numbers and truth values. -/
def isPrimitive (d : Descriptor) : Bool :=
  match d.text.toList with
  | [c] => isPrimitiveLetter c
  | _ => false

/-- The primitive types of 64 bits. -/
def isWide (d : Descriptor) : Bool := d = long || d = double

def isArray (d : Descriptor) : Bool := d.text.toList.head? = some '['

/-- The types of references: arrays and classes. -/
def isReference (d : Descriptor) : Bool := d.isArray || d.text.toList.head? = some 'L'

/-- The type of the elements of an array type. -/
def element? (d : Descriptor) : Option Descriptor :=
  (Text.dropLead? ['['] d.text.toList).map fun r => ⟨String.ofList r⟩

/-- The type of the elements of an array type, where every other type is taken to hold objects. -/
def elementOrObject (d : Descriptor) : Descriptor := d.element?.getD object

/-- The type of arrays with elements of a given type. -/
def arrayOf (d : Descriptor) : Descriptor := ⟨"[" ++ d.text⟩

/-- A text with one character in place of another. -/
def substitute (old new : Char) (s : List Char) : List Char :=
  s.map fun c => if c = old then new else c

/-- The descriptor of the type with a given binary name. A binary name has dots where a descriptor
has slashes, and of the names of classes only those of arrays are marked. -/
def ofBinaryName (name : String) : Descriptor :=
  let s := substitute '.' '/' name.toList
  if s.head? = some '[' then ⟨String.ofList s⟩ else ⟨String.ofList ('L' :: s ++ [';'])⟩

/-- The binary name of a type. What is no class descriptor stays as it is but for the slashes. -/
def binaryName (d : Descriptor) : String :=
  let s := d.text.toList
  String.ofList (substitute '/' '.' ((Text.enclosed? 'L' ';' s).getD s))

/-- The descriptor of a type other than void at the start of a text, and the rest. The name of a
class ends at the first semicolon. -/
def readType? : List Char → Option (List Char × List Char)
  | [] => none
  | c :: r =>
    if c = '[' then (readType? r).map fun d => ('[' :: d.1, d.2)
    else if isPrimitiveLetter c then some ([c], r)
    else if c = 'L' then (Text.cutAt? [';'] r).map fun d => ('L' :: d.1 ++ [';'], d.2)
    else none

/-- The descriptor that is a whole text, void included. -/
def read? (s : List Char) : Option Descriptor :=
  if s = ['V'] then some void
  else
    match readType? s with
    | some (d, []) => some ⟨String.ofList d⟩
    | _ => none

/-- The descriptor that is a whole text. -/
def parse? (s : String) : Option Descriptor := read? s.toList

/-- The descriptors before a closing parenthesis, and what follows it. Each takes at least one
character, so that `count` is no bound if it is at least the length of the text. -/
def readParameters? : Nat → List Char → Option (List Descriptor × List Char)
  | 0, _ => none
  | count + 1, s =>
    match s with
    | ')' :: r => some ([], r)
    | _ => do
      let (d, rest) ← readType? s
      let (ds, rest) ← readParameters? count rest
      return (⟨String.ofList d⟩ :: ds, rest)

/-- The parameter types in parentheses and the result type that are a whole text. -/
def readPrototype? (s : List Char) : Option (List Descriptor × Descriptor) := do
  let r ← Text.dropLead? ['('] s
  let (params, rest) ← readParameters? r.length r
  let ret ← read? rest
  return (params, ret)

end Descriptor

end Dalvik
