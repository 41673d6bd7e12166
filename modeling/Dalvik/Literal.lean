import Dalvik.Floating.Decimal
import Dalvik.Reference
import Dalvik.Text.Quoted

/-!
Constants that one instruction can load, how they are written and how they are read. The kinds are
told apart by their first characters or by a letter at their end.
-/

namespace Dalvik

/-- A constant that one instruction can load. -/
inductive Literal where
  | int (v : Int32)
  | long (v : Int64)
  | float (v : Single)
  | double (v : Double)
  | boolean (v : Bool)
  | char (v : UInt16)
  | short (v : Int16)
  | byte (v : Int8)
  | null
  | string (v : String)
  | type (d : Descriptor)
  deriving DecidableEq, Repr

/-- Why a text is no literal. -/
inductive LiteralError where
  | bad (text : String)
  | escape (e : Text.EscapeError)
  | malformed (e : Malformed)
  /-- The text is of no other kind and its last character, which would have to be the letter of a
  kind, takes more than one byte. -/
  | wideSuffix (text : String)
  deriving DecidableEq, Repr

/-- The wording of an escape that cannot be read. -/
def Text.EscapeError.message : Text.EscapeError → String
  | badEscape letter => "bad escape `\\" ++ String.singleton letter ++ "`"
  | badUnit digits => "bad unicode escape `\\u" ++ digits ++ "`"

namespace LiteralError

/-- The wording of an error. -/
def message : LiteralError → String
  | bad text => s!"bad literal `{text}`"
  | escape e => e.message
  | malformed e => e.message
  | wideSuffix text => s!"bad literal `{text}`"

end LiteralError

namespace Literal

/-- Literals of 64 bits. -/
def isWide : Literal → Bool
  | long _ => true
  | double _ => true
  | _ => false

/-- The name of the instruction that loads the literal. -/
def opcode : Literal → String
  | long _ => "const-wide"
  | double _ => "const-wide"
  | string _ => "const-string"
  | type _ => "const-class"
  | _ => "const"

/-- The type of the literal. -/
def descriptor : Literal → Descriptor
  | int _ => .int
  | long _ => .long
  | float _ => .float
  | double _ => .double
  | boolean _ => .boolean
  | char _ => .char
  | short _ => .short
  | byte _ => .byte
  | null => .object
  | string _ => .string
  | type _ => .classObject

/-- How the literal is written. -/
def text : Literal → String
  | int v => toString v.toInt
  | long v => toString v.toInt ++ "L"
  | float v => v.text ++ "f"
  | double v => v.text ++ "d"
  | boolean v => if v then "true" else "false"
  | char v => String.ofList (Text.quoteUnit v)
  | short v => toString v.toInt ++ "s"
  | byte v => toString v.toInt ++ "t"
  | null => "null"
  | string v => String.ofList (Text.quote v.toList)
  | type d => d.text

/-- The literal that stands between double quotes. -/
def readString (text : String) (body : List Char) : Except LiteralError Literal :=
  match Text.unescape body with
  | .error e => .error (.escape e)
  | .ok units =>
    match Text.ofUtf16? units with
    | some s => .ok (.string (String.ofList s))
    | none => .error (.bad text)

/-- The literal that stands between single quotes, a single code unit. -/
def readChar (text : String) (body : List Char) : Except LiteralError Literal :=
  match Text.unescape body with
  | .error e => .error (.escape e)
  | .ok [unit] => .ok (.char unit)
  | .ok _ => .error (.bad text)

/-- The 32-bit pattern of an integer that fits into 32 bits, with or without a sign bit. -/
def ofInteger? (v : Int64) : Option Literal :=
  if Int32.minValue.toInt ≤ v.toInt ∧ v.toInt < 0x100000000 then some (int v.toInt32) else none

/-- The literal of the kind that the letter `suffix` names. -/
def ofSuffix? (body : List Char) (suffix : Char) : Option Literal :=
  if suffix = 'L' then (Text.integer? body).map long
  else if suffix = 's' then
    (Text.integer? body).bind fun v =>
      if Int16.minValue.toInt ≤ v.toInt ∧ v.toInt ≤ Int16.maxValue.toInt then
        some (short v.toInt16)
      else none
  else if suffix = 't' then
    (Text.integer? body).bind fun v =>
      if Int8.minValue.toInt ≤ v.toInt ∧ v.toInt ≤ Int8.maxValue.toInt then some (byte v.toInt8)
      else none
  else if suffix = 'f' then (Floating.read? body).map float
  else if suffix = 'd' then (Floating.read? body).map double
  else none

/-- A number or a text that ends in the letter of its kind. -/
def readNumber (text : String) (s : List Char) : Except LiteralError Literal :=
  match Text.integer? s with
  | some v =>
    match ofInteger? v with
    | some l => .ok l
    | none => .error (.bad text)
  | none =>
    match s.getLast? with
    | none => .error (.bad text)
    | some suffix =>
      if 0x80 ≤ suffix.toNat then .error (.wideSuffix text)
      else
        match ofSuffix? s.dropLast suffix with
        | some l => .ok l
        | none => .error (.bad text)

/-- Reads a literal. -/
def read (s : List Char) : Except LiteralError Literal :=
  let text := String.ofList s
  if s = "null".toList then .ok null
  else if s = "true".toList then .ok (boolean true)
  else if s = "false".toList then .ok (boolean false)
  else
    match Text.enclosed? '"' '"' s with
    | some body => readString text body
    | none =>
      match Text.enclosed? '\'' '\'' s with
      | some body => readChar text body
      | none =>
        if s.head? = some 'L' ∨ s.head? = some '[' then
          match Descriptor.parse text with
          | .ok d => .ok (type d)
          | .error e => .error (.malformed e)
        else readNumber text s

/-- Reads a literal. -/
def parse (text : String) : Except LiteralError Literal := read text.toList

end Literal

end Dalvik
