import Dalvik.Text.Numeral
import Dalvik.Text.Utf16

/-!
Quoted text. A backslash starts an escape; what is not a printable ASCII character is written by the
hexadecimal digits of its code units, so that a quoted text is ASCII whatever it holds.
-/

namespace Dalvik.Text

/-- A printable ASCII character, the space included. -/
def isPlain (c : Char) : Bool :=
  ' ' ≤ c && c ≤ '~'

/-- A code unit by its number. -/
def escapeUnit (u : UInt16) : List Char :=
  '\\' :: 'u' :: hex4 u.toNat

/-- How a character is written between double quotes. -/
def escapeChar (c : Char) : List Char :=
  if c = '"' then ['\\', '"']
  else if c = '\\' then ['\\', '\\']
  else if c = '\n' then ['\\', 'n']
  else if c = '\t' then ['\\', 't']
  else if c = '\r' then ['\\', 'r']
  else if isPlain c then [c]
  else (unitsOfChar c).flatMap escapeUnit

/-- A text between double quotes. -/
def quote (s : List Char) : List Char :=
  '"' :: s.flatMap escapeChar ++ ['"']

/-- A single code unit between single quotes. -/
def quoteUnit (u : UInt16) : List Char :=
  if u.toNat = '\''.toNat then ['\'', '\\', '\'', '\'']
  else if u.toNat = '\\'.toNat then ['\'', '\\', '\\', '\'']
  else if isPlain (Char.ofNat u.toNat) then ['\'', Char.ofNat u.toNat, '\'']
  else '\'' :: escapeUnit u ++ ['\'']

/-- Why a quoted text cannot be read. -/
inductive EscapeError where
  /-- The letter after a backslash names no escape; a blank stands for a missing one. -/
  | badEscape (letter : Char)
  /-- The up to four characters after `\u` are no hexadecimal number. -/
  | badUnit (digits : String)
  deriving DecidableEq, Repr

/-- The code unit that the up to four characters after `\u` name. A plus sign may stand first. -/
def readUnit (digits : List Char) : Except EscapeError UInt16 :=
  match hex? (dropPlus digits) with
  | some n => .ok (UInt16.ofNat n)
  | none => .error (.badUnit (String.ofList digits))

/-- The code unit that a letter after a backslash stands for, the digits form left out. -/
def escapedUnit? (letter : Char) : Option UInt16 :=
  if letter = 'n' then some 10
  else if letter = 't' then some 9
  else if letter = 'r' then some 13
  else if letter = '0' then some 0
  else if letter = '"' || letter = '\'' || letter = '\\' then some (UInt16.ofNat letter.toNat)
  else none

/-- The code units that the text between two quotes stands for. The digits of a unit end early where
the text does. -/
def unescape : List Char → Except EscapeError (List UInt16)
  | [] => .ok []
  | ['\\'] => .error (.badEscape ' ')
  | '\\' :: 'u' :: a :: b :: c :: d :: r => do
    let unit ← readUnit [a, b, c, d]
    let rest ← unescape r
    return unit :: rest
  | '\\' :: 'u' :: digits => do
    let unit ← readUnit digits
    return [unit]
  | '\\' :: letter :: r =>
    match escapedUnit? letter with
    | none => .error (.badEscape letter)
    | some unit => do
      let rest ← unescape r
      return unit :: rest
  | c :: r => do
    let rest ← unescape r
    return unitsOfChar c ++ rest

end Dalvik.Text
