/-!
Code units of sixteen bits: the units of a character and of a text, and the text that a sequence of
units spells, refusing or replacing units that pair with nothing.
-/

namespace Dalvik.Text

/-- The one or two code units of a character. -/
def unitsOfChar (c : Char) : List UInt16 :=
  if c.toNat < 0x10000 then [UInt16.ofNat c.toNat]
  else [UInt16.ofNat (0xD800 + (c.toNat - 0x10000) / 0x400),
    UInt16.ofNat (0xDC00 + (c.toNat - 0x10000) % 0x400)]

/-- The code units of a text. -/
def utf16 (s : List Char) : List UInt16 :=
  s.flatMap unitsOfChar

/-- A unit that has to be followed by a low surrogate. -/
def isHighSurrogate (u : UInt16) : Bool :=
  0xD800 ≤ u.toNat && u.toNat < 0xDC00

/-- A unit that has to follow a high surrogate. -/
def isLowSurrogate (u : UInt16) : Bool :=
  0xDC00 ≤ u.toNat && u.toNat < 0xE000

/-- The character of a surrogate pair. -/
def charOfPair (high low : UInt16) : Char :=
  Char.ofNat (0x10000 + (high.toNat - 0xD800) * 0x400 + (low.toNat - 0xDC00))

/-- What a sequence of code units spells, item by item: a character, or nothing for a surrogate
that has no partner. -/
def decodeUnits : List UInt16 → List (Option Char)
  | [] => []
  | [u] => [if isHighSurrogate u || isLowSurrogate u then none else some (Char.ofNat u.toNat)]
  | u :: v :: r =>
    if isHighSurrogate u then
      if isLowSurrogate v then some (charOfPair u v) :: decodeUnits r
      else none :: decodeUnits (v :: r)
    else if isLowSurrogate u then none :: decodeUnits (v :: r)
    else some (Char.ofNat u.toNat) :: decodeUnits (v :: r)

/-- The text that code units spell, if every surrogate has its partner. -/
def ofUtf16? (units : List UInt16) : Option (List Char) :=
  (decodeUnits units).mapM id

/-- The character that stands for what cannot be read. -/
def replacement : Char := '\uFFFD'

/-- The text that code units spell, with a replacement character for each lone surrogate. -/
def ofUtf16Lossy (units : List UInt16) : List Char :=
  (decodeUnits units).map fun c => c.getD replacement

end Dalvik.Text
