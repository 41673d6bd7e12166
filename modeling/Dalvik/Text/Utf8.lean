import Dalvik.Text.Utf16

/-!
Bytes read as a text. Each maximal beginning of a character that is not completed, and each byte
that can begin none, is read as one replacement character.
-/

namespace Dalvik.Text

/-- What may follow the first byte of a character: the bounds of the second byte, and how many
further bytes there are after the second. -/
structure Continuation where
  low : Nat
  high : Nat
  further : Nat

/-- The continuation that the first byte of a character of several bytes asks for. The bounds of
the second byte leave out overlong forms, surrogates and numbers beyond the last code point. -/
def continuation? (b : Nat) : Option Continuation :=
  if 0xC2 ≤ b ∧ b ≤ 0xDF then some ⟨0x80, 0xBF, 0⟩
  else if b = 0xE0 then some ⟨0xA0, 0xBF, 1⟩
  else if b = 0xED then some ⟨0x80, 0x9F, 1⟩
  else if 0xE1 ≤ b ∧ b ≤ 0xEF then some ⟨0x80, 0xBF, 1⟩
  else if b = 0xF0 then some ⟨0x90, 0xBF, 2⟩
  else if 0xF1 ≤ b ∧ b ≤ 0xF3 then some ⟨0x80, 0xBF, 2⟩
  else if b = 0xF4 then some ⟨0x80, 0x8F, 2⟩
  else none

/-- The bits of the code point that the first byte of a character of several bytes carries. -/
def leadBits (b : Nat) : Nat :=
  if b < 0xE0 then b % 0x20 else if b < 0xF0 then b % 0x10 else b % 0x08

/-- Reads bytes as a text. `pending` is the continuation that the character in progress still asks
for, with the bits of its code point so far. -/
def utf8From (pending : Option (Continuation × Nat)) : List UInt8 → List Char
  | [] => if pending.isSome then [replacement] else []
  | b :: r =>
    let n := b.toNat
    match pending.filter fun p => p.1.low ≤ n && n ≤ p.1.high with
    | some (next, bits) =>
      let bits := bits * 0x40 + n % 0x40
      match next.further with
      | 0 => Char.ofNat bits :: utf8From none r
      | further + 1 => utf8From (some (⟨0x80, 0xBF, further⟩, bits)) r
    | none =>
      let cut := if pending.isSome then [replacement] else []
      if n < 0x80 then cut ++ Char.ofNat n :: utf8From none r
      else match continuation? n with
        | some next => cut ++ utf8From (some (next, leadBits n)) r
        | none => cut ++ replacement :: utf8From none r

/-- The text that bytes spell, with replacement characters for what spells nothing. -/
def ofUtf8Lossy (bytes : List UInt8) : List Char :=
  utf8From none bytes

end Dalvik.Text
