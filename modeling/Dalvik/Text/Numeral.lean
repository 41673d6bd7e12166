import Dalvik.Text.Split

/-!
Written integers: runs of digits, signed numbers of a fixed width, and the integer notation of
listings, which takes decimal and hexadecimal digits by different overflow rules.
-/

namespace Dalvik.Text

/-- The value of a decimal digit or of a letter from `a` to `f` in either case. -/
def hexDigitValue? (c : Char) : Option Nat :=
  if '0' ≤ c ∧ c ≤ '9' then some (c.toNat - 48)
  else if 'a' ≤ c ∧ c ≤ 'f' then some (c.toNat - 87)
  else if 'A' ≤ c ∧ c ≤ 'F' then some (c.toNat - 55)
  else none

/-- The number that is written by a run of hexadecimal digits that follows digits of value `n`. -/
def hexFrom? (n : Nat) : List Char → Option Nat
  | [] => some n
  | c :: r => (hexDigitValue? c).bind fun d => hexFrom? (16 * n + d) r

/-- The number that is written by a run of at least one hexadecimal digit. -/
def hex? (s : List Char) : Option Nat :=
  if s.isEmpty then none else hexFrom? 0 s

/-- The number that is written by a run of at least one decimal digit. -/
def decimal? (s : List Char) : Option Nat :=
  if s.isEmpty || !s.all Char.isDigit then none else some (Nat.ofDigitChars 10 s 0)

/-- A text without one plus sign at its start. -/
def dropPlus : List Char → List Char
  | '+' :: r => r
  | s => s

/-- A decimal number below `bound`, which may carry a plus sign. -/
def unsigned? (bound : Nat) (s : List Char) : Option Nat :=
  (decimal? (dropPlus s)).filter (· < bound)

/-- A decimal number of the signed 32-bit range, which may carry a sign. -/
def int32? (s : List Char) : Option Int32 :=
  let value : Option Int :=
    match s with
    | '-' :: r => (decimal? r).map fun n => -(n : Int)
    | _ => (decimal? (dropPlus s)).map Int.ofNat
  (value.filter fun v => Int32.minValue.toInt ≤ v && v ≤ Int32.maxValue.toInt).map Int32.ofInt

/-- The magnitude of an integer in a listing. Hexadecimal digits after `0x` name any 64-bit pattern;
decimal digits name a number that is not negative in 64 bits. -/
def magnitude? (s : List Char) : Option Int64 :=
  match dropLead? "0x".toList s with
  | some digits => ((hex? digits).filter (· < 0x10000000000000000)).map Int64.ofNat
  | none => ((decimal? s).filter (· < 0x8000000000000000)).map Int64.ofNat

/-- An integer in a listing: a magnitude, negated in 64 bits if a minus sign stands before it. -/
def integer? : List Char → Option Int64
  | '-' :: r => (magnitude? r).map fun m => -m
  | s => magnitude? s

/-- The signed 32-bit reading of an integer of a listing that fits into that range. -/
def narrow32? (v : Int64) : Option Int32 :=
  if Int32.minValue.toInt ≤ v.toInt ∧ v.toInt ≤ Int32.maxValue.toInt then some v.toInt32 else none

/-- The hexadecimal digit of a number below sixteen, in lower case. -/
def hexDigit (n : Nat) : Char :=
  Nat.digitChar (n % 16)

/-- The four hexadecimal digits of a 16-bit number. -/
def hex4 (n : Nat) : List Char :=
  [hexDigit (n / 4096), hexDigit (n / 256), hexDigit (n / 16), hexDigit n]

end Dalvik.Text
