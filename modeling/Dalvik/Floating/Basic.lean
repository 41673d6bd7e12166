/-!
Binary floating point by bit patterns. A value is its pattern, so that two values are equal exactly
when their bits are, whatever kind of number they hold; the number itself is read off by `view`, and
every number that is computed is rounded once, to the nearest pattern, ties to the even one.
-/

namespace Dalvik

/-- A binary interchange format: how many bits store the fraction and how many the exponent. -/
structure Format where
  fraction : Nat
  exponent : Nat
  deriving DecidableEq, Repr

namespace Format

/-- The format of 32 bits. -/
abbrev single : Format := ⟨23, 8⟩

/-- The format of 64 bits. -/
abbrev double : Format := ⟨52, 11⟩

/-- All bits of a pattern but the sign. -/
abbrev magnitudeWidth (f : Format) : Nat := f.exponent + f.fraction

/-- All bits of a pattern. -/
abbrev width (f : Format) : Nat := 1 + f.magnitudeWidth

/-- The binary exponent of the last place of the smallest numbers. -/
def minExponent (f : Format) : Int :=
  2 - (1 <<< (f.exponent - 1) : Nat) - f.fraction

/-- The pattern of infinity without its sign. The patterns above it stand for no number. -/
def infinity (f : Format) : Nat :=
  (1 <<< f.exponent - 1) <<< f.fraction

/-- The bit that tells a quiet pattern from a signalling one among those that stand for no number. -/
def quietBit (f : Format) : Nat :=
  1 <<< (f.fraction - 1)

end Format

/-- A floating point value of a format, by its bits. -/
structure Floating (f : Format) where
  bits : BitVec f.width
  deriving DecidableEq, Repr

/-- A floating point value of 32 bits. -/
abbrev Single := Floating .single

/-- A floating point value of 64 bits. -/
abbrev Double := Floating .double

namespace Floating

variable {f : Format}

/-- What a pattern stands for. A finite number is `m * 2 ^ q` with a sign in front, zero included. -/
inductive View where
  | nan
  | infinite (negative : Bool)
  | finite (negative : Bool) (m : Nat) (q : Int)
  deriving DecidableEq, Repr

/-- The sign bit. -/
def negative (x : Floating f) : Bool :=
  x.bits.msb

/-- The pattern without its sign. -/
def magnitude (x : Floating f) : Nat :=
  (x.bits.setWidth f.magnitudeWidth).toNat

/-- The value with a given sign and pattern. -/
def ofMagnitude (negative : Bool) (n : Nat) : Floating f :=
  ⟨BitVec.ofNat f.width ((if negative then 1 <<< f.magnitudeWidth else 0) + n)⟩

/-- Zero, which has two patterns. -/
def zero (negative : Bool) : Floating f := ofMagnitude negative 0

/-- Infinity. -/
def infinity (negative : Bool) : Floating f := ofMagnitude negative f.infinity

/-- The pattern that an operation without a result gives. -/
def invalid : Floating f := ofMagnitude true (f.infinity + f.quietBit)

/-- The pattern that the written word for no number gives. -/
def nan (negative : Bool) : Floating f := ofMagnitude negative (f.infinity + f.quietBit)

/-- What the pattern stands for. -/
def view (x : Floating f) : View :=
  let n := x.magnitude
  if f.infinity < n then .nan
  else if n = f.infinity then .infinite x.negative
  else
    let biased := n >>> f.fraction
    let fraction := n % 1 <<< f.fraction
    if biased = 0 then .finite x.negative fraction f.minExponent
    else .finite x.negative (1 <<< f.fraction + fraction) (f.minExponent + biased - 1)

/-- Whether the pattern stands for no number. -/
def isNaN (x : Floating f) : Bool :=
  f.infinity < x.magnitude

/-- A pattern that stands for no number, made quiet. -/
def quiet (x : Floating f) : Floating f :=
  ofMagnitude x.negative (x.magnitude ||| f.quietBit)

/-- The nearest integer to a quotient; of two that are equally near, the even one. -/
def roundQuotient (num den : Nat) : Nat :=
  let n := num / den
  let twice := 2 * (num % den)
  if den < twice ∨ (twice = den ∧ n % 2 = 1) then n + 1 else n

/-- The exponent of the greatest power of two that is not above a positive quotient. -/
def floorLog2 (num den : Nat) : Int :=
  let e : Int := (num.log2 : Int) - den.log2
  if den <<< e.toNat ≤ num <<< (-e).toNat then e else e - 1

/-- The value nearest to `num / den`. The last place is chosen so that the quotient has as many
places as the format stores, or is the smallest last place; a carry out of the fraction then
raises the exponent by itself, and what lies beyond the largest number becomes infinity. -/
def ofRatio (negative : Bool) (num den : Nat) : Floating f :=
  if num = 0 then zero negative
  else
    let q := max (floorLog2 num den - f.fraction) f.minExponent
    let n := roundQuotient (num <<< (-q).toNat) (den <<< q.toNat)
    ofMagnitude negative (min ((q - f.minExponent).toNat <<< f.fraction + n) f.infinity)

/-- The value nearest to `m * 2 ^ q`. -/
def ofScaled (negative : Bool) (m : Nat) (q : Int) : Floating f :=
  ofRatio negative (m <<< q.toNat) (1 <<< (-q).toNat)

/-- The value nearest to an integer. -/
def ofInt (v : Int) : Floating f :=
  ofRatio (v < 0) v.natAbs 1

/-- A finite number without its fraction, brought into the range from `low` to `high`. What is no
number counts as zero. -/
def toIntWithin (low high : Int) (x : Floating f) : Int :=
  match x.view with
  | .nan => 0
  | .infinite negative => if negative then low else high
  | .finite negative m q =>
    let n : Int := (m <<< q.toNat >>> (-q).toNat : Nat)
    max low (min high (if negative then -n else n))

/-- The 32-bit integer that a value converts to. -/
def toInt32 (x : Floating f) : Int32 :=
  Int32.ofInt (x.toIntWithin Int32.minValue.toInt Int32.maxValue.toInt)

/-- The 64-bit integer that a value converts to. -/
def toInt64 (x : Floating f) : Int64 :=
  Int64.ofInt (x.toIntWithin Int64.minValue.toInt Int64.maxValue.toInt)

/-- The value of another format that is nearest. What is no number keeps its sign and the leading
bits of its pattern, and becomes quiet. -/
def convert {g : Format} (x : Floating f) : Floating g :=
  match x.view with
  | .nan =>
    let payload := x.magnitude - f.infinity
    let moved := payload <<< (g.fraction - f.fraction) >>> (f.fraction - g.fraction)
    ofMagnitude x.negative (g.infinity + (moved ||| g.quietBit))
  | .infinite negative => infinity negative
  | .finite negative m q => ofScaled negative m q

end Floating

end Dalvik
