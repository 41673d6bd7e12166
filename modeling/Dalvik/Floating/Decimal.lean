import Dalvik.Floating.Basic
import Dalvik.Text.Split

/-!
Floating point values in decimal. A value is written with the fewest digits that read back as it, and
with those nearest to it among the shortest; a decimal is read as the value nearest to it.
-/

namespace Dalvik.Floating

variable {f : Format}

/-- A power of ten. -/
def tenTo (n : Nat) : Nat := Nat.pow 10 n

/-- A positive decimal: its digits as one number, and the power of ten of the last digit. -/
structure Decimal where
  digits : Nat
  exponent : Int
  deriving DecidableEq, Repr

/-- The interval of reals that round to a positive number, in quarters of its last place `2 ^ q`.
The ends belong to it exactly if the number is even. -/
structure Neighbourhood where
  low : Nat
  value : Nat
  high : Nat
  q : Int
  closed : Bool

/-- The neighbourhood of `m * 2 ^ q`. Below a power of two the numbers lie twice as dense, unless
the last place is the smallest already. -/
def neighbourhood (f : Format) (m : Nat) (q : Int) : Neighbourhood where
  low := if m = 1 <<< f.fraction ∧ f.minExponent < q then 4 * m - 1 else 4 * m - 2
  value := 4 * m
  high := 4 * m + 2
  q := q - 2
  closed := m % 2 = 0

/-- The power of ten of the first digit of `m * 2 ^ q`, for numbers above `10 ^ (-400)`. -/
def leadingExponent (m : Nat) (q : Int) : Int :=
  let scaled := (m * tenTo 400) <<< q.toNat >>> (-q).toNat
  ((Nat.toDigits 10 scaled).length : Int) - 401

/-- The multiple of `10 ^ s` in the neighbourhood that is nearest to its number, if there is one. Of
two that are equally near it is the greater. -/
def onGrid? (n : Neighbourhood) (s : Int) : Option Decimal :=
  let unit := tenTo s.toNat <<< (-n.q).toNat
  let scale := tenTo (-s).toNat <<< n.q.toNat
  let d := n.value * scale / unit
  let low := n.low * scale
  let high := n.high * scale
  let lowHit := if n.closed then low ≤ d * unit else low < d * unit
  let highHit := if n.closed then (d + 1) * unit ≤ high else (d + 1) * unit < high
  let below := 2 * (n.value * scale - d * unit) < unit
  if lowHit ∧ (below ∨ ¬ highHit) then some ⟨d, s⟩
  else if highHit then some ⟨d + 1, s⟩
  else none

/-- The first decimal of the neighbourhood on the grids from `10 ^ s` down, of which `count` are
tried. -/
def firstOnGrid (n : Neighbourhood) (s : Int) : Nat → Decimal
  | 0 => ⟨0, s⟩
  | count + 1 => (onGrid? n s).getD (firstOnGrid n (s - 1) count)

/-- The nearest of the shortest decimals that read back as the positive number `m * 2 ^ q`. Some
decimal of seventeen digits reads back as any number of at most 64 bits. -/
def shortest (f : Format) (m : Nat) (q : Int) : Decimal :=
  firstOnGrid (neighbourhood f m q) (leadingExponent m q) 17

/-- A decimal by its digits without zeros at their end, and the power of ten of the first digit. -/
def Decimal.significant (d : Decimal) : List Char × Int :=
  let digits := Nat.toDigits 10 d.digits
  (((digits.reverse.dropWhile (· = '0')).reverse), d.exponent + digits.length - 1)

/-- A decimal with a point between two of its digits, zeros filling up the places up to the point,
and at least one digit on either side. -/
def positional (digits : List Char) (exponent : Int) : List Char :=
  if exponent < 0 then
    ['0', '.'] ++ List.replicate (-exponent - 1).toNat '0' ++ digits
  else
    let n := exponent.toNat + 1
    let whole := digits.take n ++ List.replicate (n - digits.length) '0'
    let rest := digits.drop n
    whole ++ '.' :: (if rest.isEmpty then ['0'] else rest)

/-- A decimal with one digit before the point, and its power of ten. A single digit has no point. -/
def scientific (digits : List Char) (exponent : Int) : List Char :=
  let rest := digits.drop 1
  digits.take 1 ++ (if rest.isEmpty then [] else '.' :: rest) ++ 'e' :: (toString exponent).toList

/-- The written form of a value. Numbers from `10 ^ (-4)` to below `10 ^ 16` are written by position,
all others by a power of ten. -/
def text (x : Floating f) : String :=
  match x.view with
  | .nan => "NaN"
  | .infinite negative => if negative then "-inf" else "inf"
  | .finite negative m q =>
    let sign := if negative then ['-'] else []
    let number :=
      if m = 0 then "0.0".toList
      else
        let (digits, exponent) := (shortest f m q).significant
        if -4 ≤ exponent ∧ exponent < 16 then positional digits exponent
        else scientific digits exponent
    String.ofList (sign ++ number)

/-- The digits at the start of a text, and the rest. -/
def takeDigits (s : List Char) : List Char × List Char :=
  (s.takeWhile Char.isDigit, s.dropWhile Char.isDigit)

/-- The power of ten at the end of a written number. An empty text means none. -/
def readExponent? : List Char → Option Int
  | [] => some 0
  | c :: r =>
    if c = 'e' ∨ c = 'E' then
      let (negative, digits) :=
        match r with
        | '-' :: s => (true, s)
        | '+' :: s => (false, s)
        | _ => (false, r)
      if digits.isEmpty || !digits.all Char.isDigit then none
      else
        let n : Int := Nat.ofDigitChars 10 digits 0
        some (if negative then -n else n)
    else none

/-- A number without its sign: digits with at most one point before, between or after them, and
possibly a power of ten. -/
def readDecimal? (s : List Char) : Option Decimal :=
  let (whole, rest) := takeDigits s
  let (fraction, rest) :=
    match rest with
    | '.' :: r => takeDigits r
    | _ => ([], rest)
  if (whole ++ fraction).isEmpty then none
  else (readExponent? rest).map fun e =>
    ⟨Nat.ofDigitChars 10 (whole ++ fraction) 0, e - fraction.length⟩

/-- The value nearest to a decimal. Powers of ten that take any number of digits beyond the range of
the format are not computed. -/
def ofDecimal (negative : Bool) (d : Decimal) : Floating f :=
  let far : Int := (1 <<< f.exponent : Nat)
  if d.digits = 0 then zero negative
  else if far < d.exponent then infinity negative
  else if d.exponent + (Nat.toDigits 10 d.digits).length < -far then zero negative
  else ofRatio negative (d.digits * tenTo d.exponent.toNat) (tenTo (-d.exponent).toNat)

/-- A written value without its sign. The words for what is no finite number are read in any
case. -/
def readUnsigned? (negative : Bool) (s : List Char) : Option (Floating f) :=
  let word := s.map Char.toLower
  if word = "inf".toList ∨ word = "infinity".toList then some (infinity negative)
  else if word = "nan".toList then some (nan negative)
  else (readDecimal? s).map (ofDecimal negative)

/-- The value that a text writes. A sign may stand first. -/
def read? : List Char → Option (Floating f)
  | '-' :: r => readUnsigned? true r
  | '+' :: r => readUnsigned? false r
  | s => readUnsigned? false s

end Dalvik.Floating
