import Dalvik.Floating.Basic

/-!
Comparison and the five arithmetic operations. An operand that is no number is the result, made
quiet, the left one first; otherwise the exact result is rounded once.
-/

namespace Dalvik.Floating

variable {f : Format}

/-- The value with the other sign, whatever it stands for. -/
def neg (x : Floating f) : Floating f :=
  ofMagnitude (!x.negative) x.magnitude

/-- The operand that decides the result by being no number. -/
def notNumber? (x y : Floating f) : Option (Floating f) :=
  if x.isNaN then some x.quiet else if y.isNaN then some y.quiet else none

/-- A signed multiple of `2 ^ q` as an integer multiple of `2 ^ least`, for `least ≤ q`. -/
def aligned (negative : Bool) (m : Nat) (q least : Int) : Int :=
  let n : Int := (m <<< (q - least).toNat : Nat)
  if negative then -n else n

/-- The sum of two numbers. Opposite infinities have none; an exact zero is negative only if both
operands are. -/
def sum (x y : Floating f) : Floating f :=
  match x.view, y.view with
  | .infinite s, .infinite t => if s = t then x else invalid
  | .infinite _, _ => x
  | _, .infinite _ => y
  | .finite s m q, .finite t n r =>
    let least := min q r
    let total := aligned s m q least + aligned t n r least
    if total = 0 then zero (s && t) else ofScaled (total < 0) total.natAbs least
  | _, _ => invalid

/-- The sum of two values. -/
def add (x y : Floating f) : Floating f :=
  (notNumber? x y).getD (sum x y)

/-- The difference of two values. -/
def sub (x y : Floating f) : Floating f :=
  (notNumber? x y).getD (sum x y.neg)

/-- The product of two numbers. Zero times infinity has none. -/
def product (x y : Floating f) : Floating f :=
  match x.view, y.view with
  | .infinite s, .infinite t => infinity (s ^^ t)
  | .infinite s, .finite t n _ => if n = 0 then invalid else infinity (s ^^ t)
  | .finite s m _, .infinite t => if m = 0 then invalid else infinity (s ^^ t)
  | .finite s m q, .finite t n r => ofScaled (s ^^ t) (m * n) (q + r)
  | _, _ => invalid

/-- The product of two values. -/
def mul (x y : Floating f) : Floating f :=
  (notNumber? x y).getD (product x y)

/-- The quotient of two numbers. Zero by zero and infinity by infinity have none; any other number
by zero is infinite. -/
def quotient (x y : Floating f) : Floating f :=
  match x.view, y.view with
  | .infinite _, .infinite _ => invalid
  | .infinite s, .finite t _ _ => infinity (s ^^ t)
  | .finite s _ _, .infinite t => zero (s ^^ t)
  | .finite s m q, .finite t n r =>
    if n = 0 then
      if m = 0 then invalid else infinity (s ^^ t)
    else ofRatio (s ^^ t) (m <<< (q - r).toNat) (n <<< (r - q).toNat)
  | _, _ => invalid

/-- The quotient of two values. -/
def div (x y : Floating f) : Floating f :=
  (notNumber? x y).getD (quotient x y)

/-- What is left of a number after taking away the divisor as often as its size allows. It has the
sign of the dividend. -/
def remainder (x y : Floating f) : Floating f :=
  match x.view, y.view with
  | .infinite _, _ => invalid
  | .finite _ _ _, .infinite _ => x
  | .finite s m q, .finite _ n r =>
    if n = 0 then invalid
    else
      let least := min q r
      ofScaled s (m <<< (q - least).toNat % n <<< (r - least).toNat) least
  | _, _ => invalid

/-- The remainder of two values. -/
def rem (x y : Floating f) : Floating f :=
  (notNumber? x y).getD (remainder x y)

/-- The order of two values, and nothing if one of them is no number. The two zeros are equal. -/
def compare? (x y : Floating f) : Option Ordering :=
  match x.view, y.view with
  | .nan, _ => none
  | _, .nan => none
  | .infinite s, .infinite t => some (compare (!s).toNat (!t).toNat)
  | .infinite s, _ => some (if s then .lt else .gt)
  | _, .infinite t => some (if t then .gt else .lt)
  | .finite s m q, .finite t n r =>
    let least := min q r
    some (compare (aligned s m q least) (aligned t n r least))

end Dalvik.Floating
