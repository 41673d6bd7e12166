import Dalvik.Semantics.Step
import Mathlib.Data.Int.Bitwise

/-!
Arithmetic on integers. An operation gives the exact integer, reduced to the range of its width; an instruction that
computes from known integers leaves it in its register. Division by zero has no result: it is raised if the divisor is
known to be zero, and is recorded as possible if the divisor is not known.
-/

namespace Dalvik

namespace Word

/-- Integers with the same bits are the same. -/
theorem eq_of_testBit_eq {m n : Int} (h : ∀ i, m.testBit i = n.testBit i) : m = n := by
  -- far enough to the left there is nothing but the sign
  have hApart (m n : Nat) (h : ∀ i, (m : Int).testBit i = (Int.negSucc n).testBit i) : False := by
    have hBit := h (m + n)
    have hLeft : m.testBit (m + n) = false :=
      Nat.testBit_lt_two_pow (Nat.lt_of_le_of_lt (Nat.le_add_right m n) Nat.lt_two_pow_self)
    have hRight : n.testBit (m + n) = false :=
      Nat.testBit_lt_two_pow (Nat.lt_of_le_of_lt (Nat.le_add_left n m) Nat.lt_two_pow_self)
    simp [Int.testBit, hLeft, hRight] at hBit
  cases m with
  | ofNat m =>
      cases n with
      | ofNat n => exact congrArg Int.ofNat (Nat.eq_of_testBit_eq h)
      | negSucc n => exact (hApart m n h).elim
  | negSucc m =>
      cases n with
      | ofNat n => exact (hApart n m fun i => (h i).symm).elim
      | negSucc n => exact congrArg Int.negSucc (Nat.eq_of_testBit_eq fun i => Bool.not_inj (h i))

variable {w : Nat} (x y : BitVec w)

/-- The bits of a word as an integer, which go on with the sign. -/
theorem testBit_toInt (i : Nat) : x.toInt.testBit i = if i < w then x.getLsbD i else x.msb := by
  rw [BitVec.toInt_eq_msb_cond]
  cases hSign : x.msb with
  | false =>
      simp only [Bool.false_eq_true, if_false]
      split
      · rfl
      · rename_i hOut
        exact BitVec.getLsbD_of_ge x i (Nat.le_of_not_lt hOut)
  | true =>
      have hRange := x.isLt
      have hNegative : (x.toNat : Int) - (2 ^ w : Nat) = Int.negSucc (~~~x).toNat := by
        rw [BitVec.toNat_not, Int.negSucc_eq]
        omega
      have hBit : (~~~x).toNat.testBit i = (~~~x).getLsbD i := rfl
      rw [if_pos rfl, hNegative, Int.testBit, hBit, BitVec.getLsbD_not]
      split <;> simp_all

theorem toInt_and : (x &&& y).toInt = x.toInt.land y.toInt := by
  refine eq_of_testBit_eq fun i => ?_
  rw [Int.testBit_land, testBit_toInt, testBit_toInt, testBit_toInt]
  split <;> simp

theorem toInt_or : (x ||| y).toInt = x.toInt.lor y.toInt := by
  refine eq_of_testBit_eq fun i => ?_
  rw [Int.testBit_lor, testBit_toInt, testBit_toInt, testBit_toInt]
  split <;> simp

theorem toInt_xor : (x ^^^ y).toInt = x.toInt.xor y.toInt := by
  refine eq_of_testBit_eq fun i => ?_
  rw [Int.testBit_lxor, testBit_toInt, testBit_toInt, testBit_toInt]
  split <;> simp

theorem toInt_shiftLeft (n : Nat) : (x <<< n).toInt = (x.toInt * 2 ^ n).bmod (2 ^ w) := by
  rw [BitVec.toInt_shiftLeft, Nat.shiftLeft_eq, BitVec.toInt_eq_toNat_bmod, Int.bmod_mul_bmod]
  push_cast
  rfl

theorem toInt_sshiftRight (n : Nat) : (x.sshiftRight n).toInt = x.toInt.fdiv (2 ^ n) := by
  rw [BitVec.toInt_sshiftRight, Int.shiftRight_eq_div_pow, Int.fdiv_eq_ediv_of_nonneg _ (Int.pow_nonneg (by decide))]
  push_cast
  rfl

/-- The unsigned reading of a word. -/
theorem toInt_emod : x.toInt % 2 ^ w = x.toNat := by
  have hRange : (x.toNat : Int) < (2 ^ w : Nat) := Int.ofNat_lt.mpr x.isLt
  have hSame := @Int.bmod_emod x.toNat (2 ^ w)
  rw [← BitVec.toInt_eq_toNat_bmod, Int.emod_eq_of_lt (Int.natCast_nonneg _) hRange] at hSame
  exact_mod_cast hSame

/-- An integer in the range of a width is not reduced. -/
theorem bmod_eq_self {k : Int} (hWidth : 0 < w) (hLow : -2 ^ (w - 1) ≤ k) (hHigh : k < 2 ^ (w - 1)) :
    k.bmod (2 ^ w) = k := by
  rw [← BitVec.toInt_ofInt, BitVec.toInt_ofInt_eq_self hWidth hLow hHigh]

theorem toInt_ushiftRight (n : Nat) : (x >>> n).toInt = ((x.toInt % 2 ^ w).fdiv (2 ^ n)).bmod (2 ^ w) := by
  rw [BitVec.toInt_eq_toNat_bmod, toInt_emod, Int.fdiv_eq_ediv_of_nonneg _ (Int.pow_nonneg (by decide)),
    BitVec.toNat_ushiftRight, Nat.shiftRight_eq_div_pow]
  push_cast
  rfl

end Word

namespace BinaryOp

/-- The integer that an operation gives before it is reduced to a width. Division goes toward zero, and its remainder has
the sign of the dividend. A shift looks at as many low bits of the distance as the width has places; to the right it goes
down to the next integer, from the unsigned reading or from the signed one. -/
def exact (op : BinaryOp) (width : Nat) (m n : Int) : Int :=
  let distance := (n % width).toNat
  match op with
  | add => m + n
  | sub => m - n
  | mul => m * n
  | div => m.tdiv n
  | rem => m.tmod n
  | and => m.land n
  | or => m.lor n
  | xor => m.xor n
  | shl => m * 2 ^ distance
  | shr => m.fdiv (2 ^ distance)
  | ushr => (m % 2 ^ width).fdiv (2 ^ distance)

/-- The type that the second operand of an operation is read as. A distance has 32 bits. -/
def operandType (op : BinaryOp) (type : NumberType) : Descriptor :=
  if op.isShift then .int else type.descriptor

/-- An operation on words of any width. Those that shift have a distance in place of the second word. -/
def onWords? {w : Nat} (op : BinaryOp) (x y : BitVec w) (distance : Nat) : Option (BitVec w) :=
  match op with
  | add => some (x + y)
  | sub => some (x - y)
  | mul => some (x * y)
  | div => if y = 0 then none else some (x.sdiv y)
  | rem => if y = 0 then none else some (x.srem y)
  | and => some (x &&& y)
  | or => some (x ||| y)
  | xor => some (x ^^^ y)
  | shl => some (x <<< distance)
  | shr => some (x.sshiftRight distance)
  | ushr => some (x >>> distance)

/-- Operations on words give the exact integer, reduced to the width. -/
theorem exact_onWords? {op : BinaryOp} {w : Nat} {n : Int} (x y : BitVec w) (distance : Nat)
    (hWord : op.isShift = false → y.toInt = n) (hDistance : op.isShift = true → distance = (n % w).toNat)
    (hZero : ¬ (op.isDivision = true ∧ n = 0)) :
    ∃ r, op.onWords? x y distance = some r ∧ r.toInt = (op.exact w x.toInt n).bmod (2 ^ w) := by
  have hSome (hDivision : op.isDivision = true) (hShift : op.isShift = false) : y ≠ 0 := fun hy =>
    hZero ⟨hDivision, by rw [← hWord hShift, hy]; exact BitVec.toInt_zero⟩
  -- what is the reading of a word already is not reduced any further
  have hReduced {k : Int} {r : BitVec w} (h : r.toInt = k) : r.toInt = k.bmod (2 ^ w) := by
    rw [← h, BitVec.toInt_bmod_cancel]
  cases op with
  | add => exact ⟨_, rfl, hWord rfl ▸ BitVec.toInt_add x y⟩
  | sub => exact ⟨_, rfl, hWord rfl ▸ BitVec.toInt_sub⟩
  | mul => exact ⟨_, rfl, hWord rfl ▸ BitVec.toInt_mul x y⟩
  | div => exact ⟨_, if_neg (hSome rfl rfl), hWord rfl ▸ BitVec.toInt_sdiv x y⟩
  | rem => exact ⟨_, if_neg (hSome rfl rfl), hWord rfl ▸ hReduced (BitVec.toInt_srem x y)⟩
  | and => exact ⟨_, rfl, hWord rfl ▸ hReduced (Word.toInt_and x y)⟩
  | or => exact ⟨_, rfl, hWord rfl ▸ hReduced (Word.toInt_or x y)⟩
  | xor => exact ⟨_, rfl, hWord rfl ▸ hReduced (Word.toInt_xor x y)⟩
  | shl => exact ⟨_, rfl, hDistance rfl ▸ Word.toInt_shiftLeft x _⟩
  | shr => exact ⟨_, rfl, hDistance rfl ▸ hReduced (Word.toInt_sshiftRight x _)⟩
  | ushr => exact ⟨_, rfl, hDistance rfl ▸ Word.toInt_ushiftRight x _⟩

/-- The only quotient that leaves the range of its dividend is that of the least integer by minus one. -/
theorem tdiv_lt {bound m n : Int} (hLow : -bound ≤ m) (hHigh : m < bound)
    (hOverflow : ¬ (m = -bound ∧ n = -1)) : m.tdiv n < bound := by
  have hSize : (m.tdiv n).natAbs ≤ m.natAbs := Int.natAbs_tdiv_le_natAbs m n
  refine Int.not_le.mp fun hLarge => hOverflow ?_
  have hLeast : m = -bound := by omega
  have hQuotient : m.natAbs / n.natAbs = m.natAbs := by
    rw [← show (m.tdiv n).natAbs = m.natAbs / n.natAbs from Int.natAbs_tdiv m n]
    omega
  have hUnit : n.natAbs = 1 := (Nat.div_eq_self.mp hQuotient).resolve_left (by omega)
  refine ⟨hLeast, (Int.natAbs_eq n).elim (fun hOne => ?_) fun hMinus => by omega⟩
  rw [hOne, hUnit, Nat.cast_one, Int.tdiv_one] at hLarge
  omega

/-- A quotient goes toward zero and the remainder makes up for it, with the sign of the dividend. The one quotient that
the width has no room for is the least integer again. -/
theorem exact_division {w : Nat} {m n : Int} (hWidth : 0 < w) (hLow : -2 ^ (w - 1) ≤ m) (hHigh : m < 2 ^ (w - 1))
    (hDivisor : n ≠ 0) :
    let q := (exact div w m n).bmod (2 ^ w)
    let r := (exact rem w m n).bmod (2 ^ w)
    if m = -2 ^ (w - 1) ∧ n = -1 then q = m ∧ r = 0
    else m = q * n + r ∧ r.natAbs < n.natAbs ∧ 0 ≤ r * m ∧ (q * n).natAbs ≤ m.natAbs := by
  split
  case isTrue hOverflow =>
    obtain ⟨rfl, rfl⟩ := hOverflow
    have hTwice : (2 : Int) ^ (w - 1) = -2 ^ (w - 1) + (2 ^ w : Nat) := by
      obtain ⟨k, rfl⟩ := Nat.exists_eq_add_of_lt hWidth
      push_cast
      simp only [Nat.zero_add, pow_succ]
      omega
    constructor
    · rw [exact, Int.tdiv_neg, Int.tdiv_one, Int.neg_neg, hTwice, Int.add_bmod_right,
        Word.bmod_eq_self hWidth hLow hHigh, ← hTwice]
    · rw [exact, Int.tmod_neg, Int.tmod_one, Int.zero_bmod]
  case isFalse hOverflow =>
    have hPositive : 0 < n.natAbs := Int.natAbs_pos.mpr hDivisor
    have hQuotientSize : (m.tdiv n).natAbs ≤ m.natAbs := Int.natAbs_tdiv_le_natAbs m n
    have hRemainder : (m.tmod n).natAbs = m.natAbs % n.natAbs := Int.natAbs_tmod m n
    have hRemainderSize : m.natAbs % n.natAbs ≤ m.natAbs := Nat.mod_le _ _
    have hUpward (h : 0 ≤ m) : 0 ≤ m.tmod n := Int.tmod_nonneg n h
    have hDownward (h : m ≤ 0) : m.tmod n ≤ 0 := by
      have hOpposite := Int.tmod_nonneg n (Int.neg_nonneg_of_nonpos h)
      rw [Int.neg_tmod] at hOpposite
      omega
    have hSign : 0 ≤ m.tmod n * m := by
      rcases Int.le_total 0 m with h | h
      · exact Int.mul_nonneg (hUpward h) h
      · exact Int.mul_nonneg_of_nonpos_of_nonpos (hDownward h) h
    have hLess := tdiv_lt hLow hHigh hOverflow
    rw [exact, exact, Word.bmod_eq_self hWidth (by omega) hLess, Word.bmod_eq_self hWidth (by omega) (by omega)]
    refine ⟨(Int.tdiv_mul_add_tmod m n).symm, hRemainder ▸ Nat.mod_lt _ hPositive, hSign, ?_⟩
    rw [Int.natAbs_mul, show (m.tdiv n).natAbs = m.natAbs / n.natAbs from Int.natAbs_tdiv m n]
    exact Nat.div_mul_le_self _ _

end BinaryOp

theorem shiftDistance_eq {width : Nat} (h : width ∣ 2 ^ 32) (b : Int32) :
    shiftDistance width b = (b.toInt % width).toNat := by
  have hUnsigned : b.toInt % 2 ^ 32 = b.toBitVec.toNat := Word.toInt_emod b.toBitVec
  have hDivides : (width : Int) ∣ 2 ^ 32 := by exact_mod_cast h
  rw [← Int.emod_emod_of_dvd _ hDivides, hUnsigned, shiftDistance]
  exact_mod_cast rfl

/-- Arithmetic on 32-bit integers is that on their words. -/
theorem int32Op?_eq (op : BinaryOp) (a b : Int32) :
    int32Op? op a b = (op.onWords? a.toBitVec b.toBitVec (shiftDistance 32 b)).map Int32.ofBitVec := by
  have hZero : b.toBitVec = 0 ↔ b = 0 := ⟨fun h => Int32.toBitVec_inj.mp h, fun h => h ▸ rfl⟩
  cases op with
  | div | rem =>
      simp only [int32Op?, BinaryOp.onWords?, hZero]
      split <;> rfl
  | _ => rfl

/-- Arithmetic on 64-bit integers is that on their words, where it does not shift. -/
theorem int64Op?_eq {op : BinaryOp} (h : op.isShift = false) (a b : Int64) (distance : Nat) :
    int64Op? op a b = (op.onWords? a.toBitVec b.toBitVec distance).map Int64.ofBitVec := by
  have hZero : b.toBitVec = 0 ↔ b = 0 := ⟨fun h => Int64.toBitVec_inj.mp h, fun h => h ▸ rfl⟩
  cases op with
  | shl | shr | ushr => cases h
  | div | rem =>
      simp only [int64Op?, BinaryOp.onWords?, hZero]
      split <;> rfl
  | _ => rfl

/-- Shifts of 64-bit integers are those of their words. -/
theorem int64Shift?_eq {op : BinaryOp} (h : op.isShift = true) (a : Int64) (b : Int32) (y : BitVec 64) :
    int64Shift? op a b = (op.onWords? a.toBitVec y (shiftDistance 64 b)).map Int64.ofBitVec := by
  cases op with
  | shl | shr | ushr => rfl
  | _ => cases h

namespace UnaryOp

/-- The integer that an operation from integers to integers gives. A narrower type takes it modulo the number of its
values. -/
def reduced? (op : UnaryOp) (n : Int) : Option Int :=
  match op with
  | negInt => some ((-n).bmod (2 ^ 32))
  | notInt => some ((-n - 1).bmod (2 ^ 32))
  | negLong => some ((-n).bmod (2 ^ 64))
  | notLong => some ((-n - 1).bmod (2 ^ 64))
  | intToLong => some n
  | longToInt => some (n.bmod (2 ^ 32))
  | intToByte => some (n.bmod (2 ^ 8))
  | intToShort => some (n.bmod (2 ^ 16))
  | intToChar => some (n % 2 ^ 16)
  | _ => none

end UnaryOp

namespace NumberType

/-- How many bits a number of the type has. -/
def width : NumberType → Nat
  | int | float => 32
  | long | double => 64

end NumberType

namespace Value

/-- The integer that a value stands for, with its type. A unit stands for its number. -/
def integer? : Value → Option (Descriptor × Int)
  | int v => some (.int, v.toInt)
  | long v => some (.long, v.toInt)
  | short v => some (.short, v.toInt)
  | byte v => some (.byte, v.toInt)
  | char v => some (.char, v.toNat)
  | _ => none

variable {v w : Value} {m n : Int}

theorem eq_int_of_integer? (h : v.integer? = some (.int, n)) : ∃ a, v = int a ∧ a.toInt = n := by
  cases v with
  | int a =>
      simp only [integer?, Option.some.injEq, Prod.mk.injEq, true_and] at h
      exact ⟨a, rfl, h⟩
  | _ => simp [integer?, Descriptor.int, Descriptor.long, Descriptor.short, Descriptor.byte, Descriptor.char] at h

theorem eq_long_of_integer? (h : v.integer? = some (.long, n)) : ∃ a, v = long a ∧ a.toInt = n := by
  cases v with
  | long a =>
      simp only [integer?, Option.some.injEq, Prod.mk.injEq, true_and] at h
      exact ⟨a, rfl, h⟩
  | _ => simp [integer?, Descriptor.int, Descriptor.long, Descriptor.short, Descriptor.byte, Descriptor.char] at h

/-- Operations on known integers give the exact integer, reduced to the width of their type. -/
theorem binary?_integer {op : BinaryOp} {type : NumberType} (hType : type.isIntegral = true)
    (hLeft : v.integer? = some (type.descriptor, m))
    (hRight : w.integer? = some (op.operandType type, n)) (hZero : ¬ (op.isDivision = true ∧ n = 0)) :
    ∃ r, binary? op type v w = some r ∧
      r.integer? = some (type.descriptor, (op.exact type.width m n).bmod (2 ^ type.width)) := by
  cases type with
  | float | double => cases hType
  | int =>
      have hWord : w.integer? = some (.int, n) := by
        rw [hRight, BinaryOp.operandType]
        split <;> rfl
      obtain ⟨a, rfl, rfl⟩ := eq_int_of_integer? hLeft
      obtain ⟨b, rfl, rfl⟩ := eq_int_of_integer? hWord
      obtain ⟨r, hSome, hExact⟩ :=
        BinaryOp.exact_onWords? a.toBitVec b.toBitVec _ (fun _ => rfl)
          (fun _ => shiftDistance_eq (by decide) b) hZero
      have hOp : int32Op? op a b = some (.ofBitVec r) := by
        rw [int32Op?_eq, hSome]
        rfl
      exact ⟨int (.ofBitVec r), by simp [binary?, int32?, hOp], congrArg (fun k => some (Descriptor.int, k)) hExact⟩
  | long =>
      obtain ⟨a, rfl, rfl⟩ := eq_long_of_integer? hLeft
      cases hShift : op.isShift with
      | false =>
          rw [BinaryOp.operandType, hShift] at hRight
          obtain ⟨b, rfl, rfl⟩ := eq_long_of_integer? hRight
          obtain ⟨r, hSome, hExact⟩ :=
            BinaryOp.exact_onWords? a.toBitVec b.toBitVec 0 (fun _ => rfl)
              (fun h => absurd (hShift.symm.trans h) Bool.false_ne_true) hZero
          have hOp : int64Op? op a b = some (.ofBitVec r) := by
            rw [int64Op?_eq hShift a b 0, hSome]
            rfl
          exact ⟨long (.ofBitVec r), by simp [binary?, int64?, hShift, hOp],
            congrArg (fun k => some (Descriptor.long, k)) hExact⟩
      | true =>
          rw [BinaryOp.operandType, hShift] at hRight
          obtain ⟨b, rfl, rfl⟩ := eq_int_of_integer? hRight
          obtain ⟨r, hSome, hExact⟩ :=
            BinaryOp.exact_onWords? a.toBitVec 0 _ (fun h => absurd (h.symm.trans hShift) Bool.false_ne_true)
              (fun _ => shiftDistance_eq (by decide) b) hZero
          have hOp : int64Shift? op a b = some (.ofBitVec r) := by
            rw [int64Shift?_eq hShift, hSome]
            rfl
          exact ⟨long (.ofBitVec r), by simp [binary?, int64?, int32?, hShift, hOp],
            congrArg (fun k => some (Descriptor.long, k)) hExact⟩

/-- A unit that an integer is reduced to. -/
theorem toNat_toUInt16 (a : Int32) : (a.toUInt32.toUInt16.toNat : Int) = a.toInt % 2 ^ 16 := by
  have hUnsigned : a.toInt % 2 ^ 32 = a.toBitVec.toNat := Word.toInt_emod a.toBitVec
  have hDivides : (2 : Int) ^ 16 ∣ 2 ^ 32 := by decide
  rw [← Int.emod_emod_of_dvd _ hDivides, hUnsigned, UInt32.toNat_toUInt16]
  rfl

/-- Operations on one known integer give the exact integer, in the range of the type that they lead to. -/
theorem unary?_integer {op : UnaryOp} {k : Int} (hSource : v.integer? = some (op.source, m))
    (hExact : op.reduced? m = some k) :
    ∃ r, unary? op v = some r ∧ r.integer? = some (op.target, k) := by
  cases op with
  | negInt =>
      obtain ⟨a, rfl, rfl⟩ := eq_int_of_integer? hSource
      cases hExact
      exact ⟨_, rfl, congrArg (fun k => some (Descriptor.int, k)) (Int32.toInt_neg a)⟩
  | notInt =>
      obtain ⟨a, rfl, rfl⟩ := eq_int_of_integer? hSource
      cases hExact
      exact ⟨_, rfl, congrArg (fun k => some (Descriptor.int, k)) (Int32.toInt_not a)⟩
  | negLong =>
      obtain ⟨a, rfl, rfl⟩ := eq_long_of_integer? hSource
      cases hExact
      exact ⟨_, rfl, congrArg (fun k => some (Descriptor.long, k)) (Int64.toInt_neg a)⟩
  | notLong =>
      obtain ⟨a, rfl, rfl⟩ := eq_long_of_integer? hSource
      cases hExact
      exact ⟨_, rfl, congrArg (fun k => some (Descriptor.long, k)) (Int64.toInt_not a)⟩
  | intToLong =>
      obtain ⟨a, rfl, rfl⟩ := eq_int_of_integer? hSource
      cases hExact
      exact ⟨_, rfl, congrArg (fun k => some (Descriptor.long, k)) (Int32.toInt_toInt64 a)⟩
  | longToInt =>
      obtain ⟨a, rfl, rfl⟩ := eq_long_of_integer? hSource
      cases hExact
      exact ⟨_, rfl, congrArg (fun k => some (Descriptor.int, k)) (Int64.toInt_toInt32 a)⟩
  | intToByte =>
      obtain ⟨a, rfl, rfl⟩ := eq_int_of_integer? hSource
      cases hExact
      exact ⟨_, rfl, congrArg (fun k => some (Descriptor.byte, k)) (Int32.toInt_toInt8 a)⟩
  | intToShort =>
      obtain ⟨a, rfl, rfl⟩ := eq_int_of_integer? hSource
      cases hExact
      exact ⟨_, rfl, congrArg (fun k => some (Descriptor.short, k)) (Int32.toInt_toInt16 a)⟩
  | intToChar =>
      obtain ⟨a, rfl, rfl⟩ := eq_int_of_integer? hSource
      cases hExact
      exact ⟨_, rfl, congrArg (fun k => some (Descriptor.char, k)) (toNat_toUInt16 a)⟩
  | _ => cases hExact

/-- A known integer is zero or not. -/
theorem isZero?_integer {type : NumberType} (hType : type.isIntegral = true)
    (h : v.integer? = some (type.descriptor, n)) :
    v.isZero? = some (decide (n = 0)) := by
  cases type with
  | float | double => cases hType
  | int =>
      obtain ⟨a, rfl, rfl⟩ := eq_int_of_integer? h
      exact congrArg some (decide_eq_decide.mpr Int32.toInt_inj.symm)
  | long =>
      obtain ⟨a, rfl, rfl⟩ := eq_long_of_integer? h
      exact congrArg some (decide_eq_decide.mpr Int64.toInt_inj.symm)

end Value

namespace State

/-- An instruction that reads a register as a type finds a known integer there. -/
def HasInteger (s : State) (r : Register) (d : Descriptor) (n : Int) : Prop :=
  ∃ v, s.read r = .ok v ∧ (v.coerce d).integer? = some (d, n)

/-- The second operand is a known integer of a type. One that stands in the instruction has 32 bits. -/
def OperandInteger (s : State) (rhs : Operand) (d : Descriptor) (n : Int) : Prop :=
  match rhs with
  | .register r => s.HasInteger r d n
  | .literal k => d = .int ∧ k.toInt = n

/-- The second operand is not known. -/
def OperandUnknown (s : State) (rhs : Operand) : Prop :=
  ∃ r d, rhs = .register r ∧ s.read r = .ok (.unknown d)

variable {s : State} {rhs : Operand} {d : Descriptor} {m n : Int}

theorem OperandInteger.unique (hFirst : s.OperandInteger rhs d m) (hSecond : s.OperandInteger rhs d n) : m = n := by
  cases rhs with
  | register r =>
      obtain ⟨v, hRead, hInteger⟩ := hFirst
      obtain ⟨w, hAgain, hOther⟩ := hSecond
      cases hRead.symm.trans hAgain
      exact congrArg Prod.snd (Option.some.inj (hInteger.symm.trans hOther))
  | literal k => exact hFirst.2.symm.trans hSecond.2

theorem OperandInteger.not_unknown (h : s.OperandInteger rhs d n) : ¬ s.OperandUnknown rhs := by
  rintro ⟨r, e, rfl, hRead⟩
  obtain ⟨v, hKnown, hInteger⟩ := h
  cases hRead.symm.trans hKnown
  cases hInteger

end State

namespace Semantics

variable {pre post : State} {op : BinaryOp} {type : NumberType} {dst lhs : Register} {rhs : Operand} {n : Int}

theorem readOperand_integer (h : pre.OperandInteger rhs (op.operandType type) n) :
    ∃ w, readOperand pre op type rhs = .ok w ∧ w.integer? = some (op.operandType type, n) := by
  cases rhs with
  | register r =>
      obtain ⟨v, hRead, hInteger⟩ := h
      exact ⟨_, congrArg (Except.map _) hRead, hInteger⟩
  | literal k =>
      obtain ⟨hType, rfl⟩ := h
      exact ⟨_, rfl, hType ▸ rfl⟩

theorem readOperand_unknown (op : BinaryOp) (type : NumberType) (h : pre.OperandUnknown rhs) :
    ∃ d, readOperand pre op type rhs = .ok (.unknown d) := by
  obtain ⟨r, d, rfl, hRead⟩ := h
  exact ⟨_, congrArg (Except.map _) hRead⟩

theorem operandType_eq (h : op.isDivision = true) : op.operandType type = type.descriptor := by
  cases op with
  | div | rem => rfl
  | _ => cases h

/-- What is left of an operation once its operands have been read. -/
theorem binary_eq {v w : Value} (hLeft : pre.read lhs = .ok v) (hRight : readOperand pre op type rhs = .ok w) :
    binary pre post op type dst lhs rhs =
      (let r := (Value.binary? op type (v.coerce type.descriptor) w).getD (.unknown type.descriptor)
       if op.isDivision && type.isIntegral then
         match w.isZero? with
         | some true => .ok (.raise post .arithmeticException)
         | some false => Outcome.assign post dst r none
         | none => Outcome.assign post dst r (someException .arithmeticException)
       else Outcome.assign post dst r none) := by
  rw [binary, hLeft, hRight]
  rfl

/-- Operations on known integers of the right width are computed, unless they divide by zero. -/
theorem binary_integer {m : Int} (hType : type.isIntegral = true) (hLeft : pre.HasInteger lhs type.descriptor m)
    (hRight : pre.OperandInteger rhs (op.operandType type) n) (hZero : ¬ (op.isDivision = true ∧ n = 0)) :
    ∃ r, r.integer? = some (type.descriptor, (op.exact type.width m n).bmod (2 ^ type.width)) ∧
      binary pre post op type dst lhs rhs = Outcome.assign post dst r none := by
  obtain ⟨v, hRead, hInteger⟩ := hLeft
  obtain ⟨w, hOperand, hDivisor⟩ := readOperand_integer hRight
  obtain ⟨r, hSome, hExact⟩ := Value.binary?_integer hType hInteger hDivisor hZero
  refine ⟨r, hExact, ?_⟩
  rw [binary_eq hRead hOperand, hSome, Option.getD_some]
  split
  · rename_i hDivision
    have hDivides : op.isDivision = true := (Bool.and_eq_true_iff.mp hDivision).1
    rw [Value.isZero?_integer hType (operandType_eq hDivides ▸ hDivisor), decide_eq_false fun h => hZero ⟨hDivides, h⟩]
  · rfl

/-- A division looks at its divisor alone to see whether it raises an exception. -/
theorem binary_division {w : Value} (post : State) (dst : Register) (hDivision : op.isDivision = true)
    (hType : type.isIntegral = true) (hLeft : lhs < pre.registerCount) (hRight : readOperand pre op type rhs = .ok w) :
    ∃ r, binary pre post op type dst lhs rhs =
      match w.isZero? with
      | some true => .ok (.raise post .arithmeticException)
      | some false => Outcome.assign post dst r none
      | none => Outcome.assign post dst r (someException .arithmeticException) := by
  obtain ⟨v, hRead⟩ : ∃ v, pre.read lhs = .ok v := ⟨_, (pre.read_eq_ok_iff lhs _).mpr ⟨hLeft, rfl⟩⟩
  refine ⟨(Value.binary? op type (v.coerce type.descriptor) w).getD (.unknown type.descriptor), ?_⟩
  rw [binary_eq hRead hRight, hDivision, hType]
  rfl

theorem exists_outcome_assign (hDst : dst < post.registerCount) (v : Value) (hazard : Option Value) :
    ∃ s, post.assign dst v = .ok s ∧ Outcome.assign post dst v hazard = .ok ⟨.next, s, hazard⟩ := by
  obtain ⟨s, hAssign⟩ := State.exists_assign hDst v
  exact ⟨s, hAssign, congrArg (Except.map _) hAssign⟩

/-- A division by zero throws and leaves the state as it is; one by what is not known may throw instead of going on. -/
theorem exists_division (hDst : dst < post.registerCount) (hDivision : op.isDivision = true)
    (hType : type.isIntegral = true) (hLeft : lhs < pre.registerCount)
    (hRight : (∃ n, pre.OperandInteger rhs type.descriptor n) ∨ pre.OperandUnknown rhs) :
    ∃ o, binary pre post op type dst lhs rhs = .ok o ∧
      (∀ e, o.flow = .raise e ↔ e = .unknown .arithmeticException ∧ pre.OperandInteger rhs type.descriptor 0) ∧
      (∀ e, o.hazard = some e ↔ e = .unknown .arithmeticException ∧ pre.OperandUnknown rhs) ∧
      (pre.OperandInteger rhs type.descriptor 0 → o.post = post) := by
  rcases hRight with ⟨n, hKnown⟩ | hUnknown
  · have hSure := hKnown.not_unknown
    obtain ⟨w, hOperand, hDivisor⟩ := readOperand_integer ((operandType_eq hDivision).symm ▸ hKnown)
    rw [operandType_eq hDivision] at hDivisor
    obtain ⟨r, hBinary⟩ := binary_division post dst hDivision hType hLeft hOperand
    rw [Value.isZero?_integer hType hDivisor] at hBinary
    by_cases hZero : n = 0
    · subst hZero
      refine ⟨_, hBinary, fun e => ?_, fun e => ?_, fun _ => rfl⟩
      · simp [Outcome.raise, hKnown, eq_comm]
      · simp [Outcome.raise, hSure]
    · obtain ⟨s, -, hOutcome⟩ := exists_outcome_assign hDst r none
      have hNot : ¬ pre.OperandInteger rhs type.descriptor 0 := fun h => hZero (hKnown.unique h)
      rw [decide_eq_false hZero] at hBinary
      refine ⟨_, hBinary.trans hOutcome, ?_, ?_, fun h => (hNot h).elim⟩
      · simp [hNot]
      · simp [hSure]
  · have hNot : ¬ pre.OperandInteger rhs type.descriptor 0 := fun h => h.not_unknown hUnknown
    obtain ⟨d, hOperand⟩ := readOperand_unknown op type hUnknown
    obtain ⟨r, hBinary⟩ := binary_division post dst hDivision hType hLeft hOperand
    obtain ⟨s, -, hOutcome⟩ := exists_outcome_assign hDst r (someException .arithmeticException)
    refine ⟨_, hBinary.trans hOutcome, ?_, ?_, fun h => (hNot h).elim⟩
    · simp [hNot]
    · simp [someException, hUnknown, eq_comm]

theorem unary_integer {op : UnaryOp} {src : Register} {m k : Int} (hSource : pre.HasInteger src op.source m)
    (hExact : op.reduced? m = some k) :
    ∃ r, r.integer? = some (op.target, k) ∧ unary pre post op dst src = Outcome.assign post dst r none := by
  obtain ⟨v, hRead, hInteger⟩ := hSource
  obtain ⟨r, hSome, hResult⟩ := Value.unary?_integer hInteger hExact
  refine ⟨r, hResult, ?_⟩
  rw [unary, hRead]
  exact congrArg (fun x => Outcome.assign post dst (Option.getD x _) none) hSome

namespace Context

/-- The instruction leaves an integer of a type in a register, and goes on. -/
def Leaves (c : Context) (a : Address) (i : Instruction Address) (pre post : State) (t : Supply) (dst : Register)
    (d : Descriptor) (n : Int) : Prop :=
  ∃ v s, v.integer? = some (d, n) ∧ post.assign dst v = .ok s ∧ c.execute a i pre post t = (.ok (.next s), t)

/-- Integers are computed with exactly, and reduced to the width of the result. A shift looks at the low bits of its
distance, and division goes toward zero. It throws if the divisor is known to be zero, and may throw if the divisor is not
known. -/
theorem execute_integers (c : Context) (a : Address) (pre post : State) (t : Supply) (dst : Register)
    (hDst : dst < post.registerCount) :
    (∀ op type lhs rhs m n, type.isIntegral = true → pre.HasInteger lhs type.descriptor m →
      pre.OperandInteger rhs (op.operandType type) n → ¬ (op.isDivision = true ∧ n = 0) →
      c.Leaves a (.binary op type dst lhs rhs) pre post t dst type.descriptor
        ((op.exact type.width m n).bmod (2 ^ type.width))) ∧
    (∀ op src m k, pre.HasInteger src op.source m → op.reduced? m = some k →
      c.Leaves a (.unary op dst src) pre post t dst op.target k) ∧
    (∀ op type lhs rhs, op.isDivision = true → type.isIntegral = true → lhs < pre.registerCount →
      (∃ n, pre.OperandInteger rhs type.descriptor n) ∨ pre.OperandUnknown rhs →
      ∃ o, c.execute a (.binary op type dst lhs rhs) pre post t = (.ok o, t) ∧
        (∀ e, o.flow = .raise e ↔ e = .unknown .arithmeticException ∧ pre.OperandInteger rhs type.descriptor 0) ∧
        (∀ e, o.hazard = some e ↔ e = .unknown .arithmeticException ∧ pre.OperandUnknown rhs) ∧
        (pre.OperandInteger rhs type.descriptor 0 → o.post = post)) ∧
    ∀ (type : NumberType) m n, -2 ^ (type.width - 1) ≤ m → m < 2 ^ (type.width - 1) → n ≠ 0 →
      let q := (BinaryOp.div.exact type.width m n).bmod (2 ^ type.width)
      let r := (BinaryOp.rem.exact type.width m n).bmod (2 ^ type.width)
      if m = -2 ^ (type.width - 1) ∧ n = -1 then q = m ∧ r = 0
      else m = q * n + r ∧ r.natAbs < n.natAbs ∧ 0 ≤ r * m ∧ (q * n).natAbs ≤ m.natAbs := by
  refine ⟨?arithmetic, ?conversion, ?zero, fun type m n hLow hHigh => ?_⟩
  case arithmetic =>
    intro op type lhs rhs m n hType hLeft hRight hZero
    obtain ⟨v, hInteger, hBinary⟩ := binary_integer hType hLeft hRight hZero
    obtain ⟨s, hAssign, hOutcome⟩ := exists_outcome_assign hDst v none
    exact ⟨v, s, hInteger, hAssign, congrArg (·, t) (hBinary.trans hOutcome)⟩
  case conversion =>
    intro op src m k hSource hExact
    obtain ⟨v, hInteger, hUnary⟩ := unary_integer hSource hExact
    obtain ⟨s, hAssign, hOutcome⟩ := exists_outcome_assign hDst v none
    exact ⟨v, s, hInteger, hAssign, congrArg (·, t) (hUnary.trans hOutcome)⟩
  case zero =>
    intro op type lhs rhs hDivision hType hLeft hRight
    obtain ⟨o, hBinary, hOutcome⟩ := exists_division hDst hDivision hType hLeft hRight
    exact ⟨o, congrArg (·, t) hBinary, hOutcome⟩
  exact BinaryOp.exact_division (by cases type <;> decide) hLow hHigh

/-- A method that divides. -/
def overflowingMethod : Method where
  reference := ⟨⟨"La;"⟩, "m", [], .int⟩
  flags := { static := true }
  locals := 5
  code := [.binary .div .int 0 0 (.register 1), .returnValue 0]
  tries := []

/-- The context of `overflowingMethod`, in which nothing is known of calls. -/
def overflowingContext : Context := ⟨.empty, overflowingMethod, fun _ _ => pure none⟩

/-- A state of `overflowingMethod`: the least integer, minus one, zero, a distance that is wider than a word, and what is not
known. -/
def overflowingState : State where
  locals := [some (.int Int32.minValue), some (.int (-1)), some (.int 0), some (.short 65), some (.unknown .int)]
  params := []
  result := none
  exception := none

theorem execute_integers_overflowingMethod :
    let s := overflowingState
    let t : Supply := ⟨.empty, 1⟩
    0 < s.registerCount ∧
    overflowingContext.Leaves 0 (.binary .div .int 0 0 (.register 1)) s s t 0 .int (-2147483648) ∧
    overflowingContext.Leaves 0 (.binary .shl .int 0 1 (.register 3)) s s t 0 .int (-2) ∧
    overflowingContext.Leaves 0 (.unary .intToChar 0 1) s s t 0 .char 65535 ∧
    (∃ o, overflowingContext.execute 0 (.binary .rem .int 0 0 (.register 2)) s s t = (.ok o, t) ∧
      o.flow = .raise (.unknown .arithmeticException) ∧ o.post = s) ∧
    ∃ o, overflowingContext.execute 0 (.binary .div .int 0 0 (.register 4)) s s t = (.ok o, t) ∧
      o.hazard = some (.unknown .arithmeticException) := by
  intro s t
  have hDst : 0 < s.registerCount := by decide
  obtain ⟨hArithmetic, hConversion, hDivision, -⟩ := execute_integers overflowingContext 0 s s t 0 hDst
  have hLeast : s.HasInteger 0 .int (-2147483648) := ⟨.int Int32.minValue, rfl, rfl⟩
  have hMinus : s.HasInteger 1 .int (-1) := ⟨.int (-1), rfl, rfl⟩
  have hZero : s.OperandInteger (.register 2) .int 0 := ⟨.int 0, rfl, rfl⟩
  have hFar : s.OperandInteger (.register 3) .int 65 := ⟨.short 65, rfl, rfl⟩
  have hUnknown : s.OperandUnknown (.register 4) := ⟨4, .int, rfl, rfl⟩
  refine ⟨hDst, ?_, ?_, ?_, ?_, ?_⟩
  · exact hArithmetic .div .int 0 (.register 1) (-2147483648) (-1) rfl hLeast hMinus (by decide)
  · exact hArithmetic .shl .int 1 (.register 3) (-1) 65 rfl hMinus hFar (by decide)
  · exact hConversion .intToChar 1 (-1) 65535 hMinus rfl
  · obtain ⟨o, hExecute, hFlow, -, hPost⟩ := hDivision .rem .int 0 (.register 2) rfl rfl (by decide) (.inl ⟨0, hZero⟩)
    exact ⟨o, hExecute, (hFlow _).mpr ⟨rfl, hZero⟩, hPost hZero⟩
  · obtain ⟨o, hExecute, -, hHazard, -⟩ := hDivision .div .int 0 (.register 4) rfl rfl (by decide) (.inr hUnknown)
    exact ⟨o, hExecute, (hHazard _).mpr ⟨rfl, hUnknown⟩⟩

end Context

end Semantics

end Dalvik
