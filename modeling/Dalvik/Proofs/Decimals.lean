import Dalvik.Floating.Decimal
import Dalvik.Proofs.Numerals
import Dalvik.Proofs.Scanning
import Mathlib.Algebra.Order.Field.Power
import Mathlib.Algebra.Order.Field.Rat
import Mathlib.Data.List.TakeWhile
import Mathlib.Data.Nat.Digits.Defs
import Mathlib.Tactic.FieldSimp
import Mathlib.Tactic.NormNum
import Mathlib.Tactic.Positivity

/-!
Floating point values are read from what is written of them, if not always as the same values. A finite number other than
zero is written with some digit: the seventeenth grid is closer than the numbers lie that round to the same value.
-/

namespace Dalvik

/-- Formats of at most 64 bits. -/
structure Format.Narrow (f : Format) : Prop where
  fraction : f.fraction ≤ 52
  least : -1074 ≤ f.minExponent

theorem Format.narrow_single : Format.single.Narrow := ⟨by decide, by decide⟩

theorem Format.narrow_double : Format.double.Narrow := ⟨by decide, by decide⟩

namespace Floating

variable {f : Format}

theorem tenTo_eq (n : Nat) : tenTo n = 10 ^ n := rfl

/-- Powers to the two parts of an integer: one of them is trivial. -/
theorem natPow_toNat (b : Nat) (hb : 0 < b) (z : Int) :
    ((b ^ z.toNat : Nat) : ℚ) = (b : ℚ) ^ z * ((b ^ (-z).toNat : Nat) : ℚ) := by
  have hSome : (b : ℚ) ≠ 0 := by exact_mod_cast hb.ne'
  push_cast
  rw [← zpow_natCast, ← zpow_natCast, ← zpow_add₀ hSome]
  congr 1
  omega

theorem pow_length_toDigits_le {n : Nat} (hn : 0 < n) : 10 ^ ((Nat.toDigits 10 n).length - 1) ≤ n := by
  by_contra hLess
  rw [Nat.not_le] at hLess
  rcases Nat.eq_zero_or_pos ((Nat.toDigits 10 n).length - 1) with hZero | hPos
  · rw [hZero, pow_zero] at hLess
    omega
  · have hShort := Nat.toDigits_length 10 n _ hPos hLess
    omega

/-- A number has at least as many places as its first digit says. -/
theorem zpow_leadingExponent_le {m : Nat} {q : Int} (hm : 0 < m) (hq : -1074 ≤ q) :
    (10 : ℚ) ^ leadingExponent m q ≤ m * 2 ^ q := by
  have hScaled : (m * tenTo 400) <<< q.toNat >>> (-q).toNat = m * 10 ^ 400 * 2 ^ q.toNat / 2 ^ (-q).toNat := by
    rw [Nat.shiftLeft_eq, Nat.shiftRight_eq_div_pow, tenTo_eq]
  have hPositive : 0 < m * 10 ^ 400 * 2 ^ q.toNat / 2 ^ (-q).toNat := by
    refine Nat.div_pos ?_ (Nat.two_pow_pos _)
    calc 2 ^ (-q).toNat ≤ 2 ^ 1074 := Nat.pow_le_pow_right (by decide) (by omega)
      _ ≤ 10 ^ 400 := by decide +kernel
      _ ≤ m * 10 ^ 400 * 2 ^ q.toNat := by
        rw [Nat.mul_right_comm]
        exact Nat.le_mul_of_pos_left _ (Nat.mul_pos hm (Nat.two_pow_pos _))
  have hDigits := pow_length_toDigits_le hPositive
  have hLength : 0 < (Nat.toDigits 10 (m * 10 ^ 400 * 2 ^ q.toNat / 2 ^ (-q).toNat)).length :=
    List.length_pos_iff.mpr Nat.toDigits_ne_nil
  have hFloor := Nat.div_mul_le_self (m * 10 ^ 400 * 2 ^ q.toNat) (2 ^ (-q).toNat)
  unfold leadingExponent
  rw [hScaled]
  generalize m * 10 ^ 400 * 2 ^ q.toNat / 2 ^ (-q).toNat = scaled at *
  have hProduct : (10 : ℚ) ^ ((Nat.toDigits 10 scaled).length - 1) * ((2 ^ (-q).toNat : Nat) : ℚ) ≤
      m * 10 ^ 400 * ((2 ^ q.toNat : Nat) : ℚ) := by
    exact_mod_cast Nat.le_trans (Nat.mul_le_mul_right _ hDigits) hFloor
  rw [natPow_toNat 2 (by decide) q, ← mul_assoc] at hProduct
  have hPlace := le_of_mul_le_mul_right hProduct (by positivity)
  have hExponent : ((Nat.toDigits 10 scaled).length : Int) - 401 =
      ((Nat.toDigits 10 scaled).length - 1 : Nat) - (400 : Nat) := by omega
  rw [hExponent, zpow_sub₀ (by norm_num), zpow_natCast, zpow_natCast, div_le_iff₀ (by positivity)]
  push_cast at hPlace
  rwa [mul_right_comm]

/-- The first number of a grid that is looked at is taken only if it is not below the neighbourhood. If neither it nor the
next one is taken, the neighbourhood lies between the two. -/
theorem onGrid?_cases (n : Neighbourhood) (s : Int) : ∃ d,
    (∃ found, onGrid? n s = some found ∧ (found.digits = d + 1 ∨ found.digits = d ∧
      n.low * (tenTo (-s).toNat <<< n.q.toNat) ≤ d * (tenTo s.toNat <<< (-n.q).toNat))) ∨
    onGrid? n s = none ∧ d * (tenTo s.toNat <<< (-n.q).toNat) ≤ n.low * (tenTo (-s).toNat <<< n.q.toNat) ∧
      n.high * (tenTo (-s).toNat <<< n.q.toNat) ≤ (d + 1) * (tenTo s.toNat <<< (-n.q).toNat) := by
  unfold onGrid?
  generalize tenTo s.toNat <<< (-n.q).toNat = unit
  generalize tenTo (-s).toNat <<< n.q.toNat = scale
  refine ⟨n.value * scale / unit, ?_⟩
  dsimp only
  generalize n.value * scale / unit = d
  have hCases {low high : Prop} [Decidable low] [Decidable high] (near : Prop) [Decidable near]
      (hLow : low ∧ n.low * scale ≤ d * unit ∨ ¬low ∧ d * unit ≤ n.low * scale)
      (hHigh : high ∨ n.high * scale ≤ (d + 1) * unit) :
      (∃ found : Decimal,
        (if low ∧ (near ∨ ¬high) then some ⟨d, s⟩ else if high then some ⟨d + 1, s⟩ else none) = some found ∧
          (found.digits = d + 1 ∨ found.digits = d ∧ n.low * scale ≤ d * unit)) ∨
      (if low ∧ (near ∨ ¬high) then some (⟨d, s⟩ : Decimal) else if high then some ⟨d + 1, s⟩ else none) = none ∧
        d * unit ≤ n.low * scale ∧ n.high * scale ≤ (d + 1) * unit := by
    by_cases hl : low <;> by_cases hh : high <;> by_cases hn : near <;> simp_all
  cases n.closed
  · refine hCases _ ?_ ?_
    · simp only [Bool.false_eq_true, if_false]
      omega
    · simp only [Bool.false_eq_true, if_false]
      omega
  · refine hCases _ ?_ ?_
    · simp only [if_true]
      omega
    · simp only [if_true]
      omega

/-- A grid that is closer than the numbers of a neighbourhood lie has one of them. -/
theorem isSome_onGrid? {n : Neighbourhood} {s : Int}
    (hClose : tenTo s.toNat <<< (-n.q).toNat < (n.high - n.low) * (tenTo (-s).toNat <<< n.q.toNat)) :
    (onGrid? n s).isSome := by
  obtain ⟨d, ⟨found, hFound, _⟩ | ⟨_, hBelow, hAbove⟩⟩ := onGrid?_cases n s
  · rw [hFound]
    rfl
  · rw [Nat.sub_mul] at hClose
    rw [Nat.add_mul, Nat.one_mul] at hAbove
    exact absurd (Nat.lt_sub_iff_add_lt'.mp hClose) (Nat.not_lt_of_le
      (Nat.le_trans hAbove (Nat.add_le_add_right hBelow _)))

/-- What is on a grid and in a neighbourhood of a positive number is no zero. -/
theorem digits_ne_zero_of_onGrid? {n : Neighbourhood} {s : Int} {found : Decimal} (hLow : 0 < n.low)
    (h : onGrid? n s = some found) : found.digits ≠ 0 := by
  have hScale : 0 < tenTo (-s).toNat <<< n.q.toNat := by
    rw [Nat.shiftLeft_eq, tenTo_eq]
    positivity
  have hSome := Nat.mul_pos hLow hScale
  obtain ⟨d, ⟨other, hOther, hDigits⟩ | ⟨hNone, _⟩⟩ := onGrid?_cases n s
  · obtain rfl := Option.some.inj (hOther.symm.trans h)
    rcases hDigits with hSecond | ⟨hFirst, hBelow⟩
    · omega
    · rintro hZero
      rw [← hFirst, hZero, Nat.zero_mul] at hBelow
      omega
  · rw [hNone] at h
    cases h

theorem digits_firstOnGrid_ne_zero {n : Neighbourhood} {s : Int} {count : Nat} (hLow : 0 < n.low)
    (hGrid : ∃ k < count, (onGrid? n (s - k)).isSome) : (firstOnGrid n s count).digits ≠ 0 := by
  induction count generalizing s with
  | zero =>
      obtain ⟨k, hk, _⟩ := hGrid
      exact absurd hk (Nat.not_lt_zero k)
  | succ count ih =>
      rw [firstOnGrid]
      cases hFirst : onGrid? n s with
      | some d => exact digits_ne_zero_of_onGrid? hLow hFirst
      | none =>
          obtain ⟨k, hk, hSome⟩ := hGrid
          cases k with
          | zero =>
              rw [Nat.cast_zero, sub_zero, hFirst] at hSome
              cases hSome
          | succ k =>
              refine ih ⟨k, Nat.lt_of_succ_lt_succ hk, ?_⟩
              have hSame : s - 1 - (k : Int) = s - ((k + 1 : Nat) : Int) := by omega
              rw [hSame]
              exact hSome

/-- A positive number of at most 53 binary places has a digit other than zero. -/
theorem digits_shortest_ne_zero {m : Nat} {q : Int} (hf : f.Narrow) (hm : 0 < m) (hBound : m < 2 ^ (f.fraction + 1))
    (hq : f.minExponent ≤ q) : (shortest f m q).digits ≠ 0 := by
  have hFraction := hf.fraction
  have hPower : 2 ^ f.fraction ≤ 2 ^ 52 := Nat.pow_le_pow_right (by decide) hFraction
  have hLess : m < 2 ^ 53 := Nat.lt_of_lt_of_le hBound (Nat.pow_le_pow_right (by decide) (by omega))
  refine digits_firstOnGrid_ne_zero ?_ ⟨16, by decide, isSome_onGrid? ?_⟩
  · unfold neighbourhood
    dsimp only
    split <;> omega
  · have hWidth : 4 * m < ((neighbourhood f m q).high - (neighbourhood f m q).low) * 10 ^ 16 := by
      unfold neighbourhood
      dsimp only
      split
      · rename_i hEdge
        have hEdge := hEdge.1
        rw [Nat.one_shiftLeft] at hEdge
        omega
      · omega
    have hPlace : (neighbourhood f m q).q = q - 2 := rfl
    rw [hPlace]
    generalize (neighbourhood f m q).high - (neighbourhood f m q).low = width at *
    have hLeading := zpow_leadingExponent_le hm (le_trans hf.least hq)
    generalize leadingExponent m q = e at *
    -- the grid `10 ^ (e - 16)`, in quarters of the last place, against the width of the neighbourhood
    have hGrid : (10 : ℚ) ^ (e - (16 : Nat)) * 2 ^ (-(q - 2)) < width := by
      have hQuarter : (2 : ℚ) ^ (-(q - 2)) = 4 * (2 ^ q)⁻¹ := by
        rw [neg_sub, zpow_sub₀ (by norm_num)]
        norm_num [div_eq_mul_inv]
      have hNarrow : (4 * m : ℚ) < width * 10 ^ 16 := by exact_mod_cast hWidth
      rw [zpow_sub₀ (by norm_num), zpow_natCast, hQuarter, div_mul_eq_mul_div, div_lt_iff₀ (by positivity)]
      calc (10 : ℚ) ^ e * (4 * (2 ^ q)⁻¹) ≤ m * 2 ^ q * (4 * (2 ^ q)⁻¹) :=
            mul_le_mul_of_nonneg_right hLeading (by positivity)
        _ = 4 * m := by field_simp
        _ < width * 10 ^ 16 := hNarrow
    have hUnit := natPow_toNat 10 (by decide) (e - (16 : Nat))
    have hScale := natPow_toNat 2 (by decide) (-(q - 2))
    rw [neg_neg] at hScale
    rw [Nat.shiftLeft_eq, Nat.shiftLeft_eq, tenTo_eq, tenTo_eq]
    have hRational : ((10 ^ (e - (16 : Nat)).toNat * 2 ^ (-(q - 2)).toNat : Nat) : ℚ) <
        ((width * (10 ^ (-(e - (16 : Nat))).toNat * 2 ^ (q - 2).toNat) : Nat) : ℚ) := by
      rw [Nat.cast_mul, hUnit, hScale, Nat.cast_mul, Nat.cast_mul, mul_mul_mul_comm]
      exact mul_lt_mul_of_pos_right hGrid (by positivity)
    exact_mod_cast hRational

theorem view_finite {x : Floating f} {negative : Bool} {m : Nat} {q : Int} (h : x.view = .finite negative m q) :
    m < 2 ^ (f.fraction + 1) ∧ f.minExponent ≤ q := by
  have hFraction : x.magnitude % 1 <<< f.fraction < 2 ^ f.fraction := by
    rw [Nat.one_shiftLeft]
    exact Nat.mod_lt _ (Nat.two_pow_pos _)
  have hTwice : 2 ^ (f.fraction + 1) = 2 ^ f.fraction + 2 ^ f.fraction := by rw [Nat.pow_succ, Nat.mul_two]
  unfold view at h
  dsimp only at h
  split at h
  · cases h
  · split at h
    · cases h
    · split at h
      · obtain ⟨_, rfl, rfl⟩ := View.finite.inj h
        exact ⟨by omega, Int.le_refl _⟩
      · rename_i hNormal
        obtain ⟨_, rfl, rfl⟩ := View.finite.inj h
        generalize x.magnitude >>> f.fraction = biased at hNormal
        exact ⟨by rw [Nat.one_shiftLeft] at hFraction ⊢; omega, by omega⟩

theorem isDigit_of_mem_significant {d : Decimal} {c : Char} (h : c ∈ d.significant.1) : c.isDigit = true := by
  have hAll := (List.dropWhile_sublist (p := (· = '0')) (l := (Nat.toDigits 10 d.digits).reverse)).subset
  exact Text.isDigit_of_mem_toDigits (List.mem_reverse.mp (hAll (List.mem_reverse.mp h)))

theorem ofDigitChars_eq_zero {s : List Char} (h : ∀ c ∈ s, c = '0') : Nat.ofDigitChars 10 s 0 = 0 := by
  induction s with
  | nil => rfl
  | cons c s ih =>
      obtain rfl := h c (.head _)
      exact ih fun d hd => h d (.tail _ hd)

/-- A decimal other than zero has a digit that is not cut off its end. -/
theorem significant_ne_nil {d : Decimal} (h : d.digits ≠ 0) : d.significant.1 ≠ [] := by
  intro hNil
  have hZeros : ∀ c ∈ Nat.toDigits 10 d.digits, c = '0' := by
    have hDropped : (Nat.toDigits 10 d.digits).reverse.dropWhile (· = '0') = [] := List.reverse_eq_nil_iff.mp hNil
    intro c hc
    simpa using List.dropWhile_eq_nil_iff.mp hDropped c (List.mem_reverse.mpr hc)
  have hValue := ofDigitChars_eq_zero hZeros
  rw [Nat.ofDigitChars_toDigits (by decide) (by decide)] at hValue
  exact h hValue

variable {a b : List Char}

theorem takeDigits_append (ha : ∀ c ∈ a, c.isDigit = true) (hb : ∀ c ∈ b.head?, c.isDigit = false) :
    takeDigits (a ++ b) = (a, b) := by
  have hTake : b.takeWhile Char.isDigit = [] := by
    cases b with
    | nil => rfl
    | cons c b => exact List.takeWhile_cons_of_neg (by simp [hb c rfl])
  rw [takeDigits, List.takeWhile_append_of_pos ha, List.dropWhile_append_of_pos ha, hTake, Text.dropWhile_eq_self hb,
    List.append_nil]

theorem isSome_readExponent?_toString (e : Int) : (readExponent? ('e' :: (toString e).toList)).isSome := by
  have hDigits : ((Nat.toDigits 10 e.natAbs).isEmpty || !(Nat.toDigits 10 e.natAbs).all Char.isDigit) = false := by
    have hAll : (Nat.toDigits 10 e.natAbs).all Char.isDigit = true :=
      List.all_eq_true.mpr fun _ => Text.isDigit_of_mem_toDigits
    simp [hAll]
  rw [Text.toList_toString_int]
  split
  · simp only [readExponent?, true_or, if_true, hDigits, Bool.false_eq_true, if_false, Option.isSome_some]
  · obtain ⟨c, r, hCons, hc⟩ := Text.exists_toDigits_eq_cons e.natAbs
    have hSign {d : Char} (hd : d.isDigit = false) (s : List Char) : c :: r ≠ d :: s :=
      fun h => Text.ne_of_isDigit hc hd (List.cons.inj h).1
    rw [hCons] at hDigits ⊢
    rw [readExponent?, if_pos (.inl rfl)]
    · simp only [hDigits, Bool.false_eq_true, if_false, Option.isSome_some]
    · exact hSign (by decide)
    · exact hSign (by decide)

/-- Digits with a point among them, or without one, and a power of ten after them are a number. -/
theorem isSome_readDecimal? {e : List Char} (ha : ∀ c ∈ a, c.isDigit = true) (hb : ∀ c ∈ b, c.isDigit = true)
    (he : e = [] ∨ ∃ n : Int, e = 'e' :: (toString n).toList) (hSome : a ++ b ≠ []) :
    (readDecimal? (a ++ '.' :: (b ++ e))).isSome ∧ (b = [] → (readDecimal? (a ++ e)).isSome) := by
  have hHead : ∀ c ∈ e.head?, c.isDigit = false ∧ c ≠ '.' := by
    rcases he with rfl | ⟨n, rfl⟩
    · simp
    · simp
  have hExponent : (readExponent? e).isSome := by
    rcases he with rfl | ⟨n, rfl⟩
    · rfl
    · exact isSome_readExponent?_toString n
  have hFraction := takeDigits_append hb fun c hc => (hHead c hc).1
  constructor
  · rw [readDecimal?, takeDigits_append ha (by simp)]
    simp [hFraction, hSome, hExponent]
  · rintro rfl
    rw [readDecimal?, takeDigits_append ha fun c hc => (hHead c hc).1]
    rw [List.append_nil] at hSome
    cases e with
    | nil => simp [hSome, readExponent?]
    | cons c e =>
        have hPoint := (hHead c rfl).2
        simp [hSome, hExponent, hPoint]

/-- The digits of a number as they are written are read as some number. -/
theorem isSome_readDecimal?_written {digits : List Char} (hDigits : ∀ c ∈ digits, c.isDigit = true) (hSome : digits ≠ [])
    (exponent : Int) :
    (readDecimal? (positional digits exponent)).isSome ∧ (readDecimal? (scientific digits exponent)).isSome := by
  have hZeros (n : Nat) : ∀ c ∈ List.replicate n '0', c.isDigit = true := fun c hc =>
    List.eq_of_mem_replicate hc ▸ rfl
  constructor
  · unfold positional
    split
    · have hAll : ∀ c ∈ List.replicate (-exponent - 1).toNat '0' ++ digits, c.isDigit = true := fun c hc =>
        (List.mem_append.mp hc).elim (hZeros _ c) (hDigits c)
      have hRead := (isSome_readDecimal? (a := ['0']) (List.forall_mem_singleton.mpr rfl) hAll (.inl rfl) (by simp)).1
      simpa using hRead
    · dsimp only
      have hWhole : ∀ c ∈ digits.take (exponent.toNat + 1) ++
          List.replicate (exponent.toNat + 1 - digits.length) '0', c.isDigit = true := fun c hc =>
        (List.mem_append.mp hc).elim (fun h => hDigits c (List.mem_of_mem_take h)) (hZeros _ c)
      have hRest : ∀ c ∈ if (digits.drop (exponent.toNat + 1)).isEmpty then ['0'] else digits.drop (exponent.toNat + 1),
          c.isDigit = true := by
        intro c hc
        split at hc
        · exact List.mem_singleton.mp hc ▸ rfl
        · exact hDigits c (List.mem_of_mem_drop hc)
      have hRead := (isSome_readDecimal? hWhole hRest (.inl rfl) (by simp [hSome])).1
      simpa using hRead
  · unfold scientific
    dsimp only
    have hFirst : ∀ c ∈ digits.take 1, c.isDigit = true := fun c hc => hDigits c (List.mem_of_mem_take hc)
    have hRest : ∀ c ∈ digits.drop 1, c.isDigit = true := fun c hc => hDigits c (List.mem_of_mem_drop hc)
    have hRead := isSome_readDecimal? hFirst hRest (.inr ⟨exponent, rfl⟩)
      (by rwa [List.take_append_drop])
    split
    · rename_i hEmpty
      simpa using hRead.2 (List.isEmpty_iff.mp hEmpty)
    · simpa using hRead.1

/-- A written number begins with a digit. -/
theorem head?_written {digits : List Char} (hDigits : ∀ c ∈ digits, c.isDigit = true) (hSome : digits ≠ [])
    (exponent : Int) :
    (∃ c r, positional digits exponent = c :: r ∧ c.isDigit = true) ∧
      ∃ c r, scientific digits exponent = c :: r ∧ c.isDigit = true := by
  obtain ⟨c, r, rfl⟩ := List.exists_cons_of_ne_nil hSome
  have hc := hDigits c (.head _)
  refine ⟨?_, c, _, rfl, hc⟩
  unfold positional
  split
  · exact ⟨'0', _, rfl, rfl⟩
  · exact ⟨c, _, rfl, hc⟩

/-- The characters that the numbers are written with. -/
def isNumeral (c : Char) : Bool := c.isDigit || c ∈ ['-', '.', 'e', 'i', 'n', 'f', 'N', 'a']

theorem isNumeral_of_mem_written {digits : List Char} (hDigits : ∀ c ∈ digits, c.isDigit = true) {exponent : Int} {c : Char}
    (h : c ∈ positional digits exponent ∨ c ∈ scientific digits exponent) : isNumeral c = true := by
  have hDigit (hc : c.isDigit = true) : isNumeral c = true := by simp [isNumeral, hc]
  rcases h with h | h
  · unfold positional at h
    split at h
    · simp only [List.mem_append] at h
      rcases h with (h | h) | h
      · rcases List.mem_pair.mp h with rfl | rfl <;> rfl
      · exact List.eq_of_mem_replicate h ▸ rfl
      · exact hDigit (hDigits c h)
    · simp only [List.mem_append, List.mem_cons] at h
      rcases h with (h | h) | rfl | h
      · exact hDigit (hDigits c (List.mem_of_mem_take h))
      · exact List.eq_of_mem_replicate h ▸ rfl
      · rfl
      · split at h
        · exact List.mem_singleton.mp h ▸ rfl
        · exact hDigit (hDigits c (List.mem_of_mem_drop h))
  · unfold scientific at h
    simp only [List.mem_append, List.mem_cons] at h
    rcases h with (h | h) | rfl | h
    · exact hDigit (hDigits c (List.mem_of_mem_take h))
    · split at h
      · cases h
      · rcases List.mem_cons.mp h with rfl | h
        · rfl
        · exact hDigit (hDigits c (List.mem_of_mem_drop h))
    · rfl
    · rcases Text.mem_toString_int h with hc | rfl
      · exact hDigit hc
      · rfl

/-- What is written of a value without its sign. -/
inductive Written : List Char → Prop
  | nan : Written "NaN".toList
  | infinite : Written "inf".toList
  | zero : Written "0.0".toList
  | positional {digits : List Char} (exponent : Int) : (∀ c ∈ digits, c.isDigit = true) → digits ≠ [] →
      Written (positional digits exponent)
  | scientific {digits : List Char} (exponent : Int) : (∀ c ∈ digits, c.isDigit = true) → digits ≠ [] →
      Written (scientific digits exponent)

theorem written_text (hf : f.Narrow) (x : Floating f) :
    ∃ s, Written s ∧ (x.text.toList = s ∨ x.text.toList = '-' :: s) := by
  unfold text
  cases hView : x.view with
  | nan => exact ⟨_, .nan, .inl rfl⟩
  | infinite negative =>
      refine ⟨_, .infinite, ?_⟩
      cases negative with
      | false => exact .inl rfl
      | true => exact .inr (by decide : "-inf".toList = _ :: "inf".toList)
  | finite negative m q =>
      have hSigned (s : List Char) : (String.ofList ((if negative then ['-'] else []) ++ s)).toList = s ∨
          (String.ofList ((if negative then ['-'] else []) ++ s)).toList = '-' :: s := by
        cases negative <;> simp
      refine ⟨_, ?_, hSigned _⟩
      split
      · exact .zero
      · rename_i hm
        obtain ⟨hBound, hPlace⟩ := view_finite hView
        have hDigits : ∀ c ∈ (shortest f m q).significant.1, c.isDigit = true := fun _ => isDigit_of_mem_significant
        have hSome := significant_ne_nil (digits_shortest_ne_zero hf (Nat.pos_of_ne_zero hm) hBound hPlace)
        dsimp only
        split
        · exact .positional _ hDigits hSome
        · exact .scientific _ hDigits hSome

theorem Written.isNumeral {s : List Char} (h : Written s) : ∀ c ∈ s, isNumeral c = true := by
  cases h with
  | nan | infinite | zero => exact List.all_eq_true.mp (by decide)
  | positional exponent hDigits _ => exact fun c hc => isNumeral_of_mem_written hDigits (.inl hc)
  | scientific exponent hDigits _ => exact fun c hc => isNumeral_of_mem_written hDigits (.inr hc)

theorem Written.isSome_readUnsigned? {s : List Char} (h : Written s) (negative : Bool) :
    (readUnsigned? negative s : Option (Floating f)).isSome := by
  have hNumber {s : List Char} (hRead : (readDecimal? s).isSome) :
      (readUnsigned? negative s : Option (Floating f)).isSome := by
    unfold readUnsigned?
    dsimp only
    split
    · rfl
    · split
      · rfl
      · rwa [Option.isSome_map]
  cases h with
  | nan | infinite => rfl
  | zero => exact hNumber (by decide)
  | positional exponent hDigits hSome => exact hNumber (isSome_readDecimal?_written hDigits hSome exponent).1
  | scientific exponent hDigits hSome => exact hNumber (isSome_readDecimal?_written hDigits hSome exponent).2

/-- What is written without a sign begins with a digit or with the first letter of what is no number. -/
theorem Written.begins {s : List Char} (h : Written s) : ∃ c r, s = c :: r ∧ (c.isDigit = true ∨ c ∈ ['i', 'N']) := by
  have hDigit {s : List Char} (h : ∃ c r, s = c :: r ∧ c.isDigit = true) :
      ∃ c r, s = c :: r ∧ (c.isDigit = true ∨ c ∈ ['i', 'N']) := by
    obtain ⟨c, r, rfl, hc⟩ := h
    exact ⟨c, r, rfl, .inl hc⟩
  cases h with
  | nan | infinite | zero => exact ⟨_, _, rfl, by decide⟩
  | positional exponent hDigits hSome => exact hDigit (head?_written hDigits hSome exponent).1
  | scientific exponent hDigits hSome => exact hDigit (head?_written hDigits hSome exponent).2

/-- What is written without a sign begins with no character that is neither a digit nor such a letter. -/
theorem Written.not_begins {s : List Char} (h : Written s) (cs : List Char)
    (hNone : (cs.all fun c => !c.isDigit && c ∉ ['i', 'N']) = true) : ∃ c r, s = c :: r ∧ c ∉ cs := by
  obtain ⟨c, r, rfl, hc⟩ := h.begins
  refine ⟨c, r, rfl, fun hMem => ?_⟩
  have hOther := List.all_eq_true.mp hNone c hMem
  simp only [Bool.and_eq_true, Bool.not_eq_true', decide_eq_true_eq] at hOther
  rcases hc with hDigit | hLetter
  · exact absurd hDigit (by simp [hOther.1])
  · exact hOther.2 hLetter

/-- Every value is read as some value from what is written of it. -/
theorem isSome_read?_text (hf : f.Narrow) (x : Floating f) : (read? x.text.toList : Option (Floating f)).isSome := by
  obtain ⟨s, hWritten, hText | hText⟩ := written_text hf x
  · obtain ⟨c, r, rfl, hSign⟩ := hWritten.not_begins ['-', '+'] (by decide)
    rw [hText, read?]
    · exact hWritten.isSome_readUnsigned? false
    · exact fun _ h => hSign (by simp [(List.cons.inj h).1])
    · exact fun _ h => hSign (by simp [(List.cons.inj h).1])
  · rw [hText, read?]
    exact hWritten.isSome_readUnsigned? true

theorem isNumeral_of_mem_text (hf : f.Narrow) {x : Floating f} {c : Char} (h : c ∈ x.text.toList) :
    isNumeral c = true := by
  obtain ⟨s, hWritten, hText | hText⟩ := written_text hf x
  · exact hWritten.isNumeral c (hText ▸ h)
  · rw [hText] at h
    rcases List.mem_cons.mp h with rfl | h
    · rfl
    · exact hWritten.isNumeral c h

end Floating

end Dalvik
