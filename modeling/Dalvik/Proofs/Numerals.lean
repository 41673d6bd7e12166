import Dalvik.Text.Numeral

/-!
Written integers read back. Decimal digits come from `Nat.toDigits` and are read by `Nat.ofDigitChars`; a
number of 64 bits is written in decimal and its sign is taken off before the digits are read.
-/

namespace Dalvik.Text

theorem isDigit_of_mem_toDigits {n : Nat} {c : Char} (h : c ∈ Nat.toDigits 10 n) :
    c.isDigit = true :=
  Nat.isDigit_of_mem_toDigits (by decide) (by decide) h

theorem ne_of_isDigit {c d : Char} (hc : c.isDigit = true) (hd : d.isDigit = false) : c ≠ d := by
  rintro rfl
  simp [hd] at hc

@[simp] theorem decimal?_toDigits (n : Nat) : decimal? (Nat.toDigits 10 n) = some n := by
  have hAll : (Nat.toDigits 10 n).all Char.isDigit = true :=
    List.all_eq_true.mpr fun _ => isDigit_of_mem_toDigits
  rw [decimal?, hAll, Nat.ofDigitChars_toDigits (by decide) (by decide)]
  simp

/-- A character that is no digit stops a decimal number. -/
theorem decimal?_eq_none {s : List Char} {c : Char} (hMem : c ∈ s) (hDigit : c.isDigit = false) :
    decimal? s = none := by
  have hAll : s.all Char.isDigit = false := List.all_eq_false.mpr ⟨c, hMem, by simp [hDigit]⟩
  simp [decimal?, hAll]

/-- A text is no decimal number and, without the mark of hexadecimal ones, no magnitude. -/
theorem magnitude?_eq_decimal? {s : List Char} (h : 'x' ∉ s) :
    magnitude? s = ((decimal? s).filter (· < 0x8000000000000000)).map Int64.ofNat := by
  have hMark : dropLead? "0x".toList s = none := by
    refine if_neg fun hLead => h ?_
    exact (List.isPrefixOf_iff_prefix.mp hLead).subset (by simp)
  rw [magnitude?, hMark]

theorem magnitude?_toDigits {n : Nat} (h : n < 0x8000000000000000) :
    magnitude? (Nat.toDigits 10 n) = some (Int64.ofNat n) := by
  have hMark : 'x' ∉ Nat.toDigits 10 n := fun hMem =>
    ne_of_isDigit (isDigit_of_mem_toDigits hMem) (by decide) rfl
  simp [magnitude?_eq_decimal? hMark, Option.filter, h]

theorem exists_toDigits_eq_cons (n : Nat) :
    ∃ c r, Nat.toDigits 10 n = c :: r ∧ c.isDigit = true := by
  obtain ⟨c, r, h⟩ := List.exists_cons_of_ne_nil (Nat.toDigits_ne_nil (n := n) (b := 10))
  exact ⟨c, r, h, isDigit_of_mem_toDigits (n := n) (by simp [h])⟩

theorem unsigned?_toDigits {n bound : Nat} (h : n < bound) :
    unsigned? bound (Nat.toDigits 10 n) = some n := by
  have hPlus : dropPlus (Nat.toDigits 10 n) = Nat.toDigits 10 n := by
    obtain ⟨c, r, hDigits, hc⟩ := exists_toDigits_eq_cons n
    rw [hDigits, dropPlus]
    exact fun _ h => ne_of_isDigit hc (by decide) (List.cons.inj h).1
  simp [unsigned?, hPlus, h]

theorem toList_toString_int (v : Int) :
    (toString v).toList =
      if v < 0 then '-' :: Nat.toDigits 10 v.natAbs else Nat.toDigits 10 v.natAbs := by
  cases v with
  | ofNat n =>
      have hText : toString (Int.ofNat n) = toString n := rfl
      rw [hText, Nat.toString_eq_ofList_toDigits, if_neg (by simp)]
      simp
  | negSucc n =>
      have hText : toString (Int.negSucc n) = "-" ++ toString (n + 1) := rfl
      rw [hText, Nat.toString_eq_ofList_toDigits, if_pos (Int.negSucc_lt_zero n)]
      simp

/-- A written integer consists of digits, and a minus sign may stand first. -/
theorem mem_toString_int {v : Int} {c : Char} (h : c ∈ (toString v).toList) :
    c.isDigit = true ∨ c = '-' := by
  rw [toList_toString_int] at h
  split at h
  · rcases List.mem_cons.mp h with rfl | hDigits
    · exact .inr rfl
    · exact .inl (isDigit_of_mem_toDigits hDigits)
  · exact .inl (isDigit_of_mem_toDigits h)

theorem integer?_toDigits {n : Nat} (h : n < 0x8000000000000000) :
    integer? (Nat.toDigits 10 n) = some (Int64.ofNat n) := by
  obtain ⟨c, r, hDigits, hc⟩ := exists_toDigits_eq_cons n
  rw [hDigits, integer?, ← hDigits]
  · exact magnitude?_toDigits h
  · exact fun _ h => ne_of_isDigit hc (by decide) (List.cons.inj h).1

/-- An integer is read back from its decimal form if its magnitude has 63 bits, which that of the least
integer of 64 bits has not. -/
theorem integer?_toString {v : Int} (h : v.natAbs < 0x8000000000000000) :
    integer? (toString v).toList = some (Int64.ofInt v) := by
  rw [toList_toString_int]
  split
  · rw [integer?, magnitude?_toDigits h]
    have hv : Int64.ofInt v = Int64.ofInt (-(v.natAbs : Int)) := congrArg Int64.ofInt (by omega)
    rw [hv, Int64.ofInt_neg]
    rfl
  · rw [integer?_toDigits h]
    have hv : Int64.ofInt v = Int64.ofInt (v.natAbs : Int) := congrArg Int64.ofInt (by omega)
    rw [hv]
    rfl

end Dalvik.Text
