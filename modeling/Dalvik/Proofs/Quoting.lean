import Dalvik.Text.Quoted

/-!
Quoted text read back. A character is escaped into characters that stand for its own code units, so that
what a quoted text says is read unit by unit.
-/

namespace Dalvik.Text

theorem hexDigitValue?_hexDigit (n : Nat) : hexDigitValue? (hexDigit n) = some (n % 16) := by
  have hn : n % 16 < 16 := Nat.mod_lt _ (by decide)
  unfold hexDigit
  generalize n % 16 = d at hn
  decide +revert

theorem hexDigit_ne_plus (n : Nat) : hexDigit n ≠ '+' := by
  have hn : n % 16 < 16 := Nat.mod_lt _ (by decide)
  unfold hexDigit
  generalize n % 16 = d at hn
  decide +revert

/-- The four digits of a code unit name it. -/
theorem hex?_hex4 {n : Nat} (h : n < 0x10000) : hex? (hex4 n) = some n := by
  simp only [hex?, hex4, List.isEmpty_cons, hexFrom?, hexDigitValue?_hexDigit, Option.bind_some]
  simp
  omega

theorem readUnit_hex4 (u : UInt16) : readUnit (hex4 u.toNat) = .ok u := by
  have hPlus : dropPlus (hex4 u.toNat) = hex4 u.toNat := by
    rw [hex4, dropPlus]
    exact fun _ h => hexDigit_ne_plus _ (List.cons.inj h).1
  simp [readUnit, hPlus, hex?_hex4 u.toNat_lt]

/-- A code unit that is written by its number is read as one unit. -/
theorem unescape_escapeUnit (u : UInt16) (r : List Char) :
    unescape (escapeUnit u ++ r) = (unescape r).map (u :: ·) := by
  have hUnit := readUnit_hex4 u
  rw [hex4] at hUnit
  simp only [escapeUnit, hex4, List.cons_append, List.nil_append]
  rw [unescape, hUnit]
  rfl

theorem unescape_flatMap_escapeUnit (us : List UInt16) (r : List Char) :
    unescape (us.flatMap escapeUnit ++ r) = (unescape r).map (us ++ ·) := by
  induction us with
  | nil => cases h : unescape r <;> simp [h, Except.map]
  | cons u us ih =>
      rw [List.flatMap_cons, List.append_assoc, unescape_escapeUnit, ih]
      cases h : unescape r <;> simp [Except.map]

/-- A letter after a backslash is read as the one unit that it names. -/
theorem unescape_letter {letter : Char} {u : UInt16} (h : escapedUnit? letter = some u)
    (hLetter : letter ≠ 'u') (r : List Char) :
    unescape ('\\' :: letter :: r) = (unescape r).map (u :: ·) := by
  rw [unescape, h]
  · rfl
  all_goals simp [hLetter]

/-- A character that stands for itself is read as its own units. -/
theorem unescape_self {c : Char} (h : c ≠ '\\') (r : List Char) :
    unescape (c :: r) = (unescape r).map (unitsOfChar c ++ ·) := by
  rw [unescape]
  · rfl
  all_goals simp [h]

theorem unescape_escapeChar (c : Char) (r : List Char) :
    unescape (escapeChar c ++ r) = (unescape r).map (unitsOfChar c ++ ·) := by
  unfold escapeChar
  split
  · rename_i h
    subst h
    exact unescape_letter rfl (by decide) r
  split
  · rename_i h
    subst h
    exact unescape_letter rfl (by decide) r
  split
  · rename_i h
    subst h
    exact unescape_letter rfl (by decide) r
  split
  · rename_i h
    subst h
    exact unescape_letter rfl (by decide) r
  split
  · rename_i h
    subst h
    exact unescape_letter rfl (by decide) r
  split
  · rename_i hBackslash _ _ _ _
    exact unescape_self hBackslash r
  · exact unescape_flatMap_escapeUnit (unitsOfChar c) r

/-- What a quoted text says are the code units of the text. -/
theorem unescape_flatMap_escapeChar (s : List Char) :
    unescape (s.flatMap escapeChar) = .ok (utf16 s) := by
  induction s with
  | nil => rfl
  | cons c s ih => simp [unescape_escapeChar, ih, utf16, Except.map]

theorem not_surrogate_of_lt {c : Char} (h : c.toNat < 0x10000) :
    isHighSurrogate (UInt16.ofNat c.toNat) = false ∧ isLowSurrogate (UInt16.ofNat c.toNat) = false := by
  have hValid : c.toNat < 0xD800 ∨ 0xDFFF < c.toNat ∧ c.toNat < 0x110000 := c.valid
  have hUnit : (UInt16.ofNat c.toNat).toNat = c.toNat := UInt16.toNat_ofNat_of_lt' h
  simp only [isHighSurrogate, isLowSurrogate, hUnit, Bool.and_eq_false_iff, decide_eq_false_iff_not]
  omega

/-- A unit that is no surrogate spells its character, whatever follows it. -/
theorem decodeUnits_cons_of_not_surrogate {u : UInt16} (hHigh : isHighSurrogate u = false)
    (hLow : isLowSurrogate u = false) (r : List UInt16) :
    decodeUnits (u :: r) = some (Char.ofNat u.toNat) :: decodeUnits r := by
  cases r with
  | nil => simp [decodeUnits, hHigh, hLow]
  | cons v r => rw [decodeUnits, hHigh, hLow]; rfl

/-- The units of a character spell it, whatever follows them: a text is cut between its characters. -/
theorem decodeUnits_unitsOfChar (c : Char) (r : List UInt16) :
    decodeUnits (unitsOfChar c ++ r) = some c :: decodeUnits r := by
  unfold unitsOfChar
  split
  · rename_i h
    obtain ⟨hHigh, hLow⟩ := not_surrogate_of_lt h
    have hUnit : (UInt16.ofNat c.toNat).toNat = c.toNat := UInt16.toNat_ofNat_of_lt' h
    rw [List.singleton_append, decodeUnits_cons_of_not_surrogate hHigh hLow, hUnit, Char.ofNat_toNat]
  · rename_i h
    have hValid : c.toNat < 0x110000 := by
      rcases c.valid with h | h
      · exact Nat.lt_trans h (by decide)
      · exact h.2
    have hHigh : (UInt16.ofNat (0xD800 + (c.toNat - 0x10000) / 0x400)).toNat =
        0xD800 + (c.toNat - 0x10000) / 0x400 := UInt16.toNat_ofNat_of_lt' (show _ < 0x10000 by omega)
    have hLow : (UInt16.ofNat (0xDC00 + (c.toNat - 0x10000) % 0x400)).toNat =
        0xDC00 + (c.toNat - 0x10000) % 0x400 := UInt16.toNat_ofNat_of_lt' (show _ < 0x10000 by omega)
    have hPair : charOfPair (UInt16.ofNat (0xD800 + (c.toNat - 0x10000) / 0x400))
        (UInt16.ofNat (0xDC00 + (c.toNat - 0x10000) % 0x400)) = c := by
      rw [charOfPair, hHigh, hLow]
      have hNumber : 0x10000 + (0xD800 + (c.toNat - 0x10000) / 0x400 - 0xD800) * 0x400 +
          (0xDC00 + (c.toNat - 0x10000) % 0x400 - 0xDC00) = c.toNat := by omega
      rw [hNumber, Char.ofNat_toNat]
    rw [List.cons_append, List.singleton_append, decodeUnits, if_pos, if_pos, hPair]
    · simp only [isLowSurrogate, hLow, Bool.and_eq_true, decide_eq_true_eq]
      omega
    · simp only [isHighSurrogate, hHigh, Bool.and_eq_true, decide_eq_true_eq]
      omega

theorem decodeUnits_utf16 (s : List Char) : decodeUnits (utf16 s) = s.map some := by
  induction s with
  | nil => rfl
  | cons c s ih =>
      rw [utf16, List.flatMap_cons, decodeUnits_unitsOfChar]
      exact congrArg (some c :: ·) ih

/-- A text is read back from its code units. -/
theorem ofUtf16?_utf16 (s : List Char) : ofUtf16? (utf16 s) = some s := by
  rw [ofUtf16?, decodeUnits_utf16]
  induction s with
  | nil => rfl
  | cons c s ih => simp_all

/-- A number that no character has is not taken for a printable one. -/
theorem toNat_ofNat_of_isPlain {n : Nat} (h : isPlain (Char.ofNat n) = true) :
    (Char.ofNat n).toNat = n := by
  by_cases hValid : n.isValidChar
  · rw [Char.ofNat, dif_pos hValid]
    rfl
  · rw [Char.ofNat, dif_neg hValid] at h
    exact absurd h (by decide)

/-- What stands between single quotes in a quoted unit. -/
def unitBody (u : UInt16) : List Char :=
  if u.toNat = '\''.toNat then ['\\', '\'']
  else if u.toNat = '\\'.toNat then ['\\', '\\']
  else if isPlain (Char.ofNat u.toNat) then [Char.ofNat u.toNat]
  else escapeUnit u

theorem quoteUnit_eq (u : UInt16) : quoteUnit u = '\'' :: unitBody u ++ ['\''] := by
  unfold quoteUnit unitBody
  repeat' split
  all_goals rfl

/-- A quoted unit is read back, a surrogate included. -/
theorem unescape_unitBody (u : UInt16) : unescape (unitBody u) = .ok [u] := by
  unfold unitBody
  split
  · rename_i h
    obtain rfl : u = 39 := UInt16.toNat_inj.mp h
    rfl
  split
  · rename_i h
    obtain rfl : u = 92 := UInt16.toNat_inj.mp h
    rfl
  split
  · rename_i hBackslash hPlain
    have hNumber := toNat_ofNat_of_isPlain hPlain
    have hSelf : Char.ofNat u.toNat ≠ '\\' := fun h => hBackslash (hNumber.symm.trans (congrArg _ h))
    have hUnits : unitsOfChar (Char.ofNat u.toNat) = [u] := by
      rw [unitsOfChar, hNumber, if_pos u.toNat_lt, UInt16.ofNat_toNat]
    rw [unescape_self hSelf, hUnits]
    rfl
  · simpa [unescape, Except.map] using unescape_escapeUnit u []

end Dalvik.Text
