import Dalvik.Proofs.Decimals
import Dalvik.Proofs.Operands
import Dalvik.Proofs.Quoting

/-!
Literals as they are written and read. A literal is read from its own text as itself, or as some value of its kind if it
is a floating point value. The least integer of 64 bits is not read at all, and a type only if it is one.
-/

namespace Dalvik

open Listing (Word Closed)

/-- A text that can be the last operand of an instruction, and from which it is read. -/
structure Spells {α ε : Type} (read : List Char → Except ε α) (x : α) (text : String) : Prop
    extends Word text.toList where
  reads : read text.toList = .ok x

namespace Listing

/-- A text that does not lead out of the quotes that it stands between, nor hold the end of a line. -/
structure Shielded (mark : Char) (s : List Char) : Prop where
  passes : ∀ depth, pass? (.inside mark) depth s = some (.inside mark, depth)
  clear : dropCommentFrom (.inside mark) s = s
  unbroken : '\n' ∉ s

variable {mark c : Char} {s a b : List Char}

theorem shielded_nil (mark : Char) : Shielded mark [] := ⟨fun _ => rfl, rfl, List.not_mem_nil⟩

theorem shielded_self (hSlash : c ≠ '\\') (hMark : c ≠ mark) (hBreak : c ≠ '\n') : Shielded mark [c] where
  passes depth := by simp [pass?, Scan.next, hSlash, hMark]
  clear := by simp [dropCommentFrom]
  unbroken hMem := hBreak (List.mem_singleton.mp hMem).symm

theorem shielded_escape (hBreak : c ≠ '\n') : Shielded mark ['\\', c] where
  passes depth := by simp [pass?, Scan.next]
  clear := by simp [dropCommentFrom, Scan.next]
  unbroken hMem := by simp [hBreak.symm] at hMem

theorem Shielded.append (ha : Shielded mark a) (hb : Shielded mark b) : Shielded mark (a ++ b) where
  passes depth := by rw [pass?_append, ha.passes depth, Option.bind_some, hb.passes depth]
  clear := by
    refine dropCommentFrom_append ha.clear ?_
    rw [Scan.after_eq (ha.passes 0)]
    exact hb.clear
  unbroken hMem := (List.mem_append.mp hMem).elim ha.unbroken hb.unbroken

theorem shielded_flatMap {α : Type} {f : α → List Char} {xs : List α} (h : ∀ x ∈ xs, Shielded mark (f x)) :
    Shielded mark (xs.flatMap f) := by
  induction xs with
  | nil => exact shielded_nil mark
  | cons x xs ih => exact (h x (.head _)).append (ih fun y hy => h y (.tail _ hy))

/-- A text between quotes is a closed word. -/
theorem Shielded.quoted (h : Shielded mark s) (hMark : mark = '"' ∨ mark = '\'') :
    Word (mark :: s ++ [mark]) ∧ Closed (mark :: s ++ [mark]) := by
  have hOpen : Scan.next .outside mark = .inside mark := if_pos hMark
  have hClose : Scan.next (.inside mark) mark = .outside := by
    rcases hMark with rfl | rfl <;> decide
  have hBlank : Text.isBlank mark = false := by rcases hMark with rfl | rfl <;> decide
  have hStep : bracketStep mark = 0 := by rcases hMark with rfl | rfl <;> decide
  have hComma : mark ≠ ',' := by rcases hMark with rfl | rfl <;> decide
  have hSign : mark ≠ '#' := by rcases hMark with rfl | rfl <;> decide
  have hBreak : '\n' ≠ mark := by rcases hMark with rfl | rfl <;> decide
  have hClosed : Closed (mark :: s ++ [mark]) := fun depth _ => by
    rw [List.cons_append, pass?, if_pos rfl, if_neg fun h => hComma h.1, hOpen, hStep, Int.add_zero, pass?_append,
      h.passes depth, Option.bind_some]
    simp [pass?, hClose]
  refine ⟨⟨⟨⟨fun c hc => ?_, fun c hc => ?_⟩, ?_, ?_⟩, List.cons_ne_nil _ _, hClosed.passes⟩, hClosed⟩
  · exact Option.some.inj hc ▸ hBlank
  · rw [List.getLast?_append] at hc
    exact Option.some.inj hc ▸ hBlank
  · have hBody : dropCommentFrom (.inside mark) (s ++ [mark]) = s ++ [mark] := by
      refine dropCommentFrom_append h.clear ?_
      rw [Scan.after_eq (h.passes 0)]
      simp [dropCommentFrom]
    rw [List.cons_append, dropComment, dropCommentFrom, if_neg fun h => hSign h.2, hOpen, hBody]
  · simp [hBreak, h.unbroken]

end Listing

namespace Text

open Listing (Shielded shielded_self shielded_escape shielded_flatMap)

variable {mark : Char}

/-- A hexadecimal digit is neither a quote nor a backslash. -/
theorem shielded_hexDigit (hMark : mark = '"' ∨ mark = '\'') (n : Nat) : Shielded mark [hexDigit n] := by
  have hn : n % 16 < 16 := Nat.mod_lt _ (by decide)
  have hAll : ∀ k < 16, Nat.digitChar k ≠ '\\' ∧ Nat.digitChar k ≠ '"' ∧ Nat.digitChar k ≠ '\'' ∧
      Nat.digitChar k ≠ '\n' := by decide
  obtain ⟨hSlash, hDouble, hSingle, hBreak⟩ := hAll _ hn
  refine shielded_self hSlash ?_ hBreak
  rcases hMark with rfl | rfl
  · exact hDouble
  · exact hSingle

theorem shielded_escapeUnit (hMark : mark = '"' ∨ mark = '\'') (u : UInt16) : Shielded mark (escapeUnit u) := by
  have hDigit := shielded_hexDigit hMark
  have hDigits : Shielded mark (hex4 u.toNat) :=
    (hDigit (u.toNat / 4096)).append ((hDigit (u.toNat / 256)).append ((hDigit (u.toNat / 16)).append (hDigit u.toNat)))
  exact (shielded_escape (by decide : 'u' ≠ '\n')).append hDigits

theorem ne_break_of_isPlain {c : Char} (h : isPlain c = true) : c ≠ '\n' := by
  rintro rfl
  exact absurd h (by decide)

theorem shielded_escapeChar (c : Char) : Shielded '"' (escapeChar c) := by
  unfold escapeChar
  split
  · exact shielded_escape (by decide)
  split
  · exact shielded_escape (by decide)
  split
  · exact shielded_escape (by decide)
  split
  · exact shielded_escape (by decide)
  split
  · exact shielded_escape (by decide)
  split
  · rename_i hQuote hSlash hBreak _ _ _
    exact shielded_self hSlash hQuote hBreak
  · exact shielded_flatMap fun u _ => shielded_escapeUnit (.inl rfl) u

theorem shielded_unitBody (u : UInt16) : Shielded '\'' (unitBody u) := by
  unfold unitBody
  split
  · exact shielded_escape (by decide)
  split
  · exact shielded_escape (by decide)
  split
  · rename_i hQuote hSlash hPlain
    have hNumber := toNat_ofNat_of_isPlain hPlain
    refine shielded_self (fun h => hSlash ?_) (fun h => hQuote ?_) (ne_break_of_isPlain hPlain)
    · exact hNumber.symm.trans (congrArg Char.toNat h)
    · exact hNumber.symm.trans (congrArg Char.toNat h)
  · exact shielded_escapeUnit (.inr rfl) u

/-- What ends with a character that is no digit is no integer. -/
theorem integer?_eq_none {s : List Char} {c : Char} (hHex : 'x' ∉ s) (hMem : c ∈ s) (hDigit : c.isDigit = false)
    (hSign : c ≠ '-') : integer? s = none := by
  have hMagnitude {s : List Char} (hHex : 'x' ∉ s) (hMem : c ∈ s) : magnitude? s = none := by
    rw [magnitude?_eq_decimal? hHex, decimal?_eq_none hMem hDigit]
    rfl
  unfold integer?
  split
  · rw [hMagnitude (fun h => hHex (.tail _ h)) ((List.mem_cons.mp hMem).resolve_left hSign)]
    rfl
  · exact hMagnitude hHex hMem

end Text

namespace Literal

/-- Two literals that differ in nothing but a floating point value. -/
def Resembles : Literal → Literal → Prop
  | float _, float _ | double _, double _ => True
  | v, w => v = w

/-- The literals that may not be read from their own texts, types and the least integer of 64 bits. -/
def Unchecked : Literal → Prop
  | long v => v = Int64.minValue
  | type _ => True
  | _ => False

instance (v : Literal) : Decidable v.Unchecked := by
  rcases v with ⟨⟩ <;> dsimp only [Unchecked] <;> infer_instance

variable {s : List Char} {c : Char}

/-- What begins like a number is read as one. -/
theorem read_eq_readNumber (h : ∃ c r, s = c :: r ∧ c ∉ ['n', 't', 'f', '"', '\'', 'L', '[']) :
    read s = readNumber (String.ofList s) s := by
  obtain ⟨c, r, rfl, hc⟩ := h
  simp only [List.mem_cons, List.not_mem_nil, or_false, not_or] at hc
  obtain ⟨hNull, hTrue, hFalse, hDouble, hSingle, hClass, hArray⟩ := hc
  have hWord {word : List Char} {d : Char} (hd : c ≠ d) (hHead : word.head? = some d := by rfl) : c :: r ≠ word := by
    rintro rfl
    exact hd (Option.some.inj hHead)
  have hQuoted {d : Char} (hd : c ≠ d) : Text.enclosed? d d (c :: r) = none := by
    simp [Text.enclosed?, Text.dropLead?, hd.symm]
  unfold read
  have hNotNull : c :: r ≠ "null".toList := hWord hNull
  have hNotTrue : c :: r ≠ "true".toList := hWord hTrue
  have hNotFalse : c :: r ≠ "false".toList := hWord hFalse
  have hNoType : ¬ ((c :: r).head? = some 'L' ∨ (c :: r).head? = some '[') := by simp [hClass, hArray]
  dsimp only
  rw [if_neg hNotNull, if_neg hNotTrue, if_neg hNotFalse, hQuoted hDouble, hQuoted hSingle]
  exact if_neg hNoType

/-- What ends with the letter of a kind is read as being of that kind. -/
theorem readNumber_append {suffix : Char} (hHex : 'x' ∉ s) (hSuffix : suffix ∈ ['L', 's', 't', 'f', 'd']) {v : Literal}
    (h : ofSuffix? s suffix = some v) (text : String) : readNumber text (s ++ [suffix]) = .ok v := by
  have hLetter : suffix.isDigit = false ∧ suffix ≠ '-' ∧ suffix ≠ 'x' ∧ suffix.toNat < 0x80 := by
    have hAll : (['L', 's', 't', 'f', 'd'].all fun c => !c.isDigit && c != '-' && c != 'x' && c.toNat < 0x80) = true := by
      decide
    simpa [and_assoc] using List.all_eq_true.mp hAll suffix hSuffix
  obtain ⟨hDigit, hSign, hMark, hSmall⟩ := hLetter
  have hNone : Text.integer? (s ++ [suffix]) = none :=
    Text.integer?_eq_none (by simp [hHex, hMark.symm]) (List.mem_append_right _ (.head _)) hDigit hSign
  rw [readNumber, hNone]
  simp only [List.getLast?_append, List.getLast?_singleton, Option.some_or, List.dropLast_concat]
  rw [if_neg (Nat.not_le_of_lt hSmall), h]

/-- A number is read from the text that it is read from as a number, without further marks of its kind. -/
theorem spells_of_readNumber {v w : Literal} (hQuiet : ∀ c ∈ v.text.toList, Listing.isQuiet c = true)
    (hBegins : ∃ c r, v.text.toList = c :: r ∧ c ∉ ['n', 't', 'f', '"', '\'', 'L', '['])
    (hReads : ∀ text, readNumber text v.text.toList = .ok w) : Spells Listing.readLiteral w v.text where
  toWord := by
    obtain ⟨c, r, hCons, _⟩ := hBegins
    exact Listing.word_of_quiet (by simp [hCons]) hQuiet
  reads := by rw [Listing.readLiteral, read_eq_readNumber hBegins, hReads]; rfl

/-- An integer begins with a digit or a sign. -/
theorem begins_toString (v : Int) (t : List Char) :
    ∃ c r, (toString v).toList ++ t = c :: r ∧ c ∉ ['n', 't', 'f', '"', '\'', 'L', '['] := by
  obtain ⟨c, r, hCons⟩ := List.exists_cons_of_ne_nil (Text.toString_int_ne_nil v)
  refine ⟨c, r ++ t, by rw [hCons, List.cons_append], ?_⟩
  have hc : c ∈ (toString v).toList := hCons ▸ .head _
  rcases Text.mem_toString_int hc with hDigit | rfl
  · simp only [List.mem_cons, List.not_mem_nil, or_false, not_or]
    refine ⟨?_, ?_, ?_, ?_, ?_, ?_, ?_⟩ <;> exact Text.ne_of_isDigit hDigit (by decide)
  · decide

theorem not_mem_toString {v : Int} : 'x' ∉ (toString v).toList := fun hMem => by
  rcases Text.mem_toString_int hMem with h | h
  · cases h
  · cases h

theorem begins_toString_self (v : Int) :
    ∃ c r, (toString v).toList = c :: r ∧ c ∉ ['n', 't', 'f', '"', '\'', 'L', '['] := by
  simpa using begins_toString v []

theorem quiet_of_mem_toString {v : Int} {c : Char} (h : c ∈ (toString v).toList) : Listing.isQuiet c = true ∧ c ≠ 'x' :=
  ⟨Text.quiet_of_mem_toString h, fun hc => not_mem_toString (hc ▸ h)⟩

theorem integer?_toString_toInt {v : Int} (h : v.natAbs < 0x8000000000000000) :
    ∃ n : Int64, Text.integer? (toString v).toList = some n ∧ n.toInt = v :=
  ⟨_, Text.integer?_toString h, Int64.toInt_ofInt_of_le (by omega) (by omega)⟩

theorem spells_int (v : Int32) : Spells Listing.readLiteral (.int v) (int v).text := by
  have hLow := v.le_toInt
  have hHigh := v.toInt_lt
  have hMin : Int32.minValue.toInt = -2147483648 := rfl
  obtain ⟨n, hn, hValue⟩ := integer?_toString_toInt (v := v.toInt) (by omega)
  have hNarrow : n.toInt32 = v := by
    refine Int32.toInt_inj.mp ?_
    rw [Int64.toInt_toInt32, hValue]
    exact Int.bmod_eq_of_le (by omega) (by omega)
  refine spells_of_readNumber (fun _ => Text.quiet_of_mem_toString) ?_ fun text => ?_
  · exact begins_toString_self v.toInt
  · have hText : (int v).text.toList = (toString v.toInt).toList := rfl
    rw [hText, readNumber, hn]
    simp only [ofInteger?, hValue, hNarrow]
    rw [if_pos (by omega)]

/-- A number with the letter of its kind after it. -/
theorem spells_suffixed {v w : Literal} {body : String} (suffix : Char)
    (hText : v.text = body ++ String.singleton suffix) (hSuffix : suffix ∈ ['L', 's', 't', 'f', 'd'])
    (hQuiet : ∀ c ∈ body.toList, Listing.isQuiet c = true ∧ c ≠ 'x')
    (hBegins : ∃ c r, body.toList = c :: r ∧ c ∉ ['n', 't', 'f', '"', '\'', 'L', '['])
    (hReads : ofSuffix? body.toList suffix = some w) : Spells Listing.readLiteral w v.text := by
  have hChars : v.text.toList = body.toList ++ [suffix] := by simp [hText]
  have hLetter : ∀ c ∈ ['L', 's', 't', 'f', 'd'], Listing.isQuiet c = true := List.all_eq_true.mp (by decide)
  refine spells_of_readNumber (fun c hc => ?_) ?_ fun text => ?_
  · rw [hChars] at hc
    rcases List.mem_append.mp hc with hBody | hLast
    · exact (hQuiet c hBody).1
    · exact List.mem_singleton.mp hLast ▸ hLetter suffix hSuffix
  · obtain ⟨c, r, hCons, hc⟩ := hBegins
    exact ⟨c, r ++ [suffix], by rw [hChars, hCons, List.cons_append], hc⟩
  · rw [hChars]
    exact readNumber_append (fun hMem => (hQuiet _ hMem).2 rfl) hSuffix hReads text

theorem spells_long {v : Int64} (h : v ≠ Int64.minValue) : Spells Listing.readLiteral (.long v) (long v).text := by
  have hLow := v.le_toInt
  have hHigh := v.toInt_lt
  have hMin : Int64.minValue.toInt = -9223372036854775808 := rfl
  have hOther : v.toInt ≠ Int64.minValue.toInt := fun hSame => h (Int64.toInt_inj.mp hSame)
  obtain ⟨n, hn, hValue⟩ := integer?_toString_toInt (v := v.toInt) (by omega)
  refine spells_suffixed 'L' rfl (by decide) (fun c => quiet_of_mem_toString) (begins_toString_self _) ?_
  rw [ofSuffix?, if_pos rfl, hn, Int64.toInt_inj.mp hValue]
  rfl

theorem spells_short (v : Int16) : Spells Listing.readLiteral (.short v) (short v).text := by
  have hLow := v.le_toInt
  have hHigh := v.toInt_lt
  have hMin : Int16.minValue.toInt = -32768 := rfl
  have hMax : Int16.maxValue.toInt = 32767 := rfl
  obtain ⟨n, hn, hValue⟩ := integer?_toString_toInt (v := v.toInt) (by omega)
  have hNarrow : n.toInt16 = v := by
    refine Int16.toInt_inj.mp ?_
    rw [Int64.toInt_toInt16, hValue]
    exact Int.bmod_eq_of_le (by omega) (by omega)
  refine spells_suffixed 's' rfl (by decide) (fun c => quiet_of_mem_toString) (begins_toString_self _) ?_
  rw [ofSuffix?, if_neg (by decide), if_pos rfl, hn, Option.bind_some, hValue, if_pos (by omega), hNarrow]

theorem spells_byte (v : Int8) : Spells Listing.readLiteral (.byte v) (byte v).text := by
  have hLow := v.le_toInt
  have hHigh := v.toInt_lt
  have hMin : Int8.minValue.toInt = -128 := rfl
  have hMax : Int8.maxValue.toInt = 127 := rfl
  obtain ⟨n, hn, hValue⟩ := integer?_toString_toInt (v := v.toInt) (by omega)
  have hNarrow : n.toInt8 = v := by
    refine Int8.toInt_inj.mp ?_
    rw [Int64.toInt_toInt8, hValue]
    exact Int.bmod_eq_of_le (by omega) (by omega)
  refine spells_suffixed 't' rfl (by decide) (fun c => quiet_of_mem_toString) (begins_toString_self _) ?_
  rw [ofSuffix?, if_neg (by decide), if_neg (by decide), if_pos rfl, hn, Option.bind_some, hValue, if_pos (by omega),
    hNarrow]

section Floating

variable {f : Format} (hf : f.Narrow) (x : Floating f)

include hf

theorem quiet_of_mem_text {x : Floating f} {c : Char} (h : c ∈ x.text.toList) :
    Listing.isQuiet c = true ∧ c ≠ 'x' := by
  have hNumeral := Floating.isNumeral_of_mem_text hf h
  simp only [Floating.isNumeral, Bool.or_eq_true, decide_eq_true_eq] at hNumeral
  rcases hNumeral with hDigit | hMark
  · exact ⟨Listing.quiet_of_isDigit hDigit, Text.ne_of_isDigit hDigit (by decide)⟩
  · have hAll : (['-', '.', 'e', 'i', 'n', 'f', 'N', 'a'].all fun c => Listing.isQuiet c && c != 'x') = true := by decide
    simpa using List.all_eq_true.mp hAll c hMark

/-- A value begins with a digit, a sign or the first letter of what is no number. -/
theorem begins_text : ∃ c r, x.text.toList = c :: r ∧ c ∉ ['n', 't', 'f', '"', '\'', 'L', '['] := by
  obtain ⟨s, hWritten, hText | hText⟩ := Floating.written_text hf x
  · obtain ⟨c, r, rfl, hc⟩ := hWritten.not_begins ['n', 't', 'f', '"', '\'', 'L', '['] (by decide)
    exact ⟨c, r, hText, hc⟩
  · exact ⟨'-', s, hText, by decide⟩

end Floating

theorem spells_float {v w : Single} (h : Floating.read? v.text.toList = some w) :
    Spells Listing.readLiteral (.float w) (float v).text := by
  refine spells_suffixed 'f' rfl (by decide) (fun c => quiet_of_mem_text Format.narrow_single)
    (begins_text Format.narrow_single v) ?_
  rw [ofSuffix?, if_neg (by decide), if_neg (by decide), if_neg (by decide), if_pos rfl, h, Option.map_some]

theorem spells_double {v w : Double} (h : Floating.read? v.text.toList = some w) :
    Spells Listing.readLiteral (.double w) (double v).text := by
  refine spells_suffixed 'd' rfl (by decide) (fun c => quiet_of_mem_text Format.narrow_double)
    (begins_text Format.narrow_double v) ?_
  rw [ofSuffix?, if_neg (by decide), if_neg (by decide), if_neg (by decide), if_neg (by decide), if_pos rfl, h,
    Option.map_some]

theorem exists_spells_float (v : Single) : ∃ w, Spells Listing.readLiteral (.float w) (float v).text := by
  obtain ⟨w, hw⟩ := Option.isSome_iff_exists.mp (Floating.isSome_read?_text Format.narrow_single v)
  exact ⟨w, spells_float hw⟩

theorem exists_spells_double (v : Double) : ∃ w, Spells Listing.readLiteral (.double w) (double v).text := by
  obtain ⟨w, hw⟩ := Option.isSome_iff_exists.mp (Floating.isSome_read?_text Format.narrow_double v)
  exact ⟨w, spells_double hw⟩

theorem spells_boolean (v : Bool) : Spells Listing.readLiteral (.boolean v) (boolean v).text := by
  cases v <;> exact ⟨Listing.word_of_quiet (by decide) (List.all_eq_true.mp (by decide)), rfl⟩

theorem spells_null : Spells Listing.readLiteral .null null.text :=
  ⟨Listing.word_of_quiet (by decide) (List.all_eq_true.mp (by decide)), rfl⟩

theorem toList_text_char (v : UInt16) : (char v).text.toList = '\'' :: (Text.unitBody v ++ ['\'']) := by
  rw [text, String.toList_ofList, Text.quoteUnit_eq]
  rfl

/-- A code unit between quotes is read back, a surrogate included. -/
theorem spells_char (v : UInt16) : Spells Listing.readLiteral (.char v) (char v).text := by
  have hText := toList_text_char v
  refine ⟨hText ▸ ((Text.shielded_unitBody v).quoted (.inr rfl)).1, ?_⟩
  have hNull : '\'' :: (Text.unitBody v ++ ['\'']) ≠ "null".toList := fun h => absurd (List.cons.inj h).1 (by decide)
  have hTrue : '\'' :: (Text.unitBody v ++ ['\'']) ≠ "true".toList := fun h => absurd (List.cons.inj h).1 (by decide)
  have hFalse : '\'' :: (Text.unitBody v ++ ['\'']) ≠ "false".toList := fun h => absurd (List.cons.inj h).1 (by decide)
  have hDouble : Text.enclosed? '"' '"' ('\'' :: (Text.unitBody v ++ ['\''])) = none := by
    simp [Text.enclosed?, Text.dropLead?]
  rw [hText, Listing.readLiteral, read, if_neg hNull, if_neg hTrue, if_neg hFalse, hDouble, Listing.enclosed?_around]
  simp only [readChar, Text.unescape_unitBody]
  rfl

theorem toList_text_string (v : String) :
    (string v).text.toList = '"' :: (v.toList.flatMap Text.escapeChar ++ ['"']) := by
  rw [text, String.toList_ofList]
  rfl

theorem shielded_escaped (v : String) : Listing.Shielded '"' (v.toList.flatMap Text.escapeChar) :=
  Listing.shielded_flatMap fun c _ => Text.shielded_escapeChar c

/-- A string is read back, whatever characters it holds. -/
theorem spells_string (v : String) : Spells Listing.readLiteral (.string v) (string v).text := by
  have hText := toList_text_string v
  refine ⟨hText ▸ ((shielded_escaped v).quoted (.inl rfl)).1, ?_⟩
  generalize hBody : v.toList.flatMap Text.escapeChar = body at hText
  have hNull : '"' :: (body ++ ['"']) ≠ "null".toList := fun h => absurd (List.cons.inj h).1 (by decide)
  have hTrue : '"' :: (body ++ ['"']) ≠ "true".toList := fun h => absurd (List.cons.inj h).1 (by decide)
  have hFalse : '"' :: (body ++ ['"']) ≠ "false".toList := fun h => absurd (List.cons.inj h).1 (by decide)
  rw [hText, Listing.readLiteral, read, if_neg hNull, if_neg hTrue, if_neg hFalse, Listing.enclosed?_around]
  simp only [readString, ← hBody, Text.unescape_flatMap_escapeChar, Text.ofUtf16?_utf16, String.ofList_toList]
  rfl

/-- Every other literal is read from its own text, up to a floating point value. -/
theorem exists_spells (v : Literal) (hChecked : ¬ v.Unchecked) :
    ∃ w, v.Resembles w ∧ Spells Listing.readLiteral w v.text := by
  cases v with
  | int n => exact ⟨_, rfl, spells_int n⟩
  | long n => exact ⟨_, rfl, spells_long hChecked⟩
  | float x =>
      obtain ⟨w, hw⟩ := exists_spells_float x
      exact ⟨.float w, trivial, hw⟩
  | double x =>
      obtain ⟨w, hw⟩ := exists_spells_double x
      exact ⟨.double w, trivial, hw⟩
  | boolean b => exact ⟨_, rfl, spells_boolean b⟩
  | char u => exact ⟨_, rfl, spells_char u⟩
  | short n => exact ⟨_, rfl, spells_short n⟩
  | byte n => exact ⟨_, rfl, spells_byte n⟩
  | null => exact ⟨_, rfl, spells_null⟩
  | string s => exact ⟨_, rfl, spells_string s⟩
  | type d => exact absurd trivial hChecked

/-- The literals that are whatever their text says: integers, code units, truth values and null. -/
def isExact : Literal → Bool
  | float _ | double _ | string _ | type _ => false
  | _ => true

/-- The least integer of 64 bits has a magnitude that is out of range before it is negated. -/
theorem read_text_minValue :
    read (long Int64.minValue).text.toList = .error (.bad (long Int64.minValue).text) := by decide +kernel

/-- Every other exact literal is read from its own text. -/
theorem read_text {v : Literal} (h : v.isExact = true) (hOther : v ≠ long Int64.minValue) :
    read v.text.toList = .ok v := by
  have hReads : Spells Listing.readLiteral v v.text := by
    cases v with
    | int n => exact spells_int n
    | long n => exact spells_long fun hLeast => hOther (congrArg long hLeast)
    | boolean b => exact spells_boolean b
    | char u => exact spells_char u
    | short n => exact spells_short n
    | byte n => exact spells_byte n
    | null => exact spells_null
    | float _ | double _ | string _ | type _ => cases h
  have hRead := hReads.reads
  unfold Listing.readLiteral at hRead
  cases hResult : read v.text.toList with
  | ok w =>
      rw [hResult] at hRead
      exact congrArg Except.ok (Except.ok.inj hRead)
  | error e =>
      rw [hResult] at hRead
      cases hRead

/-- An exact literal is read from its own text as itself, with the one exception of the least integer of 64 bits, whose
text is no literal. -/
theorem parse_text {v : Literal} (h : v.isExact = true) :
    parse v.text = if v = long Int64.minValue then .error (.bad v.text) else .ok v := by
  unfold parse
  split
  · rename_i hLeast
    subst hLeast
    exact read_text_minValue
  · rename_i hOther
    exact read_text h hOther

/-- Literals at the ends of their ranges, and a surrogate without its partner. -/
theorem parse_text_extremes :
    (∀ v ∈ [int Int32.minValue, int Int32.maxValue, long Int64.maxValue, short Int16.minValue, byte Int8.minValue,
      char 0xD800, char 0xFFFF], v.isExact = true ∧ parse v.text = .ok v) ∧
    (long Int64.minValue).isExact = true ∧ (long Int64.minValue).text = "-9223372036854775808L" ∧
      parse (long Int64.minValue).text = .error (.bad (long Int64.minValue).text) := by
  have hExact : ([int Int32.minValue, int Int32.maxValue, long Int64.maxValue, short Int16.minValue, byte Int8.minValue,
      char 0xD800, char 0xFFFF].all fun v => v.isExact && v != long Int64.minValue) = true := by decide
  refine ⟨fun v hv => ?_, rfl, by decide +kernel, (parse_text rfl).trans (if_pos rfl)⟩
  have hThis := List.all_eq_true.mp hExact v hv
  rw [Bool.and_eq_true, bne_iff_ne] at hThis
  exact ⟨hThis.1, (parse_text hThis.1).trans (if_neg hThis.2)⟩

/-- The least integer of 64 bits is not read from its own text. -/
theorem not_parse_text : ¬ ∀ v : Literal, v.isExact = true → parse v.text = .ok v := fun hAll =>
  absurd (hAll (long Int64.minValue) rfl) (by decide +kernel)

/-- Another operand can stand after such a literal. -/
theorem closed_text (v : Literal) (hChecked : ¬ v.Unchecked) : Closed v.text.toList := by
  have hSuffixed {body : String} (suffix : Char) (hSuffix : Listing.isQuiet suffix = true) (hBody : Closed body.toList) :
      Closed (body ++ String.singleton suffix).toList := by
    rw [String.toList_append]
    exact hBody.append (Listing.closed_of_quiet (by simpa using hSuffix))
  have hFloating {f : Format} (hf : f.Narrow) (x : Floating f) : Closed x.text.toList :=
    Listing.closed_of_quiet fun _ hc => (quiet_of_mem_text hf hc).1
  cases v with
  | int n => exact Text.closed_toString n.toInt
  | long n => exact hSuffixed 'L' (by decide) (Text.closed_toString n.toInt)
  | float x => exact hSuffixed 'f' (by decide) (hFloating Format.narrow_single x)
  | double x => exact hSuffixed 'd' (by decide) (hFloating Format.narrow_double x)
  | boolean b => cases b <;> exact Listing.closed_of_quiet (List.all_eq_true.mp (by decide))
  | char u => exact toList_text_char u ▸ ((Text.shielded_unitBody u).quoted (.inr rfl)).2
  | short n => exact hSuffixed 's' (by decide) (Text.closed_toString n.toInt)
  | byte n => exact hSuffixed 't' (by decide) (Text.closed_toString n.toInt)
  | null => exact Listing.closed_of_quiet (List.all_eq_true.mp (by decide))
  | string s => exact toList_text_string s ▸ ((shielded_escaped s).quoted (.inl rfl)).2
  | type d => exact absurd trivial hChecked

end Literal

end Dalvik
