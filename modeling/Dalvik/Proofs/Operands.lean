import Dalvik.Proofs.Headers

/-!
Operands as they are written and read. An operand is a word: the scanners of a line pass it without a cut, and only the
last operand of an instruction may leave quotes or brackets open. Names of registers and labels are closed words, and so
are lists of them in braces.
-/

namespace Dalvik

namespace Listing

/-- A text that an instruction can have as its last operand. -/
structure Word (s : List Char) : Prop extends Line s where
  nonempty : s ≠ []
  passes : (pass? .outside 0 s).isSome

/-- A text after which another operand can stand, inside brackets or not. -/
def Closed (s : List Char) : Prop := ∀ depth, 0 ≤ depth → pass? .outside depth s = some (.outside, depth)

variable {s : List Char}

theorem closed_of_quiet (h : ∀ c ∈ s, isQuiet c = true) : Closed s := by
  intro depth _
  induction s with
  | nil => rfl
  | cons c s ih =>
      obtain ⟨_, _, hDouble, hSingle, hComma, hStep⟩ := quiet_iff.mp (h c (.head _))
      have hNext : Scan.next .outside c = .outside := if_neg (not_or_intro hDouble hSingle)
      rw [pass?, if_pos rfl, if_neg (fun hCut => hComma hCut.1), hNext, hStep, Int.add_zero]
      exact ih fun d hd => h d (.tail _ hd)

theorem Closed.passes (h : Closed s) : (pass? .outside 0 s).isSome := by
  rw [h 0 (by decide)]
  rfl

theorem Closed.append {a b : List Char} (ha : Closed a) (hb : Closed b) : Closed (a ++ b) := by
  intro depth hDepth
  rw [pass?_append, ha depth hDepth]
  exact hb depth hDepth

theorem word_of_quiet (hSome : s ≠ []) (h : ∀ c ∈ s, isQuiet c = true) : Word s where
  toLine := .of_quiet h
  nonempty := hSome
  passes := (closed_of_quiet h).passes

/-- A list of words of which all but the last are closed can stand as operands. -/
structure Words (ts : List String) : Prop where
  words : ∀ t ∈ ts, Word t.toList
  separable : Separable 0 (ts.map String.toList)

theorem Words.nil : Words [] := ⟨nofun, nofun, .nil⟩

theorem Words.singleton {t : String} (h : Word t.toList) : Words [t] where
  words := List.forall_mem_singleton.mpr h
  separable := ⟨by simpa using h.passes, List.pairwise_singleton _ _⟩

theorem Words.cons {t : String} {ts : List String} (h : Word t.toList) (hClosed : Closed t.toList) (hRest : Words ts) :
    Words (t :: ts) where
  words := List.forall_mem_cons.mpr ⟨h, hRest.words⟩
  separable := by
    refine ⟨?_, ?_⟩
    · exact List.forall_mem_cons.mpr ⟨h.passes, hRest.separable.passes⟩
    · exact List.pairwise_cons.mpr ⟨fun _ _ => hClosed 0 (by decide), hRest.separable.closes⟩

variable {ts : List String}

theorem Words.operands_eq (h : Words ts) : operands (Text.separated ", " ts).toList = ts.map String.toList :=
  operands_separated (fun t ht => (h.words t ht).tight) (fun t ht => (h.words t ht).nonempty) h.separable

theorem Words.items_eq (h : Words ts) : items (Text.separated ", " ts).toList = ts.map String.toList :=
  items_separated (fun t ht => (h.words t ht).tight) (fun t ht => (h.words t ht).nonempty) h.separable

theorem mem_separated {c : Char} (h : c ∈ (Text.separated ", " ts).toList) :
    c = ',' ∨ c = ' ' ∨ ∃ t ∈ ts, c ∈ t.toList := by
  induction ts with
  | nil => simp [Text.separated] at h
  | cons t ts ih =>
      cases ts with
      | nil => exact .inr (.inr ⟨t, .head _, h⟩)
      | cons u ts =>
          rw [toList_separated_cons] at h
          rcases List.mem_append.mp h with hFirst | hRest
          · exact .inr (.inr ⟨t, .head _, hFirst⟩)
          · rcases List.mem_cons.mp hRest with rfl | hRest
            · exact .inl rfl
            rcases List.mem_cons.mp hRest with rfl | hRest
            · exact .inr (.inl rfl)
            rcases ih hRest with hComma | hSpace | ⟨v, hv, hc⟩
            · exact .inl hComma
            · exact .inr (.inl hSpace)
            · exact .inr (.inr ⟨v, .tail _ hv, hc⟩)

theorem Words.line (h : Words ts) : Line (Text.separated ", " ts).toList where
  tight := tight_separated (fun t ht => (h.words t ht).tight) fun t ht => (h.words t ht).nonempty
  clear := dropComment_separated (fun t ht => (h.words t ht).clear) h.separable
  unbroken hMem := by
    rcases mem_separated hMem with hComma | hSpace | ⟨t, ht, hc⟩
    · cases hComma
    · cases hSpace
    · exact (h.words t ht).unbroken hc

/-! Lists in braces -/

theorem toList_braced : (Instruction.braced ts).toList = '\x7b' :: ((Text.separated ", " ts).toList ++ ['\x7d']) := by
  simp [Instruction.braced]

theorem toList_bracketed : (Instruction.bracketed ts).toList = '[' :: ((Text.separated ", " ts).toList ++ [']']) := by
  simp [Instruction.bracketed]

theorem enclosed?_around (first last : Char) (s : List Char) :
    Text.enclosed? first last (first :: (s ++ [last])) = some s := by
  simp [Text.enclosed?, Text.dropLead?, Text.dropTail?]

/-- Brackets around a list make a line of it. -/
theorem Words.line_around (h : Words ts) {first last : Char} (hFirst : isQuiet first = true ∨ first = '\x7b' ∨ first = '[')
    (hLast : Text.isBlank last = false ∧ last ≠ '#') :
    Line (first :: ((Text.separated ", " ts).toList ++ [last])) := by
  have hOpen : Text.isBlank first = false ∧ first ≠ '#' ∧ Scan.next .outside first = .outside := by
    rcases hFirst with hQuiet | rfl | rfl
    · obtain ⟨hBlank, hHash, hDouble, hSingle, _⟩ := quiet_iff.mp hQuiet
      exact ⟨hBlank, hHash, if_neg (not_or_intro hDouble hSingle)⟩
    · decide
    · decide
  have hRest : dropComment ((Text.separated ", " ts).toList ++ [last]) = (Text.separated ", " ts).toList ++ [last] :=
    dropCommentFrom_append h.line.clear (dropCommentFrom_eq_self (by simpa using hLast.2.symm) _)
  refine ⟨⟨fun c hc => ?_, fun c hc => ?_⟩, ?_, fun hMem => ?_⟩
  · obtain rfl : first = c := Option.some.inj hc
    exact hOpen.1
  · rw [← List.cons_append, List.getLast?_concat] at hc
    obtain rfl : last = c := Option.some.inj hc
    exact hLast.1
  · rw [dropComment, dropCommentFrom, if_neg (fun hHash => hOpen.2.1 hHash.2), hOpen.2.2]
    exact congrArg (first :: ·) hRest
  · rcases List.mem_cons.mp hMem with rfl | hMem
    · exact absurd hOpen.1 (by decide)
    rcases List.mem_append.mp hMem with hList | hEnd
    · exact h.line.unbroken hList
    · obtain rfl := List.mem_singleton.mp hEnd
      exact absurd hLast.1 (by decide)

theorem words_of_closed (h : ∀ t ∈ ts, Word t.toList ∧ Closed t.toList) : Words ts := by
  induction ts with
  | nil => exact .nil
  | cons t ts ih => exact .cons (h t (.head _)).1 (h t (.head _)).2 (ih fun u hu => h u (.tail _ hu))

theorem pass?_bracket {c : Char} (h : bracketStep c ≠ 0) (depth : Int) :
    pass? .outside depth [c] = some (.outside, depth + bracketStep c) := by
  have hOther {d : Char} (hd : bracketStep d = 0) : c ≠ d := fun hSame => h (hSame ▸ hd)
  have hNext : Scan.next .outside c = .outside := if_neg (not_or_intro (hOther (by decide)) (hOther (by decide)))
  rw [pass?, if_pos rfl, if_neg fun hComma => hOther (by decide) hComma.1, hNext]
  rfl

/-- Brackets around a list close it. -/
theorem closed_around (h : ∀ t ∈ ts, Closed t.toList) {first last : Char} (hFirst : bracketStep first = 1)
    (hLast : bracketStep last = -1) : Closed (first :: ((Text.separated ", " ts).toList ++ [last])) := by
  intro depth hDepth
  have hInside : pass? .outside (depth + 1) (Text.separated ", " ts).toList = some (.outside, depth + 1) :=
    pass?_separated (by omega) fun t ht => h t ht (depth + 1) (by omega)
  rw [← List.singleton_append, pass?_append, pass?_bracket (by simp [hFirst]), hFirst, Option.bind_some, pass?_append,
    hInside, Option.bind_some, pass?_bracket (by simp [hLast]), hLast, Int.add_neg_cancel_right]

theorem closed_braced (h : ∀ t ∈ ts, Closed t.toList) : Closed (Instruction.braced ts).toList :=
  toList_braced ▸ closed_around h (by decide) (by decide)

theorem closed_bracketed (h : ∀ t ∈ ts, Closed t.toList) : Closed (Instruction.bracketed ts).toList :=
  toList_bracketed ▸ closed_around h (by decide) (by decide)

theorem word_braced (h : ∀ t ∈ ts, Word t.toList ∧ Closed t.toList) : Word (Instruction.braced ts).toList where
  toLine := by
    rw [toList_braced]
    exact (words_of_closed h).line_around (.inr (.inl rfl)) (by decide)
  nonempty := by simp [toList_braced]
  passes := (closed_braced fun t ht => (h t ht).2).passes

end Listing

namespace Register

variable {locals r : Nat}

theorem toList_name : (name locals r).toList =
    if locals ≤ r then 'p' :: Nat.toDigits 10 (r - locals) else 'v' :: Nat.toDigits 10 r := by
  unfold name plainName
  split <;> simp

theorem quiet_of_mem_name {c : Char} (h : c ∈ (name locals r).toList) : Listing.isQuiet c = true ∧ c ≠ '.' := by
  have hDigits {n : Nat} (hc : c ∈ Nat.toDigits 10 n) : Listing.isQuiet c = true ∧ c ≠ '.' :=
    ⟨Listing.quiet_of_isDigit (Text.isDigit_of_mem_toDigits hc),
      Text.ne_of_isDigit (Text.isDigit_of_mem_toDigits hc) (by decide)⟩
  rw [toList_name] at h
  split at h <;> rcases List.mem_cons.mp h with rfl | hc
  · decide
  · exact hDigits hc
  · decide
  · exact hDigits hc

theorem name_ne_nil : (name locals r).toList ≠ [] := by
  rw [toList_name]
  split <;> simp

theorem word_name : Listing.Word (name locals r).toList :=
  Listing.word_of_quiet name_ne_nil fun _ hc => (quiet_of_mem_name hc).1

theorem closed_name : Listing.Closed (name locals r).toList :=
  Listing.closed_of_quiet fun _ hc => (quiet_of_mem_name hc).1

/-- A register is read from its name, as long as its number among those of its kind has sixteen bits. -/
theorem readRegister_name (hLocals : locals < 0x10000) (hr : r < locals + 0x10000) :
    Listing.readRegister locals (name locals r).toList = .ok r := by
  rw [toList_name]
  split
  · rename_i hParameter
    have hNumber : r - locals < 0x10000 := by omega
    simp only [Listing.readRegister, Text.decimal?_toDigits, if_pos hNumber, Nat.add_sub_cancel' hParameter]
  · rename_i hLocal
    have hNumber : r < 0x10000 := by omega
    simp [Listing.readRegister, hNumber]

theorem readRegisters_braced (hLocals : locals < 0x10000) {args : List Register} (h : ∀ r ∈ args, r < locals + 0x10000) :
    Listing.readRegisters locals (Instruction.braced (args.map (name locals))).toList = .ok args := by
  have hWords : Listing.Words (args.map (name locals)) := Listing.words_of_closed fun t ht => by
    obtain ⟨r, _, rfl⟩ := List.mem_map.mp ht
    exact ⟨word_name, closed_name⟩
  have hDots : '.' ∉ (Text.separated ", " (args.map (name locals))).toList := fun hMem => by
    rcases Listing.mem_separated hMem with hComma | hSpace | ⟨t, ht, hc⟩
    · cases hComma
    · cases hSpace
    · obtain ⟨r, _, rfl⟩ := List.mem_map.mp ht
      exact (quiet_of_mem_name hc).2 rfl
  unfold Listing.readRegisters
  rw [Listing.toList_braced, Listing.enclosed?_around]
  simp only [hWords.line.tight.trim_eq, Text.cutAt?_eq_none hDots, hWords.items_eq, List.map_map]
  have hAll := mapM_map_eq_ok (f := Listing.readRegister locals) (g := String.toList ∘ name locals) (k := id)
    fun r hr => readRegister_name hLocals (h r hr)
  rwa [List.map_id] at hAll

end Register

namespace Text

theorem quiet_of_mem_toString {v : Int} {c : Char} (h : c ∈ (toString v).toList) : Listing.isQuiet c = true := by
  rcases mem_toString_int h with hDigit | rfl
  · exact Listing.quiet_of_isDigit hDigit
  · decide

theorem toString_int_ne_nil (v : Int) : (toString v).toList ≠ [] := by
  rw [toList_toString_int]
  split <;> simp

theorem word_toString (v : Int) : Listing.Word (toString v).toList :=
  Listing.word_of_quiet (toString_int_ne_nil v) fun _ => quiet_of_mem_toString

theorem closed_toString (v : Int) : Listing.Closed (toString v).toList :=
  Listing.closed_of_quiet fun _ => quiet_of_mem_toString

/-- A number of 32 bits is read from its decimal form. -/
theorem bind_narrow32?_integer? (v : Int32) : (integer? (toString v.toInt).toList).bind narrow32? = some v := by
  have hLow := v.le_toInt
  have hHigh := v.toInt_lt
  have hBits : (Int64.ofInt v.toInt).toInt = v.toInt := Int64.toInt_ofInt_of_le (by omega) (by omega)
  have hMin : Int32.minValue.toInt = -2147483648 := rfl
  have hMax : Int32.maxValue.toInt = 2147483647 := rfl
  rw [integer?_toString (by omega), Option.bind_some, narrow32?, hBits, if_pos (by omega)]
  refine congrArg some (Int32.toInt_inj.mp ?_)
  rw [Int64.toInt_toInt32, hBits]
  exact Int.bmod_eq_of_le (by omega) (by omega)

/-- A text is cut at an arrow if none of the characters before could end one. -/
theorem cutAt?_arrow {a b : List Char} (h : '>' ∉ a) : cutAt? ['-', '>'] (a ++ '-' :: '>' :: b) = some (a, b) := by
  induction a with
  | nil => simp [cutAt?, dropLead?]
  | cons c a ih =>
      have hRest : '>' ∉ a := fun hMem => h (.tail _ hMem)
      have hSecond : (a ++ '-' :: '>' :: b).head? ≠ some '>' := by
        cases a with
        | nil => simp
        | cons d a =>
            intro hHead
            obtain rfl : d = '>' := Option.some.inj hHead
            exact hRest (.head _)
      have hLead : dropLead? ['-', '>'] (c :: (a ++ '-' :: '>' :: b)) = none := by
        obtain ⟨d, r, hCons⟩ := List.exists_cons_of_ne_nil (l := a ++ '-' :: '>' :: b) (by simp)
        rw [hCons] at hSecond ⊢
        have hOther : '>' ≠ d := fun hd => hSecond (congrArg some hd.symm)
        simp [dropLead?, hOther]
      rw [List.cons_append, cutAt?, hLead, ih hRest]
      rfl

end Text

namespace Instruction

theorem toList_caseText (c : Int32 × Address) :
    (caseText c).toList = (toString c.1.toInt).toList ++ (" -> ".toList ++ (Address.label c.2).toList) := by
  simp only [caseText, String.toList_append, List.append_assoc]

theorem word_label (a : Address) : Listing.Word (Address.label a).toList :=
  Listing.word_of_quiet (by simp [Address.toList_label]) fun _ => Address.quiet_of_mem_label

theorem closed_label (a : Address) : Listing.Closed (Address.label a).toList :=
  Listing.closed_of_quiet fun _ => Address.quiet_of_mem_label

theorem readLabel_label (a : Address) : Listing.readLabel (Address.label a).toList = .ok a.labelName := by
  rw [Listing.readLabel, Address.labelName?_label]

theorem closed_caseText (c : Int32 × Address) : Listing.Closed (caseText c).toList := by
  have hArrow : Listing.Closed " -> ".toList := by
    intro depth _
    simp [Listing.pass?, Listing.Scan.next, Listing.bracketStep]
  rw [toList_caseText]
  exact (Text.closed_toString _).append (hArrow.append (closed_label _))

theorem word_caseText (c : Int32 × Address) : Listing.Word (caseText c).toList := by
  have hKey := Text.word_toString c.1.toInt
  have hLabel := word_label c.2
  have hNotMem {d : Char} (hd : Listing.isQuiet d = false) (hArrow : d ∉ " -> ".toList) :
      d ∉ (caseText c).toList := by
    rw [toList_caseText]
    intro hMem
    rcases List.mem_append.mp hMem with hIn | hMem
    · simp [Text.quiet_of_mem_toString hIn] at hd
    rcases List.mem_append.mp hMem with hIn | hIn
    · exact hArrow hIn
    · simp [Address.quiet_of_mem_label hIn] at hd
  refine ⟨⟨?_, Listing.dropCommentFrom_eq_self (hNotMem (by decide) (by decide)) _, hNotMem (by decide) (by decide)⟩, ?_,
    (closed_caseText c).passes⟩
  · rw [toList_caseText]
    exact hKey.tight.append _ hLabel.tight hKey.nonempty hLabel.nonempty
  · rw [toList_caseText]
    exact List.append_ne_nil_of_left_ne_nil hKey.nonempty _

theorem readCase_caseText (c : Int32 × Address) :
    Listing.readCase (caseText c).toList = .ok (c.1, c.2.labelName) := by
  have hKey : '>' ∉ (toString c.1.toInt).toList ++ [' '] := by
    intro hMem
    rcases List.mem_append.mp hMem with hIn | hIn
    · rcases Text.mem_toString_int hIn with hDigit | hMinus
      · exact absurd hDigit (by decide)
      · cases hMinus
    · simp at hIn
  have hCut : Text.cutAt? ['-', '>'] (caseText c).toList =
      some ((toString c.1.toInt).toList ++ [' '], ' ' :: (Address.label c.2).toList) := by
    rw [← Text.cutAt?_arrow hKey, toList_caseText, List.append_assoc]
    rfl
  have hTrim : Text.trim ((toString c.1.toInt).toList ++ [' ']) = (toString c.1.toInt).toList :=
    (Text.word_toString c.1.toInt).tight.trim_append_space
  have hTarget : Text.trim (' ' :: (Address.label c.2).toList) = (Address.label c.2).toList :=
    (Address.line_label c.2).tight.trim_space
  unfold Listing.readCase
  rw [hCut]
  simp only [hTrim, Text.bind_narrow32?_integer?, hTarget, readLabel_label]
  rfl

theorem readCases_braced (cases : List (Int32 × Address)) :
    Listing.readCases (braced (cases.map caseText)).toList = .ok (cases.map fun c => (c.1, c.2.labelName)) := by
  have hWords : Listing.Words (cases.map caseText) := Listing.words_of_closed fun t ht => by
    obtain ⟨c, _, rfl⟩ := List.mem_map.mp ht
    exact ⟨word_caseText c, closed_caseText c⟩
  unfold Listing.readCases
  rw [Listing.toList_braced, Listing.enclosed?_around]
  simp only [hWords.items_eq, List.map_map]
  exact mapM_map_eq_ok fun c _ => readCase_caseText c

end Instruction

end Dalvik
