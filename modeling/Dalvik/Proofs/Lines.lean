import Dalvik.Listing.Reader
import Dalvik.Proofs.Numerals
import Dalvik.Proofs.Scanning

/-!
The lines of a listing one by one. A line is read after its comment, which a text without number signs outside quotes
does not have, and the blanks around it have been taken off.
-/

namespace Dalvik

namespace Text

variable {run line w r : List Char}

theorem linesFrom_append (h : '\n' ∉ line) :
    linesFrom run (line ++ '\n' :: r) = (dropReturn (line.reverse ++ run)).reverse :: linesFrom [] r := by
  induction line generalizing run with
  | nil => simp [linesFrom]
  | cons c line ih =>
      have hFirst : c ≠ '\n' := fun hc => h (hc ▸ .head _)
      rw [List.cons_append, linesFrom, if_neg hFirst, ih fun hMem => h (.tail _ hMem), List.reverse_cons,
        List.append_assoc, List.singleton_append]

theorem dropReturn_eq_self (h : run.head? ≠ some '\r') : dropReturn run = run := by
  unfold dropReturn
  split
  · simp at h
  · rfl

theorem lines_append (h : '\n' ∉ line) (hLast : line.getLast? ≠ some '\r') :
    lines (line ++ '\n' :: r) = line :: lines r := by
  have hSame : dropReturn (line.reverse ++ []) = line.reverse := by
    rw [List.append_nil]
    exact dropReturn_eq_self (by rwa [List.head?_reverse])
  unfold lines
  rw [linesFrom_append h, hSame, List.reverse_reverse]

theorem wordsFrom_append (hw : ∀ c ∈ w, isBlank c = false) : wordsFrom run (w ++ r) = wordsFrom (w.reverse ++ run) r := by
  induction w generalizing run with
  | nil => rfl
  | cons c w ih =>
      rw [List.cons_append, wordsFrom, if_neg (by simp [hw c (.head _)]), ih fun d hd => hw d (.tail _ hd),
        List.reverse_cons, List.append_assoc, List.singleton_append]

theorem words_of_not_blank (hw : ∀ c ∈ w, isBlank c = false) (hSome : w ≠ []) : words w = [w] := by
  have h := @wordsFrom_append [] w [] hw
  simpa [words, wordsFrom, hSome] using h

theorem words_append (hw : ∀ c ∈ w, isBlank c = false) (hSome : w ≠ []) : words (w ++ ' ' :: r) = w :: words r := by
  have hBlank : isBlank ' ' = true := by decide
  have h := @wordsFrom_append [] w (' ' :: r) hw
  simpa [words, wordsFrom, hSome, hBlank] using h

theorem words_blank : words (' ' :: r) = words r := by
  have hBlank : isBlank ' ' = true := by decide
  simp [words, wordsFrom, hBlank]

theorem Tight.trim_space {s : List Char} (h : Tight s) : trim (' ' :: s) = s := by
  simpa using trim_append (a := [' ']) (b := []) (List.forall_mem_singleton.mpr (by decide)) h (List.forall_mem_nil _)

theorem Tight.trim_append_space {s : List Char} (h : Tight s) : trim (s ++ [' ']) = s := by
  simpa using trim_append (a := []) (b := [' ']) (List.forall_mem_nil _) h (List.forall_mem_singleton.mpr (by decide))

theorem not_isBlank_of_isDigit {c : Char} (h : c.isDigit = true) : isBlank c = false := by
  refine Bool.eq_false_iff.mpr fun hBlank => ?_
  have hRange : 48 ≤ c.toNat ∧ c.toNat ≤ 57 := by
    simpa [Char.isDigit, UInt32.le_iff_toNat_le] using h
  simp [isBlank, blankRanges] at hBlank
  omega

end Text

namespace Listing

/-- A character that no scanner of a line reacts to. -/
def isQuiet (c : Char) : Bool :=
  !Text.isBlank c && c != '#' && c != '"' && c != '\'' && c != ',' && bracketStep c == 0

theorem quiet_iff {c : Char} : isQuiet c = true ↔
    Text.isBlank c = false ∧ c ≠ '#' ∧ c ≠ '"' ∧ c ≠ '\'' ∧ c ≠ ',' ∧ bracketStep c = 0 := by
  simp [isQuiet, and_assoc]

theorem quiet_of_isDigit {c : Char} (h : c.isDigit = true) : isQuiet c = true := by
  have hNe {d : Char} (hd : d.isDigit = false) : c ≠ d := Text.ne_of_isDigit h hd
  have hStep : bracketStep c = 0 := by
    rw [bracketStep, if_neg (not_or_intro (hNe (by decide)) (hNe (by decide))),
      if_neg (not_or_intro (hNe (by decide)) (hNe (by decide)))]
  exact quiet_iff.mpr ⟨Text.not_isBlank_of_isDigit h, hNe (by decide), hNe (by decide), hNe (by decide),
    hNe (by decide), hStep⟩

/-- A text that is a line by itself, also if blanks stand before it. -/
structure Line (s : List Char) : Prop where
  tight : Text.Tight s
  clear : dropComment s = s
  unbroken : '\n' ∉ s

theorem Line.nil : Line [] := ⟨⟨nofun, nofun⟩, rfl, nofun⟩

theorem Line.of_quiet {s : List Char} (h : ∀ c ∈ s, isQuiet c = true) : Line s where
  tight := ⟨fun c hc => (quiet_iff.mp (h c (List.mem_of_mem_head? hc))).1,
    fun c hc => (quiet_iff.mp (h c (List.mem_of_mem_getLast? hc))).1⟩
  clear := dropCommentFrom_eq_self (fun hMem => absurd (h _ hMem) (by decide)) _
  unbroken hMem := absurd (h _ hMem) (by decide)

theorem Line.ne_return {s : List Char} (h : Line s) : s.getLast? ≠ some '\r' := fun hLast =>
  absurd (h.tight.last _ hLast) (by decide)

/-- A text with which a line can begin, whatever comes after it. -/
structure Lead (s : List Char) : Prop where
  head : ∃ c r, s = c :: r ∧ Text.isBlank c = false
  clear : dropComment s = s
  outside : Scan.after .outside s = .outside
  unbroken : '\n' ∉ s

theorem Lead.line {a b : List Char} (ha : Lead a) (hSome : b ≠ []) (hLast : ∀ c ∈ b.getLast?, Text.isBlank c = false)
    (hClear : dropComment b = b) (hUnbroken : '\n' ∉ b) : Line (a ++ b) where
  tight := by
    obtain ⟨d, r, rfl, hd⟩ := ha.head
    refine ⟨fun c hc => ?_, fun c hc => ?_⟩
    · obtain rfl : d = c := Option.some.inj hc
      exact hd
    · rw [List.getLast?_append_of_ne_nil _ hSome] at hc
      exact hLast c hc
  clear := dropCommentFrom_append ha.clear (by rwa [ha.outside])
  unbroken hMem := (List.mem_append.mp hMem).elim ha.unbroken hUnbroken

theorem Lead.append_line {a b : List Char} (ha : Lead a) (hSome : b ≠ []) (hb : Line b) : Line (a ++ b) :=
  ha.line hSome hb.tight.last hb.clear hb.unbroken

theorem line_end : Line ".end method".toList := by
  have hText : ".end method".toList = ".end ".toList ++ "method".toList := by decide
  have hLead : Lead ".end ".toList := ⟨⟨_, _, rfl, by decide⟩, by decide, by decide, by decide⟩
  rw [hText]
  exact hLead.append_line (by decide) (.of_quiet (List.all_eq_true.mp (by decide)))

/-- A line as it stands in a listing: the text with a number of spaces before it. -/
abbrev Row := Nat × List Char

/-- The characters of a row. -/
def Row.chars (r : Row) : List Char := List.replicate r.1 ' ' ++ r.2

theorem Row.lines_append {r : Row} (h : Line r.2) (rest : List Char) :
    Text.lines (r.chars ++ '\n' :: rest) = r.chars :: Text.lines rest := by
  refine Text.lines_append (fun hMem => ?_) fun hLast => ?_
  · rcases List.mem_append.mp hMem with hIndent | hText
    · cases (List.mem_replicate.mp hIndent).2
    · exact h.unbroken hText
  · by_cases hEmpty : r.2 = []
    · rw [Row.chars, hEmpty, List.append_nil] at hLast
      cases (List.mem_replicate.mp (List.mem_of_mem_getLast? hLast)).2
    · rw [Row.chars, List.getLast?_append_of_ne_nil _ hEmpty] at hLast
      exact h.ne_return hLast

theorem lines_rows {rows : List Row} (h : ∀ r ∈ rows, Line r.2) :
    Text.lines (rows.flatMap fun r => r.chars ++ ['\n']) = rows.map Row.chars := by
  induction rows with
  | nil => rfl
  | cons r rows ih =>
      rw [List.flatMap_cons, List.append_assoc, List.singleton_append, Row.lines_append (h r (.head _)),
        ih fun s hs => h s (.tail _ hs), List.map_cons]

theorem after_replicate (n : Nat) : Scan.after .outside (List.replicate n ' ') = .outside := by
  induction n with
  | zero => rfl
  | succ n ih => exact ih

theorem Row.clear {r : Row} (h : Line r.2) : dropComment r.chars = r.chars := by
  refine dropCommentFrom_append (dropCommentFrom_eq_self (fun hMem => ?_) _) ?_
  · cases (List.mem_replicate.mp hMem).2
  · rw [after_replicate]
    exact h.clear

theorem Row.trim_eq {r : Row} (h : Line r.2) : Text.trim r.chars = r.2 := by
  have hIndent : ∀ c ∈ List.replicate r.1 ' ', Text.isBlank c = true := fun c hc => by
    rw [(List.mem_replicate.mp hc).2]
    decide
  simpa [Row.chars] using Text.trim_append (b := []) hIndent h.tight (by simp)

/-- What is read of a row is its text. -/
theorem Row.text_eq {r : Row} (h : Line r.2) : Text.trim (dropComment r.chars) = r.2 := by
  rw [Row.clear h, Row.trim_eq h]

namespace OpenClass

/-- The rows lead from one state of reading to another, whatever lines there have been before. -/
def Takes (c : OpenClass) (rows : List Row) (c' : OpenClass) : Prop :=
  ∀ k, ((rows.map Row.chars).zipIdx k).foldlM addLine c = .ok c'

variable {c c' c'' : OpenClass} {rows rows' : List Row} {r : Row}

theorem Takes.refl (c : OpenClass) : c.Takes [] c := fun _ => rfl

theorem Takes.append (h : c.Takes rows c') (h' : c'.Takes rows' c'') : c.Takes (rows ++ rows') c'' := by
  intro k
  rw [List.map_append, List.zipIdx_append, List.foldlM_append, h k]
  exact h' _

theorem takes_cons (h : ∀ k, ∃ c', c.addLine (r.chars, k) = .ok c' ∧ c'.Takes rows c'') : c.Takes (r :: rows) c'' := by
  intro k
  obtain ⟨c', hFirst, hRest⟩ := h k
  rw [List.map_cons, List.zipIdx_cons, List.foldlM_cons, hFirst]
  exact hRest _

theorem takes_singleton (h : ∀ k, c.addLine (r.chars, k) = .ok c') : c.Takes [r] c' :=
  takes_cons fun k => ⟨c', h k, .refl c'⟩

/-- A blank row is passed over. -/
theorem takes_blank (c : OpenClass) (n : Nat) : c.Takes [(n, [])] c := by
  refine takes_singleton fun k => ?_
  have hText := Row.text_eq (r := (n, [])) Line.nil
  simp [addLine, hText]

/-- A row outside methods. -/
theorem addLine_eq_addHeader (hNone : c.current = none) (h : Line r.2) (hSome : r.2 ≠ []) (k : Nat) :
    c.addLine (r.chars, k) = c.addHeader k r.2 := by
  simp [addLine, Row.text_eq h, hSome, hNone]

variable {m m' : OpenMethod} {s : List Char}

/-- A row inside a method. -/
theorem takes_of_addLine (n : Nat) (h : Line s) (hSome : s ≠ []) (hOpen : s ≠ ".end method".toList)
    (hTaken : ∀ k, m.addLine k s = .ok m') :
    ({ c with current := some m } : OpenClass).Takes [(n, s)] { c with current := some m' } := by
  refine takes_singleton fun k => ?_
  have hText := Row.text_eq (r := (n, s)) h
  have hEnd : ¬ s = ".end method".toList := hOpen
  simp only [addLine, hText, List.isEmpty_iff, if_neg hSome, if_neg hEnd, hTaken]
  rfl

/-- A row with a directive inside a method. -/
theorem takes_of_addDirective (n : Nat) (h : Line s) (hDot : ∃ d r, s = '.' :: d :: r ∧ d ≠ 'e')
    (hTaken : ∀ k, m.addDirective k s = .ok m') :
    ({ c with current := some m } : OpenClass).Takes [(n, s)] { c with current := some m' } := by
  obtain ⟨d, r, rfl, hd⟩ := hDot
  refine takes_of_addLine n h (by simp) (fun hEnd => hd ?_) fun k => ?_
  · have hSecond := congrArg (fun s => s[1]?) hEnd
    exact Option.some.inj hSecond
  · rw [OpenMethod.addLine, if_pos (List.head?_cons ..), hTaken]

/-- The last row of a method. -/
theorem takes_end {m : OpenMethod} {method : Method} (h : m.close = .ok method) :
    ({ c with current := some m } : OpenClass).Takes [(0, ".end method".toList)]
      { c with methods := method :: c.methods, current := none } := by
  refine takes_singleton fun k => ?_
  have hText := Row.text_eq (r := (0, ".end method".toList)) line_end
  have hSome : ".end method".toList ≠ [] := by decide
  simp only [addLine, hText, List.isEmpty_iff, if_neg hSome, if_true, h]
  rfl

end OpenClass

end Listing

end Dalvik
