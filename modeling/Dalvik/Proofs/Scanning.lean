import Dalvik.Listing.Lexer
import Mathlib.Data.List.Basic

/-!
What the scanners of a line do to texts that are put together. A text that a scanner passes without a cut
can stand between others, and only the last one may leave quotes or brackets open.
-/

namespace Dalvik

namespace Text

/-- A text with no blank at its two ends. -/
structure Tight (s : List Char) : Prop where
  head : ∀ c ∈ s.head?, isBlank c = false
  last : ∀ c ∈ s.getLast?, isBlank c = false

theorem dropWhile_eq_self {p : Char → Bool} {s : List Char} (h : ∀ c ∈ s.head?, p c = false) :
    s.dropWhile p = s := by
  cases s with
  | nil => rfl
  | cons c s => rw [List.dropWhile_cons_of_neg (by simp [h c rfl])]

theorem dropWhile_eq_nil {p : Char → Bool} {s : List Char} (h : ∀ c ∈ s, p c = true) :
    s.dropWhile p = [] := by
  simpa using @List.dropWhile_append_of_pos Char p s [] h

theorem head_dropWhile {p : Char → Bool} {s : List Char} :
    ∀ c ∈ (s.dropWhile p).head?, p c = false := by
  intro c hc
  have h := List.head?_dropWhile_not p s
  rw [hc] at h
  exact h

theorem trimEnd_append {s b : List Char} (hs : ∀ c ∈ s.getLast?, isBlank c = false)
    (hb : ∀ c ∈ b, isBlank c = true) : trimEnd (s ++ b) = s := by
  rw [trimEnd, List.reverse_append,
    List.dropWhile_append_of_pos fun c hc => hb c (List.mem_reverse.mp hc),
    dropWhile_eq_self (by simpa using hs), List.reverse_reverse]

/-- Blanks around a text are trimmed off, and no more. -/
theorem trim_append {a s b : List Char} (ha : ∀ c ∈ a, isBlank c = true) (hs : Tight s)
    (hb : ∀ c ∈ b, isBlank c = true) : trim (a ++ s ++ b) = s := by
  rw [trim, List.append_assoc, List.dropWhile_append_of_pos ha]
  cases s with
  | nil => rw [List.nil_append, dropWhile_eq_nil hb]; rfl
  | cons c r =>
      have hHead : ∀ d ∈ (c :: r ++ b).head?, isBlank d = false := fun d hd => hs.head d hd
      rw [dropWhile_eq_self hHead]
      exact trimEnd_append hs.last hb

theorem Tight.trim_eq {s : List Char} (h : Tight s) : trim s = s := by
  simpa using trim_append (a := []) (b := []) (by simp) h (by simp)

theorem Tight.append {a b : List Char} (ha : Tight a) (m : List Char) (hb : Tight b) (hFirst : a ≠ [])
    (hLast : b ≠ []) : Tight (a ++ (m ++ b)) where
  head := by rw [List.head?_append_of_ne_nil _ hFirst]; exact ha.head
  last := by
    rw [← List.append_assoc, List.getLast?_append_of_ne_nil _ hLast]
    exact hb.last

theorem exists_trimEnd (s : List Char) : ∃ b, s = trimEnd s ++ b ∧ ∀ c ∈ b, isBlank c = true := by
  refine ⟨(s.reverse.takeWhile isBlank).reverse, ?_, fun c hc => ?_⟩
  · rw [trimEnd, ← List.reverse_append, List.takeWhile_append_dropWhile, List.reverse_reverse]
  · exact List.all_eq_true.mp List.all_takeWhile c (List.mem_reverse.mp hc)

/-- What is trimmed off a text are blanks, and what is left is tight. -/
theorem exists_trim (s : List Char) : ∃ a b, s = a ++ trim s ++ b ∧
    (∀ c ∈ a, isBlank c = true) ∧ (∀ c ∈ b, isBlank c = true) ∧ Tight (trim s) := by
  obtain ⟨b, hEnd, hb⟩ := exists_trimEnd (s.dropWhile isBlank)
  refine ⟨s.takeWhile isBlank, b, ?_, fun c hc => ?_, hb, fun c hc => ?_, fun c hc => ?_⟩
  · rw [List.append_assoc, trim, ← hEnd, List.takeWhile_append_dropWhile]
  · exact List.all_eq_true.mp List.all_takeWhile c hc
  · refine head_dropWhile (p := isBlank) (s := s) c ?_
    rw [hEnd]
    exact List.mem_head?_append_of_mem_head? hc
  · rw [trim, trimEnd, List.getLast?_reverse] at hc
    exact head_dropWhile c hc

theorem mem_of_mem_trim {s : List Char} {c : Char} (h : c ∈ trim s) : c ∈ s := by
  obtain ⟨a, b, hs, -⟩ := exists_trim s
  rw [hs]
  exact List.mem_append_left _ (List.mem_append_right _ h)

end Text

namespace Listing

/-! Comments -/

/-- Where a scanner stands after a text. -/
def Scan.after (scan : Scan) (s : List Char) : Scan := s.foldl Scan.next scan

/-- What comes after a text without a comment is scanned from where that ends. -/
theorem dropCommentFrom_append_eq {scan : Scan} {a : List Char} (ha : dropCommentFrom scan a = a) (b : List Char) :
    dropCommentFrom scan (a ++ b) = a ++ dropCommentFrom (scan.after a) b := by
  induction a generalizing scan with
  | nil => rfl
  | cons c a ih =>
      rw [dropCommentFrom] at ha
      split at ha
      · cases ha
      · rename_i hMark
        rw [List.cons_append, dropCommentFrom, if_neg hMark, ih (List.cons.inj ha).2]
        rfl

theorem dropCommentFrom_append {scan : Scan} {a b : List Char} (ha : dropCommentFrom scan a = a)
    (hb : dropCommentFrom (scan.after a) b = b) : dropCommentFrom scan (a ++ b) = a ++ b := by
  rw [dropCommentFrom_append_eq ha, hb]

/-- A text without number signs holds no comment, whatever quotes stand before it. -/
theorem dropCommentFrom_eq_self {s : List Char} (h : '#' ∉ s) (scan : Scan) :
    dropCommentFrom scan s = s := by
  induction s generalizing scan with
  | nil => rfl
  | cons c s ih =>
      rw [dropCommentFrom, if_neg fun hMark : scan = .outside ∧ c = '#' => h (hMark.2 ▸ .head _),
        ih fun hMem => h (.tail _ hMem)]

/-- Characters other than quotes move no scanner from outside quotes. -/
theorem Scan.after_outside {s : List Char} (h : ∀ c ∈ s, c ≠ '"' ∧ c ≠ '\'') : Scan.after .outside s = .outside := by
  induction s with
  | nil => rfl
  | cons c s ih =>
      have hNext : Scan.next .outside c = .outside := if_neg (not_or.mpr (h c (.head _)))
      rw [Scan.after, List.foldl_cons, hNext]
      exact ih fun d hd => h d (.tail _ hd)

/-- A text without a comment is made of texts without a comment. -/
theorem dropCommentFrom_parts {scan : Scan} {a b : List Char} (h : dropCommentFrom scan (a ++ b) = a ++ b) :
    dropCommentFrom scan a = a ∧ dropCommentFrom (scan.after a) b = b := by
  induction a generalizing scan with
  | nil => exact ⟨rfl, h⟩
  | cons c a ih =>
      rw [List.cons_append, dropCommentFrom] at h
      split at h
      · cases h
      · rename_i hMark
        obtain ⟨hFirst, hRest⟩ := ih (List.cons.inj h).2
        exact ⟨by rw [dropCommentFrom, if_neg hMark, hFirst], hRest⟩

theorem dropCommentFrom_idem {scan : Scan} {s : List Char} :
    dropCommentFrom scan (dropCommentFrom scan s) = dropCommentFrom scan s := by
  induction s generalizing scan with
  | nil => rfl
  | cons c s ih =>
      rw [dropCommentFrom]
      split
      · rfl
      · rename_i hMark
        rw [dropCommentFrom, if_neg hMark, ih]

theorem dropComment_infix {a b c : List Char} (ha : ∀ d ∈ a, d ≠ '"' ∧ d ≠ '\'')
    (h : dropComment (a ++ (b ++ c)) = a ++ (b ++ c)) : dropComment b = b := by
  have hRest := (dropCommentFrom_parts h).2
  rw [Scan.after_outside ha] at hRest
  exact (dropCommentFrom_parts hRest).1

theorem ne_quote_of_isBlank {c : Char} (h : Text.isBlank c = true) : c ≠ '"' ∧ c ≠ '\'' :=
  ⟨fun hc => absurd (hc ▸ h) (by decide), fun hc => absurd (hc ▸ h) (by decide)⟩

theorem dropComment_trim {s : List Char} (h : dropComment s = s) : dropComment (Text.trim s) = Text.trim s := by
  obtain ⟨a, b, hs, ha, -⟩ := Text.exists_trim s
  rw [hs, List.append_assoc] at h
  exact dropComment_infix (fun c hc => ne_quote_of_isBlank (ha c hc)) h

theorem mem_of_mem_dropCommentFrom {scan : Scan} {s : List Char} {c : Char} (h : c ∈ dropCommentFrom scan s) : c ∈ s := by
  induction s generalizing scan with
  | nil => exact h
  | cons d s ih =>
      rw [dropCommentFrom] at h
      split at h
      · cases h
      · exact (List.mem_cons.mp h).elim (fun hd => hd ▸ .head _) fun hRest => .tail _ (ih hRest)

/-! Operands -/

/-- Where a scanner of operands stands after a text that it takes for a part of one operand. A comma
outside of quotes and brackets would end the operand. -/
def pass? (scan : Scan) (depth : Int) : List Char → Option (Scan × Int)
  | [] => some (scan, depth)
  | c :: r =>
    if scan = .outside then
      if c = ',' ∧ depth = 0 then none else pass? (scan.next c) (depth + bracketStep c) r
    else pass? (scan.next c) depth r

theorem pass?_append (scan : Scan) (depth : Int) (a b : List Char) :
    pass? scan depth (a ++ b) = (pass? scan depth a).bind fun p => pass? p.1 p.2 b := by
  induction a generalizing scan depth with
  | nil => rfl
  | cons c a ih =>
      rw [List.cons_append, pass?, pass?]
      split
      · split
        · rfl
        · exact ih _ _
      · exact ih _ _

/-- Brackets around a text move the depth at which its commas are, and what is passed stays so as far as
it is passed there too. -/
theorem pass?_shift {scan : Scan} {depth k : Int} {s : List Char} {p q : Scan × Int}
    (hp : pass? scan depth s = some p) (hq : pass? scan (depth + k) s = some q) :
    q = (p.1, p.2 + k) := by
  induction s generalizing scan depth with
  | nil => 
    obtain rfl := Option.some.inj hp
    exact (Option.some.inj hq).symm
  | cons c s ih =>
      rw [pass?] at hp hq
      split at hp
      · rename_i hScan
        rw [if_pos hScan] at hq
        split at hp
        · cases hp
        · split at hq
          · cases hq
          · exact ih hp (by rw [← hq, Int.add_right_comm])
      · rename_i hScan
        rw [if_neg hScan] at hq
        exact ih hp hq

theorem Scan.after_eq {scan : Scan} {depth : Int} {s : List Char} {p : Scan × Int}
    (h : pass? scan depth s = some p) : scan.after s = p.1 := by
  induction s generalizing scan depth with
  | nil => rw [← Option.some.inj h]; rfl
  | cons c s ih =>
      rw [pass?] at h
      split at h
      · split at h
        · cases h
        · exact ih h
      · exact ih h

/-- A blank moves no scanner of operands. -/
theorem pass?_blank {c : Char} (h : Text.isBlank c = true) (depth : Int) (s : List Char) :
    pass? .outside depth (c :: s) = pass? .outside depth s := by
  have hNe : ∀ d, Text.isBlank d = false → c ≠ d := fun d hd hcd => by simp [← hcd, h] at hd
  have hNext : Scan.next .outside c = .outside :=
    if_neg (not_or_intro (hNe _ (by decide)) (hNe _ (by decide)))
  have hStep : bracketStep c = 0 := by
    rw [bracketStep, if_neg (not_or_intro (hNe _ (by decide)) (hNe _ (by decide))),
      if_neg (not_or_intro (hNe _ (by decide)) (hNe _ (by decide)))]
  rw [pass?, if_pos rfl, if_neg fun hComma => hNe ',' (by decide) hComma.1, hNext, hStep, Int.add_zero]

theorem pass?_blanks {b : List Char} (h : ∀ c ∈ b, Text.isBlank c = true) (depth : Int)
    (s : List Char) : pass? .outside depth (b ++ s) = pass? .outside depth s := by
  induction b with
  | nil => rfl
  | cons c b ih =>
      rw [List.cons_append, pass?_blank (h c (.head _)), ih fun d hd => h d (.tail _ hd)]

/-- The mark that would end a quoted text is no blank. -/
def Scan.Marked : Scan → Prop
  | outside => True
  | inside mark => Text.isBlank mark = false
  | escaped mark => Text.isBlank mark = false

theorem Scan.Marked.next {scan : Scan} (h : scan.Marked) (c : Char) : (scan.next c).Marked := by
  cases scan with
  | outside =>
      rw [Scan.next]
      split
      · rename_i hMark
        rcases hMark with rfl | rfl
        · exact (by decide : Text.isBlank '"' = false)
        · exact (by decide : Text.isBlank '\'' = false)
      · trivial
  | inside mark =>
      rw [Scan.next]
      split
      · exact h
      split
      · trivial
      · exact h
  | escaped mark => exact h

theorem Scan.Marked.after {scan : Scan} (h : scan.Marked) (s : List Char) : (scan.after s).Marked := by
  induction s generalizing scan with
  | nil => exact h
  | cons c s ih => exact ih (h.next c)

/-- Blanks do not lead out of quotes or brackets. -/
theorem eq_of_pass?_blanks {scan : Scan} {depth d : Int} {b : List Char} (hMarked : scan.Marked)
    (hBlank : ∀ c ∈ b, Text.isBlank c = true) (h : pass? scan depth b = some (.outside, d)) :
    (scan, depth) = (.outside, d) := by
  induction b generalizing scan with
  | nil => exact Option.some.inj h
  | cons c b ih =>
      have hc := hBlank c (.head _)
      have hb := fun e he => hBlank e (.tail _ he)
      by_cases hScan : scan = .outside
      · subst hScan
        rw [pass?_blank hc] at h
        exact ih trivial hb h
      · rw [pass?, if_neg hScan] at h
        have hNext := (Prod.mk.inj (ih (hMarked.next c) hb h)).1
        cases scan with
        | outside => exact absurd rfl hScan
        | inside mark =>
            have hMark : c ≠ mark := by
              rintro rfl
              simp [Scan.Marked, hc] at hMarked
            rw [Scan.next, if_neg hMark] at hNext
            split at hNext <;> cases hNext
        | escaped mark => cases hNext

variable {depth : Int} {s : List Char}

theorem isSome_pass?_of_append {scan : Scan} {a b : List Char}
    (h : (pass? scan depth (a ++ b)).isSome) : (pass? scan depth a).isSome := by
  rw [pass?_append] at h
  exact Option.isSome_of_isSome_bind h

theorem isSome_pass?_trim (h : (pass? .outside depth s).isSome) :
    (pass? .outside depth (Text.trim s)).isSome := by
  obtain ⟨a, b, hs, ha, -, -⟩ := Text.exists_trim s
  rw [hs, List.append_assoc, pass?_blanks ha] at h
  exact isSome_pass?_of_append h

theorem pass?_trim (h : pass? .outside depth s = some (.outside, depth)) :
    pass? .outside depth (Text.trim s) = some (.outside, depth) := by
  obtain ⟨a, b, hs, ha, hb, -⟩ := Text.exists_trim s
  rw [hs, List.append_assoc, pass?_blanks ha, pass?_append] at h
  obtain ⟨⟨scan, d⟩, hTrim, hRest⟩ := Option.bind_eq_some_iff.mp h
  have hOutside : Scan.Marked .outside := trivial
  have hMarked := hOutside.after (Text.trim s)
  rw [Scan.after_eq hTrim] at hMarked
  rw [hTrim, eq_of_pass?_blanks hMarked hb hRest]

/-- Texts that can stand in a list whose commas are at a depth of brackets. The scanner of operands passes
every one of them, and only the last may leave quotes or brackets open. -/
structure Separable (depth : Int) (ts : List (List Char)) : Prop where
  passes : ∀ t ∈ ts, (pass? .outside depth t).isSome
  closes : ts.Pairwise fun t _ => pass? .outside depth t = some (.outside, depth)

theorem Separable.sublist {ts us : List (List Char)} (h : Separable depth ts) (hSub : us.Sublist ts) :
    Separable depth us :=
  ⟨fun t ht => h.passes t (hSub.subset ht), h.closes.sublist hSub⟩

variable {scan : Scan} {run : List Char}

theorem pass?_singleton_eq_none {c : Char} (h : pass? scan depth [c] = none) :
    scan = .outside ∧ depth = 0 ∧ c = ',' := by
  rw [pass?] at h
  split at h
  · rename_i hScan
    split at h
    · rename_i hCut
      exact ⟨hScan, hCut.2, hCut.1⟩
    · cases h
  · cases h

theorem piecesFrom_cons_of_pass {c : Char} {p : Scan × Int} (h : pass? scan depth [c] = some p)
    (r : List Char) : piecesFrom scan depth run (c :: r) = piecesFrom p.1 p.2 (c :: run) r := by
  rw [pass?] at h
  rw [piecesFrom]
  split at h
  · rename_i hScan
    rw [if_pos hScan]
    split at h
    · cases h
    · rename_i hCut
      rw [if_neg hCut, ← Option.some.inj h]
  · rename_i hScan
    rw [if_neg hScan, ← Option.some.inj h]

theorem piecesFrom_cons_of_cut {c : Char} (h : pass? scan depth [c] = none) (r : List Char) :
    piecesFrom scan depth run (c :: r) = Text.trim run.reverse :: piecesFrom .outside 0 [] r := by
  obtain ⟨hScan, hDepth, hComma⟩ := pass?_singleton_eq_none h
  rw [piecesFrom, if_pos hScan, if_pos ⟨hComma, hDepth⟩]

theorem pass?_reverse_cons {d k : Int} {c : Char} {p : Scan × Int}
    (hRun : pass? .outside k run.reverse = some (scan, d)) (h : pass? scan d [c] = some p) :
    pass? .outside k (c :: run).reverse = some p := by
  rw [List.reverse_cons, pass?_append, hRun]
  exact h

/-- A piece is a part of the text without the blanks around it. -/
theorem exists_trim_of_mem_piecesFrom {t : List Char} (ht : t ∈ piecesFrom scan depth run s) :
    ∃ u, t = Text.trim u ∧ ∀ c ∈ u, c ∈ run ∨ c ∈ s := by
  induction s generalizing scan depth run with
  | nil => exact ⟨run.reverse, List.mem_singleton.mp ht, fun c hc => .inl (List.mem_reverse.mp hc)⟩
  | cons d s ih =>
      cases hStep : pass? scan depth [d] with
      | none =>
          rw [piecesFrom_cons_of_cut hStep] at ht
          rcases List.mem_cons.mp ht with rfl | hRest
          · exact ⟨run.reverse, rfl, fun c hc => .inl (List.mem_reverse.mp hc)⟩
          · obtain ⟨u, rfl, hu⟩ := ih hRest
            exact ⟨u, rfl, fun c hc => .inr (.tail _ ((hu c hc).resolve_left List.not_mem_nil))⟩
      | some p =>
          rw [piecesFrom_cons_of_pass hStep] at ht
          obtain ⟨u, rfl, hu⟩ := ih ht
          refine ⟨u, rfl, fun c hc => ?_⟩
          rcases hu c hc with hRun | hRest
          · rcases List.mem_cons.mp hRun with rfl | hRun
            · exact .inr (.head _)
            · exact .inl hRun
          · exact .inr (.tail _ hRest)

theorem mem_piecesFrom {t : List Char} {c : Char} (ht : t ∈ piecesFrom scan depth run s)
    (hc : c ∈ t) : c ∈ run ∨ c ∈ s := by
  obtain ⟨u, rfl, hu⟩ := exists_trim_of_mem_piecesFrom ht
  exact hu c (Text.mem_of_mem_trim hc)

theorem tight_of_mem_piecesFrom {t : List Char} (ht : t ∈ piecesFrom scan depth run s) :
    Text.Tight t := by
  obtain ⟨u, rfl, _⟩ := exists_trim_of_mem_piecesFrom ht
  exact (Text.exists_trim u).choose_spec.choose_spec.2.2.2

/-- The pieces of a text without a comment have none. Where one starts, the scanner is outside quotes. -/
theorem dropComment_of_mem_piecesFrom {t : List Char} (hRun : pass? .outside 0 run.reverse = some (scan, depth))
    (hClear : dropComment (run.reverse ++ s) = run.reverse ++ s) (ht : t ∈ piecesFrom scan depth run s) :
    dropComment t = t := by
  induction s generalizing scan depth run with
  | nil =>
      obtain rfl := List.mem_singleton.mp ht
      exact dropComment_trim (by simpa using hClear)
  | cons c s ih =>
      cases hStep : pass? scan depth [c] with
      | none =>
          obtain ⟨rfl, rfl, rfl⟩ := pass?_singleton_eq_none hStep
          obtain ⟨hFirst, hRest⟩ := dropCommentFrom_parts hClear
          rw [Scan.after_eq hRun] at hRest
          rw [piecesFrom_cons_of_cut hStep] at ht
          rcases List.mem_cons.mp ht with rfl | hMem
          · exact dropComment_trim hFirst
          · exact @ih 0 .outside [] rfl (dropCommentFrom_parts (a := [',']) hRest).2 hMem
      | some p =>
          rw [piecesFrom_cons_of_pass hStep] at ht
          exact ih (pass?_reverse_cons hRun hStep) (by simpa using hClear) ht

/-- The pieces of a text can stand in a list again. -/
theorem separable_piecesFrom (hRun : pass? .outside 0 run.reverse = some (scan, depth)) :
    Separable 0 (piecesFrom scan depth run s) := by
  induction s generalizing scan depth run with
  | nil =>
      refine ⟨fun t ht => ?_, List.pairwise_singleton _ _⟩
      obtain rfl := List.mem_singleton.mp ht
      exact isSome_pass?_trim (by simp [hRun])
  | cons c s ih =>
      cases hStep : pass? scan depth [c] with
      | none =>
          obtain ⟨rfl, rfl, -⟩ := pass?_singleton_eq_none hStep
          have hRest := @ih 0 .outside [] rfl
          have hFirst := pass?_trim hRun
          rw [piecesFrom_cons_of_cut hStep]
          exact ⟨List.forall_mem_cons.mpr ⟨by simp [hFirst], hRest.passes⟩,
            List.pairwise_cons.mpr ⟨fun _ _ => hFirst, hRest.closes⟩⟩
      | some p =>
          rw [piecesFrom_cons_of_pass hStep]
          exact ih (pass?_reverse_cons hRun hStep)

/-- The pieces of a text that stands in brackets are passed in the brackets too. -/
theorem isSome_pass?_of_mem_piecesFrom {k : Int} {t : List Char}
    (hRun : pass? .outside k run.reverse = some (scan, depth + k))
    (hPass : (pass? scan (depth + k) s).isSome) (ht : t ∈ piecesFrom scan depth run s) :
    (pass? .outside k t).isSome := by
  induction s generalizing scan depth run with
  | nil =>
      obtain rfl := List.mem_singleton.mp ht
      exact isSome_pass?_trim (by simp [hRun])
  | cons c s ih =>
      have hHead : (pass? scan (depth + k) [c]).isSome := isSome_pass?_of_append (b := s) hPass
      obtain ⟨q, hq⟩ := Option.isSome_iff_exists.mp hHead
      have hRest : (pass? q.1 q.2 s).isSome := by
        rwa [← List.singleton_append, pass?_append, hq] at hPass
      cases hStep : pass? scan depth [c] with
      | none =>
          rw [piecesFrom_cons_of_cut hStep] at ht
          obtain ⟨rfl, rfl, rfl⟩ := pass?_singleton_eq_none hStep
          rcases List.mem_cons.mp ht with rfl | hMem
          · exact isSome_pass?_trim (by simp [hRun])
          · have hComma : q = (.outside, 0 + k) := by
              rw [pass?, if_pos rfl] at hq
              split at hq
              · cases hq
              · simpa [pass?, Scan.next, bracketStep] using hq.symm
            rw [hComma] at hRest
            refine @ih 0 .outside [] ?_ hRest hMem
            simp [pass?]
      | some p =>
          rw [piecesFrom_cons_of_pass hStep] at ht
          obtain rfl := pass?_shift hStep hq
          exact ih (pass?_reverse_cons hRun hq) hRest ht

/-! Lists that are written -/

theorem piecesFrom_of_pass {a : List Char} {p : Scan × Int} (h : pass? scan depth a = some p)
    (r : List Char) : piecesFrom scan depth run (a ++ r) = piecesFrom p.1 p.2 (a.reverse ++ run) r := by
  induction a generalizing scan depth run with
  | nil => rw [← Option.some.inj h]; rfl
  | cons c a ih =>
      rw [← List.singleton_append, pass?_append] at h
      obtain ⟨q, hq, hRest⟩ := Option.bind_eq_some_iff.mp h
      rw [List.cons_append, piecesFrom_cons_of_pass hq, ih hRest, List.reverse_cons, List.append_assoc]
      rfl

theorem trim_run {t : List Char} (ht : Text.Tight t) (hRun : ∀ c ∈ run, Text.isBlank c = true) :
    Text.trim (t.reverse ++ run).reverse = t := by
  have h := Text.trim_append (b := []) (fun c hc => hRun c (List.mem_reverse.mp hc)) ht (by simp)
  simpa using h

theorem separable_map_tail {t : String} {ts : List String}
    (h : Separable depth ((t :: ts).map String.toList)) : Separable depth (ts.map String.toList) :=
  h.sublist (List.sublist_cons_self _ _)

theorem closes_of_cons {t u : String} {ts : List String}
    (h : Separable depth ((t :: u :: ts).map String.toList)) :
    pass? .outside depth t.toList = some (.outside, depth) :=
  (List.pairwise_cons.mp h.closes).1 u.toList (.head _)

theorem toList_separated_cons (t u : String) (ts : List String) :
    (Text.separated ", " (t :: u :: ts)).toList =
      t.toList ++ ',' :: ' ' :: (Text.separated ", " (u :: ts)).toList := by
  simp [Text.separated]

/-- A list is cut where its texts were put together. -/
theorem piecesFrom_separated {ts : List String} (hRun : ∀ c ∈ run, Text.isBlank c = true)
    (hNonempty : ts ≠ []) (hTight : ∀ t ∈ ts, Text.Tight t.toList)
    (h : Separable 0 (ts.map String.toList)) :
    piecesFrom .outside 0 run (Text.separated ", " ts).toList = ts.map String.toList := by
  induction ts generalizing run with
  | nil => exact absurd rfl hNonempty
  | cons t ts ih =>
      cases ts with
      | nil =>
          obtain ⟨p, hp⟩ := Option.isSome_iff_exists.mp (h.passes t.toList (.head _))
          rw [Text.separated, ← List.append_nil t.toList, piecesFrom_of_pass hp, piecesFrom,
            trim_run (hTight t (.head _)) hRun]
          simp
      | cons u ts =>
          have hCut : pass? .outside 0 [','] = none := rfl
          have hGap : pass? .outside 0 [' '] = some (.outside, 0) := rfl
          have hBlank : ∀ c ∈ [' '], Text.isBlank c = true := List.forall_mem_singleton.mpr rfl
          rw [toList_separated_cons, piecesFrom_of_pass (closes_of_cons h), piecesFrom_cons_of_cut hCut,
            trim_run (hTight t (.head _)) hRun, piecesFrom_cons_of_pass hGap,
            ih hBlank (by simp) (fun v hv => hTight v (.tail _ hv)) (separable_map_tail h)]
          rfl

/-- Texts that are not empty are read back from a list of them. -/
theorem operands_separated {ts : List String} (hTight : ∀ t ∈ ts, Text.Tight t.toList)
    (hNonempty : ∀ t ∈ ts, t.toList ≠ []) (h : Separable 0 (ts.map String.toList)) :
    operands (Text.separated ", " ts).toList = ts.map String.toList := by
  cases ts with
  | nil => rfl
  | cons t ts =>
      rw [operands, piecesFrom_separated (by simp) (by simp) hTight h]
      exact if_neg fun hBlank => hNonempty t (.head _) (List.cons.inj hBlank).1

theorem items_separated {ts : List String} (hTight : ∀ t ∈ ts, Text.Tight t.toList)
    (hNonempty : ∀ t ∈ ts, t.toList ≠ []) (h : Separable 0 (ts.map String.toList)) :
    items (Text.separated ", " ts).toList = ts.map String.toList := by
  rw [items, operands_separated hTight hNonempty h, List.filter_eq_self]
  intro t ht
  obtain ⟨u, hu, rfl⟩ := List.mem_map.mp ht
  simpa using hNonempty u hu

/-- A comma inside brackets does not stop the scanner of operands. -/
theorem pass?_separated_cons {t u : String} {ts : List String} (hDepth : depth ≠ 0)
    (h : pass? .outside depth t.toList = some (.outside, depth)) :
    pass? .outside depth (Text.separated ", " (t :: u :: ts)).toList =
      pass? .outside depth (Text.separated ", " (u :: ts)).toList := by
  rw [toList_separated_cons, pass?_append, h]
  simp [pass?, hDepth, Scan.next, bracketStep]

theorem isSome_pass?_separated {ts : List String} (hDepth : depth ≠ 0)
    (h : Separable depth (ts.map String.toList)) :
    (pass? .outside depth (Text.separated ", " ts).toList).isSome := by
  induction ts with
  | nil => rfl
  | cons t ts ih =>
      cases ts with
      | nil => exact h.passes t.toList (.head _)
      | cons u ts =>
          rw [pass?_separated_cons hDepth (closes_of_cons h)]
          exact ih (separable_map_tail h)

theorem pass?_separated {ts : List String} (hDepth : depth ≠ 0)
    (h : ∀ t ∈ ts, pass? .outside depth t.toList = some (.outside, depth)) :
    pass? .outside depth (Text.separated ", " ts).toList = some (.outside, depth) := by
  induction ts with
  | nil => rfl
  | cons t ts ih =>
      have hRest := ih fun u hu => h u (.tail _ hu)
      cases ts with
      | nil => exact h t (.head _)
      | cons u ts => rwa [pass?_separated_cons hDepth (h t (.head _))]

/-- A list of texts without comments holds none. -/
theorem dropComment_separated {ts : List String} (hClear : ∀ t ∈ ts, dropComment t.toList = t.toList)
    (h : Separable depth (ts.map String.toList)) :
    dropComment (Text.separated ", " ts).toList = (Text.separated ", " ts).toList := by
  induction ts with
  | nil => rfl
  | cons t ts ih =>
      cases ts with
      | nil => exact hClear t (.head _)
      | cons u ts =>
          have hRest := ih (fun v hv => hClear v (.tail _ hv)) (separable_map_tail h)
          rw [toList_separated_cons]
          refine dropCommentFrom_append (hClear t (.head _)) ?_
          rw [Scan.after_eq (closes_of_cons h)]
          simpa [dropCommentFrom, Scan.next, dropComment] using hRest

theorem separated_ne_nil {t : String} {ts : List String} (h : t.toList ≠ []) :
    (Text.separated ", " (t :: ts)).toList ≠ [] := by
  cases ts with
  | nil => exact h
  | cons u ts => rw [toList_separated_cons]; exact List.append_ne_nil_of_left_ne_nil h _

/-- The ends of a list are those of its first and last texts. -/
theorem tight_separated {ts : List String} (hTight : ∀ t ∈ ts, Text.Tight t.toList)
    (hNonempty : ∀ t ∈ ts, t.toList ≠ []) : Text.Tight (Text.separated ", " ts).toList := by
  induction ts with
  | nil => exact ⟨by simp [Text.separated], by simp [Text.separated]⟩
  | cons t ts ih =>
      cases ts with
      | nil => exact hTight t (.head _)
      | cons u ts =>
          have hRest := ih (fun v hv => hTight v (.tail _ hv)) fun v hv => hNonempty v (.tail _ hv)
          rw [toList_separated_cons]
          exact (hTight t (.head _)).append [',', ' '] hRest (hNonempty t (.head _))
            (separated_ne_nil (hNonempty u (.tail _ (.head _))))

end Listing

end Dalvik
