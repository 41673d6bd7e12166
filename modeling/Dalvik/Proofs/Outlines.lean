import Dalvik.Proofs.Phrasing
import Dalvik.Proofs.Reading

/-!
The headers, instructions and handlers of methods that have been read from listings. They were lines once, so that they can
be lines again.
-/

namespace Dalvik

theorem Text.cutAt?_append {d : Char} {s before after : List Char} (h : cutAt? [d] s = some (before, after)) (r : List Char) :
    cutAt? [d] (s ++ r) = some (before, after ++ r) := by
  induction s generalizing before with
  | nil => cases h
  | cons c s ih =>
      rw [List.cons_append]
      rw [cutAt?] at h ⊢
      by_cases hHere : d = c
      · simp [dropLead?, hHere] at h ⊢
        exact ⟨h.1, by rw [h.2]⟩
      · simp [dropLead?, hHere] at h ⊢
        obtain ⟨before', hCut, rfl⟩ := h
        exact ⟨before', ih hCut, rfl⟩

/-- The first of two separators is where a text is cut. -/
theorem Text.length_le_of_cutAt? {sep a b before after : List Char} (hSome : sep ≠ [])
    (h : cutAt? sep (a ++ (sep ++ b)) = some (before, after)) : before.length ≤ a.length := by
  induction a generalizing before with
  | nil =>
      obtain ⟨c, sep, rfl⟩ := List.exists_cons_of_ne_nil hSome
      have hHere : dropLead? (c :: sep) (c :: (sep ++ b)) = some b := dropLead?_append (c :: sep) b
      simp only [List.nil_append, List.cons_append] at h
      rw [cutAt?, hHere] at h
      simp [← (Prod.mk.inj (Option.some.inj h)).1]
  | cons c a ih =>
      rw [List.cons_append, cutAt?] at h
      split at h
      · simp [← (Prod.mk.inj (Option.some.inj h)).1]
      · obtain ⟨⟨x, y⟩, hCut, hSame⟩ := Option.map_eq_some_iff.mp h
        obtain ⟨rfl, rfl⟩ := Prod.mk.inj hSame
        exact Nat.succ_le_succ (ih hCut)

namespace Descriptor

theorem readType?_append {s d r : List Char} (h : readType? s = some (d, r)) (z : List Char) :
    readType? (s ++ z) = some (d, r ++ z) := by
  induction s generalizing d with
  | nil => cases h
  | cons c s ih =>
      rw [List.cons_append]
      rw [readType?] at h ⊢
      split at h
      · rename_i hArray
        obtain ⟨⟨e, rest⟩, hElement, hSame⟩ := Option.map_eq_some_iff.mp h
        obtain ⟨rfl, rfl⟩ := Prod.mk.inj hSame
        rw [if_pos hArray, ih hElement]
        rfl
      rename_i hArray
      rw [if_neg hArray]
      split at h
      · rename_i hLetter
        obtain ⟨rfl, rfl⟩ := Prod.mk.inj (Option.some.inj h)
        rw [if_pos hLetter]
      rename_i hLetter
      rw [if_neg hLetter]
      split at h
      · rename_i hClass
        obtain ⟨⟨name, rest⟩, hName, hSame⟩ := Option.map_eq_some_iff.mp h
        obtain ⟨rfl, rfl⟩ := Prod.mk.inj hSame
        rw [if_pos hClass, Text.cutAt?_append hName]
        rfl
      · cases h

/-- No descriptor goes on after the end of another one. -/
theorem eq_nil_of_read?_append {s z : List Char} {d e : Descriptor} (h : read? s = some d) (hLonger : read? (s ++ z) = some e) :
    z = [] := by
  unfold read? at h hLonger
  split at h
  · rename_i hVoid
    subst hVoid
    split at hLonger
    · rename_i hSame
      simpa using hSame
    · cases hLonger
  · rename_i hOther
    split at h
    · rename_i t hType
      have hSome : s ≠ [] := by
        rintro rfl
        cases hType
      rw [readType?_append hType] at hLonger
      split at hLonger
      · rename_i hVoid
        obtain ⟨c, s, rfl⟩ := List.exists_cons_of_ne_nil hSome
        simp_all
      · split at hLonger
        · rename_i hWhole
          exact (Prod.mk.inj (Option.some.inj hWhole)).2
        · cases hLonger
    · cases h

end Descriptor

/-- The parts of a reference are read from both sides of the first arrow. -/
theorem MethodReference.exists_of_parse {s : String} {m : MethodReference} (h : parse s = .ok m) :
    ∃ definer, Text.cutAt? ['-', '>'] s.toList = some (definer, m.signature.toList) ∧
      Descriptor.read? definer = some m.definer := by
  unfold parse at h
  split at h
  · rename_i hRead
    rw [← Except.ok.inj h]
    obtain ⟨⟨definer, member⟩, hArrow, hRead⟩ := Option.bind_eq_some_iff.mp hRead
    obtain ⟨⟨name, rest⟩, hName, hRead⟩ := Option.bind_eq_some_iff.mp hRead
    obtain ⟨⟨params, ret⟩, hTypes, hRead⟩ := Option.bind_eq_some_iff.mp hRead
    dsimp only at hName hTypes hRead
    split at hRead
    · cases hRead
    obtain ⟨d, hDefiner, hSame⟩ := Option.bind_eq_some_iff.mp hRead
    rw [← Option.some.inj hSame]
    refine ⟨definer, hArrow.trans ?_, hDefiner⟩
    rw [Text.cutAt?_eq_append hName, List.append_assoc, List.singleton_append, Descriptor.eq_of_readPrototype? hTypes]
    simp [signature]
  · cases h

/-- What is read after the name of a class and an arrow is a member of the class. -/
theorem MethodReference.of_parse_member {d : Descriptor} {w : List Char} {m : MethodReference}
    (hd : Descriptor.parse d.text = .ok d) (h : parse (d.text ++ "->" ++ String.ofList w) = .ok m) :
    m.definer = d ∧ m.signature.toList = w := by
  have hText : (d.text ++ "->" ++ String.ofList w).toList = d.text.toList ++ (['-', '>'] ++ w) := by simp
  have hOwn : Descriptor.read? d.text.toList = some d := by
    unfold Descriptor.parse at hd
    split at hd
    · rename_i hRead
      rwa [Except.ok.inj hd] at hRead
    · cases hd
  obtain ⟨definer, hArrow, hDefiner⟩ := exists_of_parse h
  rw [hText] at hArrow
  have hSplit := Text.cutAt?_eq_append hArrow
  have hLength := Text.length_le_of_cutAt? (by simp) hArrow
  obtain ⟨z, hz⟩ : definer <+: d.text.toList :=
    List.prefix_of_prefix_length_le ⟨['-', '>'] ++ m.signature.toList, by rw [hSplit, List.append_assoc]⟩
      (List.prefix_append _ _) hLength
  obtain rfl : z = [] := Descriptor.eq_nil_of_read?_append hDefiner (hz ▸ hOwn)
  rw [List.append_nil] at hz
  subst hz
  refine ⟨Option.some.inj (hDefiner.symm.trans hOwn), ?_⟩
  simpa using hSplit.symm

namespace Text

/-- The last word of a text stands behind the other words. -/
theorem exists_of_wordsFrom {run s w : List Char} {ws : List (List Char)} (hRun : ∀ c ∈ run, isBlank c = false)
    (h : wordsFrom run s = ws ++ [w]) :
    ∃ a b, run.reverse ++ s = a ++ (w ++ b) ∧ (∀ c ∈ a, isBlank c = true ∨ ∃ v ∈ ws, c ∈ v) ∧
      ∀ c ∈ w, isBlank c = false := by
  induction s generalizing run ws with
  | nil =>
      rw [wordsFrom] at h
      split at h
      · simp at h
      · obtain ⟨rfl, rfl⟩ : ws = [] ∧ w = run.reverse := by
          have hLength := congrArg List.length h
          obtain rfl : ws = [] := by simpa using hLength
          simpa using h.symm
        exact ⟨[], [], by simp, List.forall_mem_nil _, fun c hc => hRun c (List.mem_reverse.mp hc)⟩
  | cons c s ih =>
      rw [wordsFrom] at h
      split at h
      · rename_i hBlank
        split at h
        · rename_i hEmpty
          obtain ⟨a, b, rfl, ha, hw⟩ := ih (List.forall_mem_nil _) h
          refine ⟨c :: a, b, by simp [List.isEmpty_iff.mp hEmpty], ?_, hw⟩
          exact List.forall_mem_cons.mpr ⟨.inl hBlank, ha⟩
        · cases ws with
          | nil =>
              obtain ⟨rfl, _⟩ := List.cons.inj h
              exact ⟨[], c :: s, by simp, List.forall_mem_nil _, fun d hd => hRun d (List.mem_reverse.mp hd)⟩
          | cons v ws =>
              obtain ⟨rfl, hRest⟩ := List.cons.inj h
              obtain ⟨a, b, rfl, ha, hw⟩ := ih (List.forall_mem_nil _) hRest
              refine ⟨run.reverse ++ c :: a, b, by simp, fun d hd => ?_, hw⟩
              rcases List.mem_append.mp hd with hFirst | hd
              · exact .inr ⟨_, .head _, hFirst⟩
              rcases List.mem_cons.mp hd with rfl | hd
              · exact .inl hBlank
              rcases ha d hd with hGap | ⟨u, hu, hdu⟩
              · exact .inl hGap
              · exact .inr ⟨u, .tail _ hu, hdu⟩
      · rename_i hLetter
        obtain ⟨a, b, hSplit, ha, hw⟩ := ih (List.forall_mem_cons.mpr ⟨by simpa using hLetter, hRun⟩) h
        exact ⟨a, b, by simpa using hSplit, ha, hw⟩

theorem not_mem_of_mem_linesFrom {run s l : List Char} (hRun : '\n' ∉ run) (h : l ∈ linesFrom run s) : '\n' ∉ l := by
  induction s generalizing run with
  | nil =>
      rw [linesFrom] at h
      split at h
      · cases h
      · rw [List.mem_singleton.mp h]
        simpa using hRun
  | cons c s ih =>
      rw [linesFrom] at h
      split at h
      · rcases List.mem_cons.mp h with rfl | hRest
        · unfold dropReturn
          split
          · simpa using hRun
          · simpa using hRun
        · exact ih (by simp) hRest
      · rename_i hOther
        exact ih (by simp [hRun, Ne.symm hOther]) h

end Text

namespace Listing

theorem ne_quote_of_quiet {c : Char} (h : isQuiet c = true) : c ≠ '"' ∧ c ≠ '\'' := by
  obtain ⟨_, _, hDouble, hSingle, _⟩ := quiet_iff.mp h
  exact ⟨hDouble, hSingle⟩

theorem type_of_readRange? {type s : List Char} {parts : CatchParts} (h : readRange? type s = some parts) :
    parts.type = type := by
  unfold readRange? at h
  obtain ⟨p, _, h⟩ := Option.bind_eq_some_iff.mp h
  obtain ⟨r, _, h⟩ := Option.bind_eq_some_iff.mp h
  obtain ⟨q, _, h⟩ := Option.bind_eq_some_iff.mp h
  obtain ⟨r', _, h⟩ := Option.bind_eq_some_iff.mp h
  obtain ⟨t, _, h⟩ := Option.bind_eq_some_iff.mp h
  dsimp only at h
  split at h
  · rw [← Option.some.inj h]
  · cases h

/-- Where the type stands in the line of a handler. -/
theorem exists_of_readCatch? {line : List Char} {parts : CatchParts} (h : readCatch? line = some parts) :
    ∃ a b, line = a ++ (parts.type ++ b) ∧ (∀ c ∈ a, c ≠ '"' ∧ c ≠ '\'') ∧ ∀ c ∈ parts.type, isGap c = false := by
  unfold readCatch? at h
  obtain ⟨s, hLead, h⟩ := Option.bind_eq_some_iff.mp h
  obtain ⟨⟨tail, head⟩, hBrace, h⟩ := Option.bind_eq_some_iff.mp h
  dsimp only at h
  split at h
  · cases h
  rename_i hType
  rw [type_of_readRange? h]
  have hLine : line = ".catch".toList ++ s := Text.dropLead?_eq_append hLead
  have hHead : head = head.takeWhile isGap ++ dropGap head := (List.takeWhile_append_dropWhile).symm
  have hRest : s = (dropGap head).reverse ++ ((head.takeWhile isGap).reverse ++ '\x7b' :: tail.reverse) := by
    rw [← List.reverse_reverse s, Text.cutAt?_eq_append hBrace]
    conv_lhs => rw [hHead]
    simp
  have hWhole : (dropGap head).reverse = (dropGap head).reverse.takeWhile isGap ++ dropGap (dropGap head).reverse :=
    (List.takeWhile_append_dropWhile).symm
  refine ⟨".catch".toList ++ (dropGap head).reverse.takeWhile isGap,
    (head.takeWhile isGap).reverse ++ '\x7b' :: tail.reverse, ?_, fun c hc => ?_, fun c hc => ?_⟩
  · rw [hLine, hRest]
    conv_lhs => rw [hWhole]
    simp
  · rcases List.mem_append.mp hc with hWord | hGap
    · exact ne_quote_of_quiet (List.all_eq_true.mp (by decide) c hWord)
    · have hBlank : isGap c = true := List.all_eq_true.mp List.all_takeWhile c hGap
      exact ⟨fun hQuote => absurd (hQuote ▸ hBlank) (by decide), fun hQuote => absurd (hQuote ▸ hBlank) (by decide)⟩
  · simp only [Bool.or_eq_true, not_or, Bool.not_eq_true, List.any_eq_false] at hType
    simpa using hType.2 c hc

namespace OpenMethod

/-- What has been read of a method can be written. -/
structure Outlined (m : OpenMethod) : Prop extends m.reference.Declarable where
  locals : m.locals < 0x10000
  phrased : ∀ i ∈ m.code, i.Phrased
  caught : ∀ k ∈ m.catches, ∀ d ∈ k.type, d.Catchable

/-- Every word before the signature of a method is the word for a flag, which has no quotes. -/
theorem ne_quote_of_mapM {ε : Type} {ws : List (List Char)} {flags : List AccessFlag} {complain : List Char → ε}
    (h : (ws.mapM fun w =>
      match AccessFlag.ofKeyword? (String.ofList w) with
      | some flag => Except.ok flag
      | none => .error (complain w)) = .ok flags) :
    ∀ w ∈ ws, ∀ c ∈ w, c ≠ '"' ∧ c ≠ '\'' := by
  induction ws generalizing flags with
  | nil => exact List.forall_mem_nil _
  | cons w ws ih =>
      rw [List.mapM_cons] at h
      obtain ⟨flag, hFlag, h⟩ := except_bind_eq_ok.mp h
      obtain ⟨rest, hRest, _⟩ := except_bind_eq_ok.mp h
      refine List.forall_mem_cons.mpr ⟨?_, ih hRest⟩
      split at hFlag
      · rename_i f hKeyword
        have hWord : f.keyword = String.ofList w := by simpa using List.find?_some hKeyword
        have hQuiet := (Method.keyword_word f).2
        rw [hWord, String.toList_ofList] at hQuiet
        exact fun c hc => ne_quote_of_quiet (hQuiet c hc)
      · cases hFlag

theorem ofHeader_ends {definer : Descriptor} {number : Nat} {header : List Char}
    (hParses : Descriptor.parse definer.text = .ok definer)
    (hClear : dropComment (".method".toList ++ header) = ".method".toList ++ header) :
    Ends (ofHeader definer number header) Outlined fun _ => True := by
  refine ends_of_eq fun m hm => ?_
  unfold ofHeader at hm
  dsimp only at hm
  split at hm
  · cases hm
  rename_i signature hLast
  obtain ⟨flags, hFlags, hm⟩ := except_bind_eq_ok.mp hm
  obtain ⟨reference, hReference, hm⟩ := except_bind_eq_ok.mp hm
  obtain rfl := Except.ok.inj hm
  have hRead := eq_ok_of_mapError hReference
  obtain ⟨hDefiner, hSignature⟩ := MethodReference.of_parse_member hParses hRead
  have hText : reference.text = definer.text ++ "->" ++ String.ofList signature := by
    rw [MethodReference.text, hDefiner, ← hSignature, String.ofList_toList]
  have hWords : Text.wordsFrom [] header = (Text.words header).dropLast ++ [signature] := by
    rw [List.dropLast_append_getLast? signature hLast]
    rfl
  obtain ⟨a, b, hSplit, ha, hWord⟩ := Text.exists_of_wordsFrom (List.forall_mem_nil _) hWords
  have hQuotes : ∀ c ∈ ".method".toList ++ a, c ≠ '"' ∧ c ≠ '\'' := by
    intro c hc
    rcases List.mem_append.mp hc with hStart | hMiddle
    · exact ne_quote_of_quiet (List.all_eq_true.mp (by decide) c hStart)
    rcases ha c hMiddle with hBlank | ⟨v, hv, hcv⟩
    · exact ne_quote_of_isBlank hBlank
    · exact ne_quote_of_mapM hFlags v hv c hcv
  refine ⟨⟨hText ▸ hRead, ?_, ?_⟩, by simp, by simp, by simp⟩
  · rwa [hSignature]
  · rw [hSignature]
    rw [List.reverse_nil, List.nil_append] at hSplit
    rw [hSplit, ← List.append_assoc] at hClear
    exact dropComment_infix hQuotes hClear

theorem addCatch_ends {m : OpenMethod} (h : m.Outlined) {number : Nat} {line : List Char}
    (hClear : dropComment line = line) (hBreak : '\n' ∉ line) :
    Ends (m.addCatch number line) Outlined fun _ => True := by
  refine ends_of_eq fun m' hm' => ?_
  unfold addCatch at hm'
  split at hm'
  · cases hm'
  rename_i parts hParts
  obtain ⟨a, b, hSplit, ha, hGaps⟩ := exists_of_readCatch? hParts
  dsimp only at hm'
  split at hm'
  · obtain rfl := Except.ok.inj hm'
    exact { h with caught := List.forall_mem_cons.mpr ⟨nofun, h.caught⟩ }
  · obtain ⟨e, hParse, hm'⟩ := except_bind_eq_ok.mp hm'
    obtain rfl := Except.ok.inj hm'
    have hRead := eq_ok_of_mapError hParse
    have hText : e.text = String.ofList parts.type := Descriptor.text_of_parse hRead
    have hChars : e.text.toList = parts.type := by rw [hText, String.toList_ofList]
    refine { h with caught := List.forall_mem_cons.mpr ⟨fun d hd => ?_, h.caught⟩ }
    obtain rfl : e = d := Option.some.inj hd
    refine ⟨hText ▸ hRead, by rwa [hChars], ?_, fun hMem => hBreak ?_⟩
    · rw [hChars]
      exact dropComment_infix ha (hSplit ▸ hClear)
    · rw [hChars] at hMem
      exact hSplit ▸ List.mem_append_right _ (List.mem_append_left _ hMem)

theorem addLine_ends {m : OpenMethod} (h : m.Outlined) {number : Nat} {line : List Char}
    (hClear : dropComment line = line) (hBreak : '\n' ∉ line) :
    Ends (m.addLine number line) Outlined fun _ => True := by
  unfold addLine
  split
  · unfold addDirective
    split
    · split
      · rename_i n hNumber
        exact { h with locals := by simpa using (Option.filter_eq_some_iff.mp hNumber).2 }
      · trivial
    · split
      · trivial
      split
      · exact addCatch_ends h hClear hBreak
      · exact h
  · split
    · split
      · trivial
      · exact { h with }
    · split
      · rename_i hRead
        exact { h with phrased := List.forall_mem_cons.mpr ⟨readLine_phrased hClear hBreak hRead, h.phrased⟩ }
      · trivial

/-- A method that is complete is as its lines said. -/
theorem close_outlined {m : OpenMethod} (h : m.Outlined) :
    Ends m.close (fun method => method.Outlined ∧ ∀ i ∈ method.code, i.Phrased) fun _ => True := by
  refine ends_of_eq fun method hMethod => ?_
  have hBounded := (m.close_ends.of_eq_ok hMethod).2
  unfold close at hMethod
  obtain ⟨_, _, hMethod⟩ := except_bind_eq_ok.mp hMethod
  obtain ⟨_, _, hMethod⟩ := except_bind_eq_ok.mp hMethod
  obtain ⟨_, _, hMethod⟩ := except_bind_eq_ok.mp hMethod
  obtain rfl := Except.ok.inj hMethod
  refine ⟨⟨⟨h.toDeclarable, h.locals⟩, fun k hk d hd => ?_, hBounded⟩, fun j hj => ?_⟩
  · change k ∈ List.flatMap TryBlock.handlers (m.catches.reverse.foldl _ []) at hk
    rw [foldl_addHandler] at hk
    rcases mem_handlers_gather hk with hNone | ⟨e, he, rfl⟩
    · cases hNone
    · obtain ⟨c, hc, rfl⟩ := List.mem_map.mp he
      exact h.caught c (List.mem_reverse.mp hc) d hd
  · obtain ⟨i, hi, rfl⟩ := List.mem_map.mp hj
    exact (h.phrased i (List.mem_reverse.mp hi)).mapTargets _

end OpenMethod

namespace OpenClass

/-- What has been read of a class can be written. -/
structure Outlined (c : OpenClass) : Prop where
  parses : ∀ name ∈ c.name, Descriptor.parse name.text = .ok name
  word : ∀ name ∈ c.name, ∀ d ∈ name.text.toList, Text.isBlank d = false
  current : ∀ m ∈ c.current, m.Outlined
  methods : ∀ m ∈ c.methods, m.Outlined ∧ ∀ i ∈ m.code, i.Phrased

variable {c : OpenClass}

theorem outlined_empty : empty.Outlined := ⟨nofun, nofun, nofun, nofun⟩

theorem addHeader_outlined (h : c.Outlined) {number : Nat} {line : List Char} (hClear : dropComment line = line) :
    Ends (c.addHeader number line) Outlined fun _ => True := by
  unfold addHeader
  split
  · split
    · trivial
    · rename_i word hWord
      rw [ends_bind]
      refine ends_of_eq fun name hName => ?_
      have hRead := eq_ok_of_mapError hName
      have hText := Descriptor.text_of_parse hRead
      have hWords : Text.wordsFrom [] _ = (Text.words _).dropLast ++ [word] :=
        (List.dropLast_append_getLast? word hWord).symm
      obtain ⟨_, _, _, _, hLetters⟩ := Text.exists_of_wordsFrom (List.forall_mem_nil _) hWords
      exact { h with
        parses := fun n hn => by
          obtain rfl : name = n := Option.some.inj hn
          exact hText ▸ hRead
        word := fun n hn => by
          obtain rfl : name = n := Option.some.inj hn
          rwa [hText, String.toList_ofList] }
  · split
    · rename_i rest hRest
      split
      · trivial
      · rename_i name hName
        rw [ends_bind]
        have hLine := Text.dropLead?_eq_append hRest
        refine (OpenMethod.ofHeader_ends (h.parses name hName) (hLine ▸ hClear)).imp (fun m hm => ?_) fun _ _ => trivial
        exact { h with current := by simpa using hm }
    · split
      · exact h
      · trivial

theorem addLine_outlined (h : c.Outlined) {line : List Char × Nat} (hBreak : '\n' ∉ line.1) :
    Ends (c.addLine line) Outlined fun _ => True := by
  have hClear : dropComment (Text.trim (dropComment line.1)) = Text.trim (dropComment line.1) :=
    dropComment_trim dropCommentFrom_idem
  have hText : '\n' ∉ Text.trim (dropComment line.1) := fun hMem =>
    hBreak (mem_of_mem_dropCommentFrom (Text.mem_of_mem_trim hMem))
  unfold addLine
  dsimp only
  split
  · exact h
  · cases hCurrent : c.current with
    | none => exact addHeader_outlined h hClear
    | some m =>
        have hm := h.current m hCurrent
        dsimp only
        split
        · rw [ends_bind]
          refine (OpenMethod.close_outlined hm).imp (fun m' hm' => ?_) fun _ _ => trivial
          exact { h with current := nofun, methods := List.forall_mem_cons.mpr ⟨hm', h.methods⟩ }
        · rw [ends_bind]
          refine (OpenMethod.addLine_ends hm hClear hText).imp (fun m' hm' => ?_) fun _ _ => trivial
          exact { h with current := by simpa using hm' }

theorem foldlM_addLine_outlined (h : c.Outlined) {lines : List (List Char × Nat)} (hBreak : ∀ l ∈ lines, '\n' ∉ l.1) :
    Ends (lines.foldlM addLine c) Outlined fun _ => True := by
  induction lines generalizing c with
  | nil => exact h
  | cons line lines ih =>
      rw [List.foldlM_cons, ends_bind]
      exact (addLine_outlined h (hBreak _ (.head _))).imp (fun _ hc => ih hc fun l hl => hBreak l (.tail _ hl))
        fun _ _ => trivial

end OpenClass

end Listing

namespace ClassDefinition

/-- The name of a class and its methods can be written, if they have been read. -/
theorem outlined_of_read {text : String} {d : ClassDefinition} (h : read text = .ok d) :
    (Descriptor.parse d.name.text = .ok d.name ∧ ∀ c ∈ d.name.text.toList, Text.isBlank c = false) ∧
      ∀ m ∈ d.methods, m.Outlined ∧ ∀ i ∈ m.code, i.Phrased := by
  obtain ⟨c, hLines, hClose⟩ := except_bind_eq_ok.mp h
  have hBreak : ∀ l ∈ (Text.lines text.toList).zipIdx 1, '\n' ∉ l.1 := fun l hl =>
    Text.not_mem_of_mem_linesFrom (by simp) (List.fst_mem_of_mem_zipIdx hl)
  have hc := (Listing.OpenClass.foldlM_addLine_outlined Listing.OpenClass.outlined_empty hBreak).of_eq_ok hLines
  unfold Listing.OpenClass.close at hClose
  split at hClose
  · cases hClose
  · split at hClose
    · cases hClose
    · rename_i name hName
      obtain rfl := Except.ok.inj hClose
      exact ⟨⟨hc.parses name hName, hc.word name hName⟩, fun m hm => hc.methods m (List.mem_reverse.mp hm)⟩

end ClassDefinition

end Dalvik
