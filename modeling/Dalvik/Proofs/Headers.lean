import Dalvik.Listing.Printer
import Dalvik.Proofs.Lines
import Dalvik.Proofs.Pairing

/-!
The rows of a method around its code. Labels are found by their names, the header gives the reference and the flags, and
the line of a handler its type, its range and its target.
-/

namespace Dalvik

theorem Text.dropLead?_append (lead s : List Char) : dropLead? lead (lead ++ s) = some s := by
  simp [dropLead?]

theorem Text.cutAt?_of_not_mem {c : Char} {a b : List Char} (h : c ∉ a) : cutAt? [c] (a ++ c :: b) = some (a, b) := by
  induction a with
  | nil => simp [cutAt?, dropLead?]
  | cons d a ih =>
      have hFirst : c ≠ d := fun hc => h (hc ▸ .head _)
      have hLead : dropLead? [c] (d :: (a ++ c :: b)) = none := by simp [dropLead?, hFirst]
      rw [List.cons_append, cutAt?, hLead, ih fun hMem => h (.tail _ hMem)]
      rfl

theorem Text.cutAt?_eq_none {c : Char} {lead s : List Char} (h : c ∉ s) : cutAt? (c :: lead) s = none := by
  induction s with
  | nil => rfl
  | cons d s ih =>
      have hFirst : c ≠ d := fun hc => h (hc ▸ .head _)
      have hLead : dropLead? (c :: lead) (d :: s) = none := by simp [dropLead?, hFirst]
      rw [cutAt?, hLead, ih fun hMem => h (.tail _ hMem)]
      rfl

theorem mapM_map_eq_ok {α β γ ε : Type} {as : List α} {f : β → Except ε γ} {g : α → β} {k : α → γ}
    (h : ∀ a ∈ as, f (g a) = .ok (k a)) : (as.map g).mapM f = .ok (as.map k) := by
  refine mapM_of_forall₂ ?_
  rw [List.forall₂_map_left_iff, List.forall₂_map_right_iff]
  exact List.forall₂_same.mpr h

namespace Address

/-- What the label of a place is called. -/
def labelName (a : Address) : String := "addr_" ++ toString a

theorem toList_labelName (a : Address) : (labelName a).toList = "addr_".toList ++ Nat.toDigits 10 a := by
  simp [labelName]

theorem toList_label (a : Address) : (label a).toList = ':' :: (labelName a).toList := by
  simp [label, labelName]

theorem labelName_injective {a b : Address} (h : labelName a = labelName b) : a = b := by
  have hDigits : Nat.toDigits 10 a = Nat.toDigits 10 b := by
    have hSame := congrArg String.toList h
    rw [toList_labelName, toList_labelName] at hSame
    exact List.append_cancel_left hSame
  have hValue := congrArg Text.decimal? hDigits
  simpa using hValue

theorem isLabelChar_of_mem {a : Address} {c : Char} (h : c ∈ (labelName a).toList) :
    Listing.isLabelChar c = true := by
  rw [toList_labelName] at h
  rcases List.mem_append.mp h with hWord | hDigit
  · have hAll : "addr_".toList.all Listing.isLabelChar = true := by decide
    exact List.all_eq_true.mp hAll c hWord
  · simp [Listing.isLabelChar, Char.isAlphanum, Text.isDigit_of_mem_toDigits hDigit]

theorem labelName_ne_empty (a : Address) : labelName a ≠ "" := fun h => by
  have hSame := congrArg String.toList h
  simp [toList_labelName] at hSame

theorem labelName?_label (a : Address) : Listing.labelName? (label a).toList = some (labelName a) := by
  have hAll : (labelName a).toList.all Listing.isLabelChar = true :=
    List.all_eq_true.mpr fun _ => isLabelChar_of_mem
  rw [toList_label, Listing.labelName?]
  simp [hAll, labelName_ne_empty]

/-- Where a label ends, what comes after it begins. -/
theorem takeLabel?_label (a : Address) {r : List Char} (hr : ∀ c ∈ r.head?, Listing.isLabelChar c = false) :
    Listing.takeLabel? ((label a).toList ++ r) = some (labelName a, r) := by
  have hName : ∀ c ∈ (labelName a).toList, Listing.isLabelChar c = true := fun _ => isLabelChar_of_mem
  have hNone : r.takeWhile Listing.isLabelChar = [] := by
    cases r with
    | nil => rfl
    | cons c r => exact List.takeWhile_cons_of_neg (by simp [hr c rfl])
  rw [toList_label, List.cons_append, Listing.takeLabel?]
  simp only [List.takeWhile_append_of_pos hName, List.dropWhile_append_of_pos hName, hNone,
    Text.dropWhile_eq_self hr, List.append_nil, String.ofList_toList]
  rw [if_neg (by simp [labelName_ne_empty])]

/-- No scanner of a line reacts to a label. -/
theorem quiet_of_mem_label {a : Address} {c : Char} (h : c ∈ (label a).toList) : Listing.isQuiet c = true := by
  rw [toList_label, toList_labelName] at h
  rcases List.mem_cons.mp h with rfl | h
  · decide
  rcases List.mem_append.mp h with hWord | hDigit
  · have hAll : "addr_".toList.all Listing.isQuiet = true := by decide
    exact List.all_eq_true.mp hAll c hWord
  · exact Listing.quiet_of_isDigit (Text.isDigit_of_mem_toDigits hDigit)

theorem line_label (a : Address) : Listing.Line (label a).toList := .of_quiet fun _ => quiet_of_mem_label

end Address

namespace AccessFlags

theorem contains_foldl_insert (fs : List AccessFlag) (flags : AccessFlags) (a : AccessFlag) :
    (fs.foldl insert flags).contains a = (decide (a ∈ fs) || flags.contains a) := by
  induction fs generalizing flags with
  | nil => simp
  | cons f fs ih => 
      rw [List.foldl_cons, ih, contains_insert, Bool.eq_iff_iff]
      simp only [Bool.or_eq_true, decide_eq_true_eq, List.mem_cons]
      tauto

theorem contains_empty (a : AccessFlag) : empty.contains a = false := by cases a <;> rfl

theorem contains_ofList (fs : List AccessFlag) (a : AccessFlag) : (ofList fs).contains a = decide (a ∈ fs) := by
  simp [ofList, contains_foldl_insert, contains_empty]

theorem ext_contains {f g : AccessFlags} (h : ∀ a, f.contains a = g.contains a) : f = g := by
  have hAll := And.intro (h .pub) (And.intro (h .priv) (And.intro (h .prot) (And.intro (h .static) (And.intro (h .final)
    (And.intro (h .synchronized) (And.intro (h .native) (And.intro (h .abstract) (h .constructor))))))))
  cases f
  cases g
  simpa [contains] using hAll

/-- The flags of a header, and the one that only a name can tell. -/
theorem insert_ofList (flags : AccessFlags) (named : Bool) :
    (if named then (ofList (flags.toList.filter (· ≠ .constructor))).insert .constructor
      else ofList (flags.toList.filter (· ≠ .constructor))) = { flags with constructor := named } := by
  have hOther {a : AccessFlag} (ha : a ≠ .constructor) :
      ({ flags with constructor := named } : AccessFlags).contains a = flags.contains a := by
    cases a <;> first | rfl | exact absurd rfl ha
  have hOwn : ({ flags with constructor := named } : AccessFlags).contains .constructor = named := rfl
  refine ext_contains fun a => ?_
  by_cases ha : a = .constructor
  · subst ha
    rw [hOwn]
    cases named <;> simp [contains_insert, contains_ofList]
  · rw [hOther ha]
    cases named <;> simp [contains_insert, contains_ofList, mem_toList, ha, Ne.symm ha]

end AccessFlags

/-- What makes a header say what a method is called, and what it takes and returns. -/
structure MethodReference.Declarable (m : MethodReference) : Prop where
  parses : parse m.text = .ok m
  word : ∀ c ∈ m.signature.toList, Text.isBlank c = false
  clear : Listing.dropComment m.signature.toList = m.signature.toList

theorem MethodReference.declarable_of_quiet {m : MethodReference} (hParses : parse m.text = .ok m)
    (hQuiet : m.signature.toList.all Listing.isQuiet = true) : m.Declarable := by
  have hAll := List.all_eq_true.mp hQuiet
  exact ⟨hParses, fun c hc => (Listing.quiet_iff.mp (hAll c hc)).1, (Listing.Line.of_quiet hAll).clear⟩

namespace Method

variable (m : Method)

/-- The flags that a header declares. -/
def declared : List AccessFlag := m.flags.toList.filter (· ≠ .constructor)

/-- The words of a header after the first one. -/
def headerTail : List (List Char) :=
  m.declared.map (fun f => f.keyword.toList) ++ [m.reference.signature.toList]

theorem toList_headerWords :
    m.headerWords.toList = m.declared.flatMap fun f => f.keyword.toList ++ [' '] := by
  simp [headerWords, declared, String.toList_join, List.flatMap, Function.comp_def]

theorem keyword_word (f : AccessFlag) : f.keyword.toList ≠ [] ∧ ∀ c ∈ f.keyword.toList, Listing.isQuiet c = true := by
  have hAll : f.keyword.toList.all Listing.isQuiet = true := by cases f <;> decide
  exact ⟨by cases f <;> decide, List.all_eq_true.mp hAll⟩

theorem lead_keyword (f : AccessFlag) : Listing.Lead (f.keyword.toList ++ [' ']) := by
  cases f <;> exact ⟨⟨_, _, rfl, by decide⟩, by decide, by decide, by decide⟩

variable {m}

theorem words_header (hSome : m.reference.signature.toList ≠ [])
    (hWord : ∀ c ∈ m.reference.signature.toList, Text.isBlank c = false) :
    Text.words (m.headerWords.toList ++ m.reference.signature.toList) = m.headerTail := by
  unfold headerTail
  rw [toList_headerWords]
  induction m.declared with
  | nil => exact Text.words_of_not_blank hWord hSome
  | cons f fs ih =>
      obtain ⟨hKeyword, hQuiet⟩ := keyword_word f
      have hLetters : ∀ c ∈ f.keyword.toList, Text.isBlank c = false := fun c hc =>
        (Listing.quiet_iff.mp (hQuiet c hc)).1
      rw [List.flatMap_cons, List.append_assoc, List.append_assoc, List.singleton_append,
        Text.words_append hLetters hKeyword, ih]
      rfl

variable (m)

/-- What makes the lines at the start of a method say what the method is called, what it takes and returns, and how many
local registers it has. -/
structure Headed : Prop extends m.reference.Declarable where
  locals : m.locals < 0x10000

/-- The flags as a header tells them. Whether a method is a constructor is told by its name. -/
def headerFlags : AccessFlags := { m.flags with constructor := m.reference.isConstructor }

/-- The text of the header. -/
def headerText : List Char := ".method ".toList ++ (m.headerWords.toList ++ m.reference.signature.toList)

/-- A method of which the header has been read. -/
def begun (number : Nat) : Listing.OpenMethod where
  reference := m.reference
  flags := m.headerFlags
  headerLine := number
  locals := 0
  code := []
  labels := []
  catches := []

variable {m}

theorem signature_ne_nil : m.reference.signature.toList ≠ [] := by
  simp [MethodReference.signature]

theorem Headed.line (h : m.Headed) : Listing.Line m.headerText := by
  have hSignature : Listing.Line m.reference.signature.toList :=
    ⟨⟨fun c hc => h.word c (List.mem_of_mem_head? hc), fun c hc => h.word c (List.mem_of_mem_getLast? hc)⟩, h.clear,
      fun hMem => absurd (h.word _ hMem) (by decide)⟩
  have hWords : Listing.Line (m.headerWords.toList ++ m.reference.signature.toList) := by
    rw [toList_headerWords]
    induction m.declared with
    | nil => exact hSignature
    | cons f fs ih =>
        rw [List.flatMap_cons, List.append_assoc]
        exact (lead_keyword f).append_line (List.append_ne_nil_of_right_ne_nil _ signature_ne_nil) ih
  have hLead : Listing.Lead ".method ".toList := ⟨⟨_, _, rfl, by decide⟩, by decide, by decide, by decide⟩
  exact hLead.append_line (List.append_ne_nil_of_right_ne_nil _ signature_ne_nil) hWords

theorem Headed.ofHeader_eq (h : m.Headed) (number : Nat) :
    Listing.OpenMethod.ofHeader m.reference.definer number (' ' :: (m.headerWords.toList ++ m.reference.signature.toList)) =
      .ok (m.begun number) := by
  have hFlags := AccessFlags.insert_ofList m.flags m.reference.isConstructor
  have hParses : MethodReference.parse (m.reference.definer.text ++ "->" ++ m.reference.signature) = .ok m.reference :=
    h.parses
  unfold Listing.OpenMethod.ofHeader
  rw [Text.words_blank, words_header signature_ne_nil h.word, headerTail]
  simp only [List.getLast?_concat, List.dropLast_concat, String.ofList_toList, hParses]
  rw [mapM_map_eq_ok (k := id) fun f _ => by rw [String.ofList_toList, AccessFlag.ofKeyword?_keyword]; rfl, List.map_id]
  refine congrArg (fun flags => Except.ok { m.begun number with flags }) ?_
  exact hFlags

end Method

namespace Listing

theorem dropGap_of_head {s : List Char} (h : ∀ c ∈ s.head?, isGap c = false) : dropGap s = s :=
  Text.dropWhile_eq_self h

theorem dropGap_space (s : List Char) : dropGap (' ' :: s) = dropGap s := List.dropWhile_cons_of_pos (by decide)

theorem dropGap_label (a : Address) (r : List Char) :
    dropGap ((Address.label a).toList ++ r) = (Address.label a).toList ++ r := by
  refine dropGap_of_head fun c hc => ?_
  rw [Address.toList_label] at hc
  obtain rfl : ':' = c := Option.some.inj hc
  decide

/-- What stands after the type in the line of a handler. -/
def rangeText (start stop target : Address) : List Char :=
  (Address.label start).toList ++ (" .. ".toList ++ ((Address.label stop).toList ++ ("\x7d ".toList ++
    (Address.label target).toList)))

theorem readRange?_rangeText (type : List Char) (start stop target : Address) :
    readRange? type (rangeText start stop target) = some ⟨type, start.labelName, stop.labelName, target.labelName⟩ := by
  have hDots (r : List Char) : Text.dropLead? ['.', '.'] (dropGap (" .. ".toList ++ r)) = some (' ' :: r) := rfl
  have hClose (r : List Char) : Text.dropLead? ['\x7d'] (dropGap ("\x7d ".toList ++ r)) = some (' ' :: r) := rfl
  have hStart (r : List Char) : takeLabel? ((Address.label start).toList ++ (" .. ".toList ++ r)) =
      some (start.labelName, " .. ".toList ++ r) :=
    Address.takeLabel?_label start fun c hc => by
      obtain rfl : ' ' = c := Option.some.inj hc
      decide
  have hStop (r : List Char) : takeLabel? ((Address.label stop).toList ++ ("\x7d ".toList ++ r)) =
      some (stop.labelName, "\x7d ".toList ++ r) :=
    Address.takeLabel?_label stop fun c hc => by
      obtain rfl : '\x7d' = c := Option.some.inj hc
      decide
  have hTarget : takeLabel? (Address.label target).toList = some (target.labelName, []) := by
    simpa using Address.takeLabel?_label target (r := []) (by simp)
  have hGap : dropGap (Address.label target).toList = (Address.label target).toList := by
    simpa using dropGap_label target []
  unfold readRange? rangeText
  rw [dropGap_label, hStart]
  simp only [Option.bind_eq_bind, Option.bind_some, hDots, dropGap_space, dropGap_label, hStop, hClose, hGap, hTarget]
  rfl

/-- The type of a handler, with which its line begins. -/
structure TypeWord (s : List Char) : Prop where
  nonempty : s ≠ []
  gapless : ∀ c ∈ s, isGap c = false

theorem readCatch?_catch {type : List Char} (h : TypeWord type) (start stop target : Address) :
    readCatch? (".catch ".toList ++ (type ++ (" \x7b".toList ++ rangeText start stop target))) =
      some ⟨type, start.labelName, stop.labelName, target.labelName⟩ := by
  have hLead : Text.dropLead? ".catch".toList (".catch ".toList ++ (type ++ (" \x7b".toList ++ rangeText start stop target))) =
      some (' ' :: (type ++ ' ' :: '\x7b' :: rangeText start stop target)) :=
    Text.dropLead?_append ".catch".toList (' ' :: (type ++ ' ' :: '\x7b' :: rangeText start stop target))
  have hBrace : '\x7b' ∉ (rangeText start stop target).reverse := by
    have hLabel (a : Address) : '\x7b' ∉ (Address.label a).toList := fun hMem => by
      rw [Address.toList_label] at hMem
      exact absurd (Address.isLabelChar_of_mem (List.mem_of_ne_of_mem (by decide) hMem)) (by decide)
    simp [rangeText, hLabel]
  have hReverse : (' ' :: (type ++ ' ' :: '\x7b' :: rangeText start stop target)).reverse =
      (rangeText start stop target).reverse ++ '\x7b' :: (' ' :: (type.reverse ++ [' '])) := by
    simp
  have hEnd : dropGap (' ' :: (type.reverse ++ [' '])) = type.reverse ++ [' '] := by
    rw [dropGap_space]
    refine dropGap_of_head fun c hc => ?_
    rw [List.head?_append_of_ne_nil _ (by simpa using h.nonempty)] at hc
    exact h.gapless c (List.mem_reverse.mp (List.mem_of_mem_head? hc))
  have hType : dropGap (' ' :: type) = type := by
    rw [dropGap_space]
    exact dropGap_of_head fun c hc => h.gapless c (List.mem_of_mem_head? hc)
  have hGapless : type.any isGap = false := by simpa using h.gapless
  unfold readCatch?
  rw [hLead]
  simp only [Option.bind_eq_bind, Option.bind_some, hReverse, Text.cutAt?_of_not_mem hBrace, hEnd, List.reverse_append,
    List.reverse_reverse, List.reverse_cons, List.reverse_nil, List.nil_append, List.singleton_append, hType, hGapless]
  simp [h.nonempty, readRange?_rangeText]

theorem not_mem_rangeText {start stop target : Address} :
    '#' ∉ rangeText start stop target ∧ '\n' ∉ rangeText start stop target := by
  have hHash (a : Address) : '#' ∉ (Address.label a).toList := fun h => absurd (Address.quiet_of_mem_label h) (by decide)
  have hBreak (a : Address) : '\n' ∉ (Address.label a).toList := (Address.line_label a).unbroken
  simp [rangeText, hHash, hBreak]

end Listing

/-- What makes the type of a handler say which exceptions it catches. -/
structure Descriptor.Catchable (d : Descriptor) : Prop where
  parses : parse d.text = .ok d
  gapless : ∀ c ∈ d.text.toList, Listing.isGap c = false
  clear : Listing.dropComment d.text.toList = d.text.toList
  unbroken : '\n' ∉ d.text.toList

/-- Most descriptors hold none of the characters that a line is cut at. -/
theorem Descriptor.catchable_of_quiet {d : Descriptor} (hParses : parse d.text = .ok d)
    (hQuiet : d.text.toList.all Listing.isQuiet = true) : d.Catchable := by
  have hAll := List.all_eq_true.mp hQuiet
  have hLine := Listing.Line.of_quiet hAll
  refine ⟨hParses, fun c hc => Bool.eq_false_iff.mpr fun hGap => ?_, hLine.clear, hLine.unbroken⟩
  have hBlank := (Listing.quiet_iff.mp (hAll c hc)).1
  rcases (by simpa [Listing.isGap] using hGap : c = ' ' ∨ c = '\t') with rfl | rfl <;> exact absurd hBlank (by decide)

namespace Handler

variable {h : Handler}

/-- How the type of a handler is written. -/
def typeText (h : Handler) : List Char := ((h.type.map Descriptor.text).getD "all").toList

theorem typeWord (hType : ∀ d ∈ h.type, d.Catchable) : Listing.TypeWord h.typeText := by
  unfold typeText
  cases hSome : h.type with
  | none =>
      have hAll : "all".toList.all (fun c => !Listing.isGap c) = true := by decide
      exact ⟨by decide, by simpa using hAll⟩
  | some d =>
      have hd := hType d hSome
      refine ⟨fun hEmpty => ?_, hd.gapless⟩
      have hText : d.text = "" := String.toList_eq_nil_iff.mp hEmpty
      have hParses := hd.parses
      rw [hText] at hParses
      cases hParses

/-- The text of the line of a handler. -/
def catchText (b : TryBlock) (h : Handler) : List Char :=
  ".catch ".toList ++ (h.typeText ++ (" \x7b".toList ++ Listing.rangeText b.start b.stop h.target))

theorem line_catchText (b : TryBlock) (hType : ∀ d ∈ h.type, d.Catchable) : Listing.Line (h.catchText b) := by
  have hLead : Listing.Lead ".catch ".toList := ⟨⟨_, _, rfl, by decide⟩, by decide, by decide, by decide⟩
  have hText : Listing.dropComment h.typeText = h.typeText ∧ '\n' ∉ h.typeText := by
    unfold typeText
    cases hSome : h.type with
    | none => exact ⟨by decide, by decide⟩
    | some d => exact ⟨(hType d hSome).clear, (hType d hSome).unbroken⟩
  have hTarget : (Address.label h.target).toList ≠ [] := by simp [Address.toList_label]
  refine hLead.line (by simp) (fun c hc => ?_) (Listing.dropCommentFrom_append hText.1 ?_) ?_
  · have hSplit : h.typeText ++ (" \x7b".toList ++ Listing.rangeText b.start b.stop h.target) =
        (h.typeText ++ (" \x7b".toList ++ ((Address.label b.start).toList ++ (" .. ".toList ++
          ((Address.label b.stop).toList ++ "\x7d ".toList))))) ++ (Address.label h.target).toList := by
      simp [Listing.rangeText]
    rw [hSplit, List.getLast?_append_of_ne_nil _ hTarget] at hc
    exact (Listing.quiet_iff.mp (Address.quiet_of_mem_label (List.mem_of_mem_getLast? hc))).1
  · exact Listing.dropCommentFrom_eq_self (by simp [Listing.not_mem_rangeText.1]) _
  · simp [hText.2, Listing.not_mem_rangeText.2]

/-- The line of a handler as it has been read. -/
def catchLine (b : TryBlock) (h : Handler) : Listing.CatchLine :=
  ⟨h.type, b.start.labelName, b.stop.labelName, h.target.labelName⟩

theorem addCatch_catchText (b : TryBlock) (hType : ∀ d ∈ h.type, d.Catchable) (m : Listing.OpenMethod) (k : Nat) :
    m.addCatch k (h.catchText b) = .ok { m with catches := h.catchLine b :: m.catches } := by
  unfold Listing.OpenMethod.addCatch catchText
  rw [Listing.readCatch?_catch (typeWord hType)]
  unfold typeText catchLine
  cases hSome : h.type with
  | none => rfl
  | some d =>
      have hParses := (hType d hSome).parses
      have hOther : ((some d).map Descriptor.text).getD "all" ≠ "all" := fun hAll => by
        have hText : d.text = "all" := hAll
        rw [hText] at hParses
        cases hParses
      simp only [String.toList_inj, hOther, if_false, String.ofList_toList]
      simp [hParses, Except.mapError, bind, Except.bind, pure, Except.pure]

end Handler

end Dalvik
