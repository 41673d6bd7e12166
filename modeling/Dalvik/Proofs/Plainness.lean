import Dalvik.Proofs.Decoding
import Dalvik.Proofs.Refitting
import Dalvik.Proofs.Restoring

/-!
Names that can be written as they are. What passes find out about names has been computed and was on no line before, so
that nothing but its own characters can keep it apart from what it is written between. A name is plain if it has the form
of a name and none of its characters means anything on a line, but for the brackets that array types begin with.
-/

namespace Dalvik

open Listing (Word)

namespace Listing

/-- A character of which no scanner of a line takes notice, or the bracket that an array type begins with. -/
def isSimple (c : Char) : Bool := isQuiet c || c = '['

variable {c : Char} {s : List Char}

theorem simple_of_quiet (h : isQuiet c = true) : isSimple c = true := by simp [isSimple, h]

theorem not_isBlank_of_simple (h : isSimple c = true) : Text.isBlank c = false := by
  rcases Bool.or_eq_true_iff.mp h with hQuiet | hBracket
  · exact (quiet_iff.mp hQuiet).1
  · exact of_decide_eq_true hBracket ▸ by decide

/-- Simple characters have no commas and no quotes among them. A bracket stays open, but nothing follows it. -/
theorem isSome_pass?_of_simple (h : ∀ c ∈ s, isSimple c = true) (depth : Int) : (pass? .outside depth s).isSome := by
  induction s generalizing depth with
  | nil => rfl
  | cons c s ih =>
      have hNe {d : Char} (hd : isSimple d = false) : c ≠ d := fun hc => by simp [hc ▸ h c (.head _)] at hd
      have hNext : Scan.next .outside c = .outside := if_neg (not_or_intro (hNe (by decide)) (hNe (by decide)))
      rw [pass?, if_pos rfl, if_neg (fun hCut => hNe (by decide) hCut.1), hNext]
      exact ih (fun d hd => h d (.tail _ hd)) _

theorem word_of_simple (hSome : s ≠ []) (h : ∀ c ∈ s, isSimple c = true) : Word s where
  tight := ⟨fun c hc => not_isBlank_of_simple (h c (List.mem_of_mem_head? hc)),
    fun c hc => not_isBlank_of_simple (h c (List.mem_of_mem_getLast? hc))⟩
  clear := dropCommentFrom_eq_self (fun hMem => absurd (h _ hMem) (by decide)) _
  unbroken hMem := absurd (h _ hMem) (by decide)
  nonempty := hSome
  passes := isSome_pass?_of_simple h 0

end Listing

namespace Descriptor

/-- The text is that of a type, and its characters are simple. -/
structure Plain (d : Descriptor) : Prop where
  isType : IsType d.text.toList
  simple : ∀ c ∈ d.text.toList, Listing.isSimple c = true

variable {d : Descriptor}

theorem spells_of_parse (h : parse d.text = .ok d) (hSimple : ∀ c ∈ d.text.toList, Listing.isSimple c = true) :
    Spells Listing.readType d d.text := by
  refine Listing.spells_readType (fun hSome => Listing.word_of_simple hSome hSimple) ?_
  rw [Listing.readType, String.ofList_toList, h]
  rfl

/-- The type with a binary name of quiet characters is plain, if the name could not end before its own end. -/
theorem plain_ofBinaryName {name : String} (hQuiet : name.toList.all Listing.isQuiet = true) (hEnd : ';' ∉ name.toList) :
    (ofBinaryName name).Plain := by
  have hInside : ∀ c ∈ substitute '.' '/' name.toList, Listing.isQuiet c = true ∧ c ≠ ';' := by
    intro c hc
    obtain ⟨d, hd, rfl⟩ := List.mem_map.mp hc
    split
    · decide
    · exact ⟨List.all_eq_true.mp hQuiet d hd, fun hSame => hEnd (hSame ▸ hd)⟩
  have hClass : (substitute '.' '/' name.toList).head? ≠ some '[' := fun hHead =>
    absurd (hInside '[' (List.mem_of_mem_head? hHead)).1 (by decide)
  have hText : (ofBinaryName name).text.toList = 'L' :: (substitute '.' '/' name.toList ++ [';']) := by
    rw [ofBinaryName, if_neg hClass, String.toList_ofList, List.cons_append]
  refine ⟨hText ▸ ⟨0, _, rfl, .inr ⟨_, fun hMem => (hInside ';' hMem).2 rfl, rfl⟩⟩, fun c hc => ?_⟩
  rw [hText] at hc
  rcases List.mem_cons.mp hc with rfl | hc
  · decide
  rcases List.mem_append.mp hc with hName | hEnd
  · exact Listing.simple_of_quiet (hInside c hName).1
  · exact List.mem_singleton.mp hEnd ▸ by decide

end Descriptor

namespace MethodReference

/-- The parts of a reference can be told from each other, and the characters are simple. -/
structure Plain (m : MethodReference) : Prop extends m.Readable where
  simple : ∀ c ∈ m.text.toList, Listing.isSimple c = true

variable {m : MethodReference}

theorem plain_of_parse (h : parse m.text = .ok m) (hSimple : m.text.toList.all Listing.isSimple = true) : m.Plain :=
  ⟨(parse_eq_ok_iff_readable.mp h).2, List.all_eq_true.mp hSimple⟩

namespace Plain

theorem spells (h : m.Plain) : Spells Listing.readMethod m m.text where
  toWord := by
    refine Listing.word_of_simple (fun hNone => ?_) h.simple
    simp [toList_text] at hNone
  reads := by
    rw [Listing.readMethod, String.ofList_toList, parse_eq_ok_iff_readable.mpr ⟨rfl, h.toReadable⟩]
    rfl

theorem spells_definer (h : m.Plain) : Spells Listing.readType m.definer m.definer.text :=
  Descriptor.spells_of_parse h.definer fun c hc => h.simple c (by simp [toList_text, hc])

theorem spells_param (h : m.Plain) {d : Descriptor} (hd : d ∈ m.params) : Spells Listing.readType d d.text := by
  refine Descriptor.spells_of_parse (h.params d hd).1 fun c hc => h.simple c ?_
  have hAmong : ∃ e ∈ m.params, c ∈ e.text.toList := ⟨d, hd, hc⟩
  simp [toList_text, hAmong]

end Plain

end MethodReference

/-- The methods of boxes are plain. -/
theorem Descriptor.plain_of_boxing? {d : Descriptor} {box : Boxing} (h : d.boxing? = some box) :
    (⟨box.type, box.getter, [], d⟩ : MethodReference).Plain ∧
      (⟨box.type, "valueOf", [d], box.type⟩ : MethodReference).Plain := by
  unfold boxing? at h
  repeat' split at h
  all_goals cases h
  all_goals
    subst ‹d = _›
    exact ⟨MethodReference.plain_of_parse (by decide +kernel) (by decide +kernel),
      MethodReference.plain_of_parse (by decide +kernel) (by decide +kernel)⟩

namespace Literal

/-- The literals that are read from their own texts without having been read before, up to floating point values. -/
def Plain : Literal → Prop
  | type d => d.isReference = true ∧ d.Plain
  | long v => v ≠ Int64.minValue
  | _ => True

theorem Plain.spells_type {d : Descriptor} (h : (type d).Plain) : Spells Listing.readLiteral (.type d) d.text where
  toWord := by
    obtain ⟨c, t, hCons, _⟩ := h.2.isType.exists_cons
    exact Listing.word_of_simple (by simp [hCons]) h.2.simple
  reads := by
    have hHead : d.text.toList.head? = some 'L' ∨ d.text.toList.head? = some '[' := by
      simpa [Descriptor.isReference, Descriptor.isArray, or_comm] using h.1
    have hOther {s : List Char} (hClass : s.head? ≠ some 'L') (hArray : s.head? ≠ some '[') : d.text.toList ≠ s := by
      rintro rfl
      exact hHead.elim hClass hArray
    have hQuoted {q : Char} (hClass : q ≠ 'L') (hArray : q ≠ '[') : Text.enclosed? q q d.text.toList = none := by
      obtain ⟨c, t, hCons, _⟩ := h.2.isType.exists_cons
      have hFirst : q ≠ c := by
        rintro rfl
        simp [hCons, hClass, hArray] at hHead
      simp [Text.enclosed?, Text.dropLead?, hCons, hFirst]
    rw [Listing.readLiteral, read, if_neg (hOther (by decide) (by decide)), if_neg (hOther (by decide) (by decide)),
      if_neg (hOther (by decide) (by decide)), hQuoted (by decide) (by decide), hQuoted (by decide) (by decide),
      if_pos hHead, String.ofList_toList, (Descriptor.parse_text_iff.mpr h.2.isType).1]
    rfl

end Literal

/-- What is found out can be written. -/
def Finding.Plain : Finding → Prop
  | value v => v.Plain
  | call _ target => target.Plain

end Dalvik
