import Dalvik.Proofs.Phrasing
import Dalvik.Proofs.Spelling

/-!
Text in the lines of instructions. Whatever characters a string holds, its literal ends where it was closed: a line with
it is one line without a comment, its operands are cut beside it only, and the instruction is read back with the string.
-/

namespace Dalvik

open Listing (Words Closed)

namespace Instruction

variable {locals : Nat} {i : Instruction Address}

/-- The line of an instruction in a listing. -/
def listed (locals : Nat) (i : Instruction Address) : List Char := ("    " ++ i.text (Register.name locals)).toList

/-- The line of an instruction is taken as it is meant. It stands alone, a comment starts only after it, the operands
after its first word are the ones it was made of, and what it adds to a method is one given instruction. -/
structure Survives (locals : Nat) (i : Instruction Address) (j : Instruction String) : Prop where
  alone : ∀ rest, Text.lines (i.listed locals ++ '\n' :: rest) = i.listed locals :: Text.lines rest
  clear : Listing.dropComment (i.listed locals) = i.listed locals
  ends : ∀ rest, Listing.dropComment (i.listed locals ++ '#' :: rest) = i.listed locals
  cut : ∃ rest, Text.cutWhere? Text.isBlank (Text.trim (i.listed locals)) = some (i.opcode.toList, rest) ∧
    Listing.operands (Text.trim rest) = (i.operandTexts (Register.name locals)).map String.toList
  read : Listing.readLine locals (Text.trim (i.listed locals)) = .ok j
  added : ∀ (c : Listing.OpenClass) (m : Listing.OpenMethod) (number : Nat), m.locals = locals →
    ({ c with current := some m } : Listing.OpenClass).addLine (i.listed locals, number) =
      .ok { c with current := some { m with code := j :: m.code } }

/-- The row of the line. -/
abbrev row (locals : Nat) (i : Instruction Address) : Listing.Row := (4, (i.text (Register.name locals)).toList)

theorem listed_eq_chars (locals : Nat) (i : Instruction Address) : i.listed locals = (i.row locals).chars := by
  rw [listed, String.toList_append]
  rfl

theorem toList_text (h : i.operandTexts (Register.name locals) ≠ []) :
    (i.text (Register.name locals)).toList =
      i.opcode.toList ++ ' ' :: (Text.separated ", " (i.operandTexts (Register.name locals))).toList := by
  unfold text
  cases hTexts : i.operandTexts (Register.name locals) with
  | nil => exact absurd hTexts h
  | cons t ts => simp

/-- After operands that leave no quotes or brackets open, a scanner of comments is outside quotes. -/
theorem after_listed (hSome : i.operandTexts (Register.name locals) ≠ [])
    (hClosed : ∀ t ∈ i.operandTexts (Register.name locals), Closed t.toList) :
    Listing.Scan.after .outside (i.listed locals) = .outside := by
  have hOperands := Listing.Scan.after_eq
    (Listing.pass?_separated (show (1 : Int) ≠ 0 by decide) fun t ht => hClosed t ht 1 (by decide))
  have hLead := (lead_opcode i).outside
  have hIndent := Listing.after_replicate 4
  rw [listed_eq_chars, Listing.Row.chars, row, toList_text hSome]
  unfold Listing.Scan.after at *
  rw [List.foldl_append, hIndent, List.append_cons, List.foldl_append, hLead, hOperands]

/-- An instruction that is read from its line survives there, if its operands leave no quotes or brackets open. -/
theorem survives_of_closed (hLocals : locals < 0x10000) (hSpelled : i.Spelled locals)
    (hSome : i.operandTexts (Register.name locals) ≠ [])
    (hClosed : ∀ t ∈ i.operandTexts (Register.name locals), Closed t.toList) :
    i.Survives locals (i.mapTargets Address.labelName) := by
  have hTold := legible_of_spelled hLocals hSpelled
  have hClear : Listing.dropComment (i.listed locals) = i.listed locals := by
    rw [listed_eq_chars]
    exact Listing.Row.clear hTold.line
  have hTrim : Text.trim (i.listed locals) = (i.text (Register.name locals)).toList := by
    rw [listed_eq_chars]
    exact Listing.Row.trim_eq hTold.line
  refine ⟨fun rest => ?_, hClear, fun rest => ?_, ?_, hTrim ▸ hTold.reads, fun c m number hSame => ?_⟩
  · rw [listed_eq_chars]
    exact Listing.Row.lines_append hTold.line rest
  · rw [Listing.dropComment, Listing.dropCommentFrom_append_eq hClear, after_listed hSome hClosed]
    simp [Listing.dropCommentFrom]
  · have hBlank : ∀ c ∈ i.opcode.toList, Text.isBlank c = false := fun c hc =>
      (Listing.quiet_iff.mp (quiet_of_mem_opcode hc)).1
    refine ⟨(Text.separated ", " (i.operandTexts (Register.name locals))).toList, ?_, ?_⟩
    · rw [hTrim, toList_text hSome]
      exact Text.cutWhere?_append hBlank (by decide)
    · rw [hSpelled.words.line.tight.trim_eq, hSpelled.words.operands_eq]
  · subst hSame
    have hTakes := hTold.takes 4 c number
    rw [listed_eq_chars]
    simpa using hTakes

variable {r : Register}

theorem spelled_string (hr : r < locals + 0x10000) (s : String) : (const r (.string s)).Spelled locals :=
  ⟨by simpa [reads, writes?] using hr, Literal.spells_string s⟩

theorem closed_string (s : String) : Closed (Literal.string s).text.toList := Literal.closed_text _ (by simp [Literal.Unchecked])

theorem spelled_strings (hr : r < locals + 0x10000) (ss : List String) :
    (fillArray r (ss.map .string)).Spelled locals := by
  refine ⟨by simpa [reads, writes?] using hr, by simpa using fun s _ => Literal.spells_string s, fun depth hDepth => ?_⟩
  have hAll : ∀ t ∈ ((ss.map .string).map Literal.text).map String.toList,
      Listing.pass? .outside depth t = some (.outside, depth) := by
    have hLeast : 0 ≤ depth := by
      rcases List.mem_cons.mp hDepth with rfl | hDepth
      · decide
      · exact List.mem_singleton.mp hDepth ▸ by decide
    simpa using fun s _ => closed_string s depth hLeast
  exact ⟨fun t ht => by rw [hAll t ht]; rfl, List.pairwise_of_forall_mem_list fun t ht _ _ => hAll t ht⟩

/-- Every string survives in the line that loads it, and every list of strings in the line that fills an array with them:
each stands there between quotes, as an operand or an item by itself, and is read from there. -/
theorem strings_survive (hLocals : locals < 0x10000) (hr : r < locals + 0x10000) (s : String) (ss : List String) :
    ((const r (.string s)).Survives locals (.const r (.string s)) ∧
      (const r (.string s) : Instruction Address).operandTexts (Register.name locals) =
        [Register.name locals r, String.ofList (Text.quote s.toList)] ∧
      Literal.read (Text.quote s.toList) = .ok (.string s)) ∧
    ((fillArray r (ss.map .string)).Survives locals (.fillArray r (ss.map .string)) ∧
      (fillArray r (ss.map .string) : Instruction Address).operandTexts (Register.name locals) =
        [Register.name locals r, bracketed (ss.map fun s => String.ofList (Text.quote s.toList))] ∧
      Listing.items (Text.separated ", " (ss.map fun s => String.ofList (Text.quote s.toList))).toList =
        ss.map fun s => Text.quote s.toList) := by
  have hText : Literal.text ∘ Literal.string = fun s => String.ofList (Text.quote s.toList) := rfl
  have hQuote (s : String) : (Literal.string s).text.toList = Text.quote s.toList := String.toList_ofList
  refine ⟨⟨?_, rfl, ?_⟩, ?_, by rw [operandTexts, List.map_map, hText], ?_⟩
  · exact survives_of_closed hLocals (spelled_string hr s) (List.cons_ne_nil _ _)
      (List.forall_mem_cons.mpr ⟨Register.closed_name, List.forall_mem_singleton.mpr (closed_string s)⟩)
  · exact hQuote s ▸ eq_ok_of_mapError (Literal.spells_string s).reads
  · refine survives_of_closed hLocals (spelled_strings hr ss) (List.cons_ne_nil _ _) ?_
    refine List.forall_mem_cons.mpr ⟨Register.closed_name, List.forall_mem_singleton.mpr (Listing.closed_bracketed ?_)⟩
    simpa using fun s _ => closed_string s
  · have hWords : Words ((ss.map Literal.string).map Literal.text) :=
      Listing.words_of_closed (by simpa using fun s _ => ⟨(Literal.spells_string s).toWord, closed_string s⟩)
    have hItems := hWords.items_eq
    rw [List.map_map, hText] at hItems
    rw [hItems, List.map_map]
    exact List.map_congr_left fun s _ => hQuote s

/-- Strings with every character that a scanner of a line reacts to, one outside the basic plane, and a backslash before the
end. -/
theorem strings_survive_marks :
    let s := String.ofList ['"', '#', '\n', ',', ' ', '[', '\'', '\x7d', Char.ofNat 0x1F600, Char.ofNat 1, '\\', '\\']
    (1 < 0x10000 ∧ 2 < 1 + 0x10000) ∧ (const 2 (.string s)).Survives 1 (.const 2 (.string s)) ∧
      (fillArray 2 [.string s, .string "", .string "\\"]).Survives 1 (.fillArray 2 [.string s, .string "", .string "\\"]) :=
  have hSurvive := strings_survive (by decide) (by decide)
    (String.ofList ['"', '#', '\n', ',', ' ', '[', '\'', '\x7d', Char.ofNat 0x1F600, Char.ofNat 1, '\\', '\\'])
    [String.ofList ['"', '#', '\n', ',', ' ', '[', '\'', '\x7d', Char.ofNat 0x1F600, Char.ofNat 1, '\\', '\\'], "", "\\"]
  ⟨by decide, hSurvive.1.1, hSurvive.2.1⟩

end Instruction

end Dalvik
