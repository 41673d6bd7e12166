import Dalvik.Proofs.Naming
import Dalvik.Proofs.Spelling

/-!
Instructions that have been read from lines. Their types and fields were operands once, so that they can be operands
again. Nothing is asked of the kinds of instructions that passes bring, nor of data with which an array is filled.
-/

namespace Dalvik

open Listing (Word)

theorem eq_ok_of_mapError {α ε ε' : Type} {r : Except ε α} {f : ε → ε'} {v : α} (h : r.mapError f = .ok v) : r = .ok v := by
  cases r with
  | ok u => exact congrArg Except.ok (Except.ok.inj h)
  | error e => cases h

namespace Text

theorem dropTail?_eq_append {tail s rest : List Char} (h : dropTail? tail s = some rest) : s = rest ++ tail := by
  unfold dropTail? at h
  split at h
  · rename_i hTail
    obtain ⟨t, rfl⟩ := List.isSuffixOf_iff_suffix.mp hTail
    simpa using h
  · cases h

theorem cutWhere?_eq_append {p : Char → Bool} {s before after : List Char} (h : cutWhere? p s = some (before, after)) :
    ∃ c, p c = true ∧ s = before ++ c :: after := by
  induction s generalizing before with
  | nil => cases h
  | cons c s ih =>
      rw [cutWhere?] at h
      split at h
      · rename_i hc
        obtain ⟨rfl, rfl⟩ := Prod.mk.inj (Option.some.inj h)
        exact ⟨c, hc, rfl⟩
      · obtain ⟨⟨x, y⟩, hCut, hSame⟩ := Option.map_eq_some_iff.mp h
        obtain ⟨rfl, rfl⟩ := Prod.mk.inj hSame
        obtain ⟨d, hd, rfl⟩ := ih hCut
        exact ⟨d, hd, rfl⟩

end Text

/-- A field is written as the text that it was read from. -/
theorem FieldReference.text_of_parse {s : String} {f : FieldReference} (h : parse s = .ok f) : f.text = s := by
  unfold parse at h
  split at h
  · rename_i hRead
    rw [← Except.ok.inj h]
    obtain ⟨⟨definer, member⟩, hArrow, hRead⟩ := Option.bind_eq_some_iff.mp hRead
    obtain ⟨⟨name, type⟩, hColon, hRead⟩ := Option.bind_eq_some_iff.mp hRead
    obtain ⟨d, hDefiner, hRead⟩ := Option.bind_eq_some_iff.mp hRead
    obtain ⟨t, hType, hSame⟩ := Option.bind_eq_some_iff.mp hRead
    rw [← Option.some.inj hSame]
    refine String.toList_inj.mp ?_
    rw [Text.cutAt?_eq_append hArrow, Text.cutAt?_eq_append hColon]
    simp [text, Descriptor.text_of_read? hDefiner, Descriptor.text_of_read? hType]
  · cases h

namespace Instruction

/-- The types and fields of an instruction can be written, if no pass brings it. -/
def Phrased {τ : Type} : Instruction τ → Prop
  | newInstance _ d | instanceOf _ _ d | newArray _ _ d => Spells Listing.readType d d.text
  | fieldGet _ _ f | fieldPut _ _ f => Spells Listing.readField f f.text
  | binary _ type _ _ (.literal _) => type = .int
  | _ => True

variable {τ υ : Type} {i : Instruction τ}

theorem Phrased.mapTargets (h : i.Phrased) (f : τ → υ) : (i.mapTargets f).Phrased := by
  cases i with
  | binary op type dst lhs rhs => cases rhs <;> exact h
  | _ => exact h

theorem Phrased.mapRegisters (h : i.Phrased) (f : Register → Register) : (i.mapRegisters f).Phrased := by
  cases i with
  | binary op type dst lhs rhs => cases rhs <;> exact h
  | _ => exact h

end Instruction

namespace Listing

variable {α : Type} {locals : Nat} {name : String} {ops : List (List Char)} {i : Instruction String}

theorem spells_readType {s : List Char} (hWord : s ≠ [] → Word s) {d : Descriptor} (h : readType s = .ok d) :
    Spells readType d d.text := by
  have hText := Descriptor.text_of_parse (eq_ok_of_mapError h)
  have hChars : d.text.toList = s := by rw [hText, String.toList_ofList]
  refine ⟨?_, by rwa [hChars]⟩
  rw [hChars]
  refine hWord ?_
  rintro rfl
  cases h

theorem spells_readField {s : List Char} (hWord : s ≠ [] → Word s) {f : FieldReference} (h : readField s = .ok f) :
    Spells readField f f.text := by
  have hText := FieldReference.text_of_parse (eq_ok_of_mapError h)
  have hChars : f.text.toList = s := by rw [hText, String.toList_ofList]
  refine ⟨?_, by rwa [hChars]⟩
  rw [hChars]
  refine hWord ?_
  rintro rfl
  cases h

theorem oneOperand_eq_ok {read : List Char → Except Complaint α} {v : α} :
    oneOperand name ops read = .ok v ↔ ∃ a, ops = [a] ∧ read a = .ok v := by
  unfold oneOperand
  split <;> simp_all

theorem twoOperands_eq_ok {read : List Char → List Char → Except Complaint α} {v : α} :
    twoOperands name ops read = .ok v ↔ ∃ a b, ops = [a, b] ∧ read a b = .ok v := by
  unfold twoOperands
  split <;> simp_all

theorem threeOperands_eq_ok {read : List Char → List Char → List Char → Except Complaint α} {v : α} :
    threeOperands name ops read = .ok v ↔ ∃ a b c, ops = [a, b, c] ∧ read a b c = .ok v := by
  unfold threeOperands
  split <;> simp_all

/-- The names of instructions with types or fields that no pass brings. -/
def typed : List String := ["new-instance", "instance-of", "new-array", "iget", "iput", "sget", "sput"]

/-- A literal is an operand of integers only. -/
theorem readBinary_cases (h : readBinary locals name ops = .ok i) :
    ∃ op type dst lhs rhs, i = .binary op type dst lhs rhs ∧ ∀ v, rhs = .literal v → type = .int := by
  unfold readBinary at h
  split at h
  dsimp only at h
  split at h
  · cases h
  split at h
  · obtain ⟨_, _, _, -, _, -, _, -, _, -, h⟩ := by simpa only [threeOperands_eq_ok, except_bind_eq_ok] using h
    cases h
    exact ⟨_, _, _, _, _, rfl, nofun⟩
  split at h
  · obtain ⟨_, _, -, _, -, _, -, h⟩ := by simpa only [twoOperands_eq_ok, except_bind_eq_ok] using h
    cases h
    exact ⟨_, _, _, _, _, rfl, nofun⟩
  split at h
  · rename_i hForm
    obtain ⟨_, _, _, -, h⟩ := threeOperands_eq_ok.mp h
    split at h
    · cases h
    · obtain ⟨_, -, _, -, h⟩ := by simpa only [except_bind_eq_ok] using h
      cases h
      exact ⟨_, _, _, _, _, rfl, fun _ _ => hForm.2⟩
  · cases h

/-- What an instruction is whose name has parts: a call, a conditional jump, or one that computes. -/
theorem readFamily_cases (h : readFamily locals name ops = .ok i) :
    (∃ a b kind m args, ops = [a, b] ∧ readMethod b = .ok m ∧ i = .invoke kind m args) ∨
      (∃ c lhs rhs target, i = .branch c lhs rhs target) ∨ (∃ kind dst lhs rhs, i = .compare kind dst lhs rhs) ∨
        (∃ op dst src, i = .unary op dst src) ∨
          ∃ op type dst lhs rhs, i = .binary op type dst lhs rhs ∧ ∀ v, rhs = .literal v → type = .int := by
  unfold readFamily at h
  split at h
  · obtain ⟨a, b, hOps, h⟩ := twoOperands_eq_ok.mp h
    split at h
    · cases h
    · obtain ⟨_, -, _, hRead, h⟩ := by simpa only [except_bind_eq_ok] using h
      cases h
      exact .inl ⟨_, _, _, _, _, hOps, hRead, rfl⟩
  split at h
  · unfold readBranch at h
    split at h
    · obtain ⟨_, _, _, -, _, -, _, -, _, -, h⟩ := by simpa only [threeOperands_eq_ok, except_bind_eq_ok] using h
      cases h
      exact .inr (.inl ⟨_, _, _, _, rfl⟩)
    split at h
    · cases h
    · obtain ⟨_, _, -, _, -, _, -, h⟩ := by simpa only [twoOperands_eq_ok, except_bind_eq_ok] using h
      cases h
      exact .inr (.inl ⟨_, _, _, _, rfl⟩)
  split at h
  · obtain ⟨_, _, _, -, _, -, _, -, _, -, h⟩ := by simpa only [threeOperands_eq_ok, except_bind_eq_ok] using h
    cases h
    exact .inr (.inr (.inl ⟨_, _, _, _, rfl⟩))
  split at h
  · obtain ⟨_, _, -, _, -, _, -, h⟩ := by simpa only [twoOperands_eq_ok, except_bind_eq_ok] using h
    cases h
    exact .inr (.inr (.inr (.inl ⟨_, _, _, rfl⟩)))
  · exact .inr (.inr (.inr (.inr (readBinary_cases h))))

theorem readFamily_phrased (h : readFamily locals name ops = .ok i) : i.Phrased := by
  obtain ⟨_, _, _, _, _, -, -, rfl⟩ | ⟨_, _, _, _, rfl⟩ | ⟨_, _, _, _, rfl⟩ | ⟨_, _, _, rfl⟩ |
    ⟨_, _, _, _, rhs, rfl, hLiteral⟩ := readFamily_cases h
  · trivial
  · trivial
  · trivial
  · trivial
  · cases rhs with
    | register r => trivial
    | literal v => exact hLiteral v rfl

/-- What is read is phrased, if the operands from which types and fields are read are words. -/
theorem readInstruction_phrased (hOps : name ∈ typed → ∀ t ∈ ops, t ≠ [] → Word t)
    (h : readInstruction locals name ops = .ok i) : i.Phrased := by
  unfold readInstruction at h
  split at h
  all_goals try simp only [oneOperand_eq_ok, twoOperands_eq_ok, threeOperands_eq_ok, except_bind_eq_ok] at h
  all_goals first
    -- nothing is asked of most instructions, which have up to three operands
    | (cases h; trivial)
    | (obtain ⟨_, -, _, -, h⟩ := h; cases h; trivial)
    | (obtain ⟨_, _, -, _, -, _, -, h⟩ := h; cases h; trivial)
    | (obtain ⟨_, _, _, -, _, -, _, -, _, -, h⟩ := h; cases h; trivial)
    -- the last operand is a type or a field
    | (obtain ⟨_, b, rfl, _, -, _, hRead, h⟩ := h
       cases h
       have hWord := hOps (by decide) b (by simp)
       first | exact spells_readType hWord hRead | exact spells_readField hWord hRead)
    | (obtain ⟨_, _, c, rfl, _, -, _, -, _, hRead, h⟩ := h
       cases h
       have hWord := hOps (by decide) c (by simp)
       first | exact spells_readType hWord hRead | exact spells_readField hWord hRead)
    | exact readFamily_phrased h
    -- the data of an array stand in brackets
    | (obtain ⟨_, _, -, h⟩ := h
       split at h
       · cases h
       · obtain ⟨_, -, _, -, h⟩ := by simpa only [except_bind_eq_ok] using h
         cases h
         trivial)

/-- Whether a name that the reader knows is written as it is, but for an ending, and without quotes. What may stand after
a slash is passed over for other names only. -/
def isPlain (name : String) : Bool :=
  ("" :: widthEndings).all fun e => !startsWithAny sized (name.toList ++ e.toList) &&
    (name.toList ++ e.toList).all fun c => c ≠ '"' ∧ c ≠ '\''

theorem isPlain_of_mem_typed (h : name ∈ typed) : isPlain name = true :=
  List.all_eq_true.mp (by decide +kernel : (typed.all isPlain) = true) name h

theorem ne_quote_of_canonical {s : List Char} (hName : isPlain name = true) (h : canonical s = name.toList) :
    ∀ c ∈ s, c ≠ '"' ∧ c ≠ '\'' := by
  have hBase : ∃ e ∈ "" :: widthEndings, dropSize s = name.toList ++ e.toList := by
    unfold canonical dropWidth at h
    split at h
    · cases hEnd : widthEndings.findSome? fun e => Text.dropTail? e.toList (dropSize s) with
      | none => exact ⟨"", .head _, by simpa [hEnd] using h⟩
      | some r =>
          obtain ⟨e, he, hDrop⟩ := List.exists_of_findSome?_eq_some hEnd
          rw [hEnd, Option.getD_some] at h
          exact ⟨e, .tail _ he, h ▸ Text.dropTail?_eq_append hDrop⟩
    · exact ⟨"", .head _, by simpa using h⟩
  obtain ⟨e, he, hBase⟩ := hBase
  have hEach := List.all_eq_true.mp hName e he
  simp only [Bool.and_eq_true, Bool.not_eq_true', List.all_eq_true, decide_eq_true_eq] at hEach
  obtain ⟨hSized, hQuotes⟩ := hEach
  have hWhole : s = name.toList ++ e.toList := by
    unfold dropSize at hBase
    split at hBase
    · split at hBase
      · rename_i hStarts
        rw [hBase, hSized] at hStarts
        cases hStarts
      · exact hBase
    · exact hBase
  exact hWhole ▸ hQuotes

/-- An operand as it stands on its line. The line as a whole holds no comment, but if quotes before the operand are open,
the operand by itself may. -/
structure Piece (s : List Char) : Prop where
  tight : Text.Tight s
  unbroken : '\n' ∉ s
  nonempty : s ≠ []
  passes : (pass? .outside 0 s).isSome

theorem Piece.word {s : List Char} (h : Piece s) (hClear : dropComment s = s) : Word s :=
  { h with clear := hClear }

theorem piece_of_word {s : List Char} (h : Word s) : Piece s := { h with }

theorem operands_sublist (s : List Char) : (operands s).Sublist (piecesFrom .outside 0 [] s) := by
  unfold operands
  dsimp only
  split
  · exact List.nil_sublist _
  · exact List.Sublist.refl _

/-- The operands of a line are pieces, unless they are empty, and words if the line holds no comment. -/
theorem piece_of_mem_operands {s t : List Char} (hBreak : '\n' ∉ s) (ht : t ∈ operands s) (hSome : t ≠ []) :
    Piece t ∧ (dropComment s = s → Word t) := by
  have hPieces := (operands_sublist s).subset ht
  have hPiece : Piece t :=
    { tight := tight_of_mem_piecesFrom hPieces
      unbroken := fun hMem => hBreak ((mem_piecesFrom hPieces hMem).resolve_left List.not_mem_nil)
      nonempty := hSome
      passes := (separable_piecesFrom rfl).passes t hPieces }
  exact ⟨hPiece, fun hClear => hPiece.word (@dropComment_of_mem_piecesFrom 0 s .outside [] t rfl hClear hPieces)⟩

/-- An instruction is read from a name and operands, which are words if the name is plain. -/
theorem exists_of_readLine {line : List Char} (hClear : dropComment line = line) (hBreak : '\n' ∉ line)
    (h : readLine locals line = .ok i) :
    ∃ name ops, readInstruction locals name ops = .ok i ∧
      ∀ t ∈ ops, t ≠ [] → Piece t ∧ (isPlain name = true → Word t) := by
  unfold readLine at h
  cases hCut : Text.cutWhere? Text.isBlank line with
  | none =>
      rw [hCut] at h
      exact ⟨_, _, h, fun _ ht => by cases ht⟩
  | some cut =>
      obtain ⟨s, rest⟩ := cut
      rw [hCut] at h
      obtain ⟨c, hBlank, rfl⟩ := Text.cutWhere?_eq_append hCut
      refine ⟨_, _, h, fun t ht hSome => ?_⟩
      have hRestBreak : '\n' ∉ Text.trim rest := fun hMem =>
        hBreak (List.mem_append_right _ (.tail _ (Text.mem_of_mem_trim hMem)))
      obtain ⟨hPiece, hWord⟩ := piece_of_mem_operands hRestBreak ht hSome
      refine ⟨hPiece, fun hName => hWord (dropComment_trim ?_)⟩
      have hStart : ∀ d ∈ s ++ [c], d ≠ '"' ∧ d ≠ '\'' := by
        intro d hd
        rcases List.mem_append.mp hd with hs | hc
        · exact ne_quote_of_canonical hName String.toList_ofList.symm d hs
        · exact List.mem_singleton.mp hc ▸ ne_quote_of_isBlank hBlank
      have hWhole : dropComment (s ++ [c] ++ (rest ++ [])) = s ++ [c] ++ (rest ++ []) := by
        simpa only [List.append_nil, List.append_assoc, List.singleton_append] using hClear
      exact dropComment_infix hStart hWhole

/-- What is read from a line without a comment is phrased. -/
theorem readLine_phrased {line : List Char} (hClear : dropComment line = line) (hBreak : '\n' ∉ line)
    (h : readLine locals line = .ok i) : i.Phrased := by
  obtain ⟨name, ops, hRead, hOps⟩ := exists_of_readLine hClear hBreak h
  exact readInstruction_phrased (fun hName t ht hSome => (hOps t ht hSome).2 (isPlain_of_mem_typed hName)) hRead

end Listing

end Dalvik
