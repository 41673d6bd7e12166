import Dalvik.Proofs.Assembling
import Dalvik.Proofs.Outlines
import Dalvik.Proofs.Spelling

/-!
Classes read, written and read again. What an instruction names has been an operand on a line and is written as it was
read, so that the listing of a class that has been read is read as the class itself. The exceptions are told one by one:
the least integer of 64 bits, comment signs that open quotes kept from being seen, a flag that only a name can tell, and
methods from before the class got its name.
-/

namespace Dalvik

open Listing (Word Closed Piece Separable)

/-- A reference is written as the text that it was read from. -/
theorem MethodReference.text_of_parse {s : String} {m : MethodReference} (h : parse s = .ok m) : m.text = s := by
  obtain ⟨definer, hArrow, hDefiner⟩ := exists_of_parse h
  refine String.toList_inj.mp ?_
  rw [Text.cutAt?_eq_append hArrow]
  simp [text, Descriptor.text_of_read? hDefiner]

namespace Literal

/-- A class constant is written as the text that it was read from. -/
theorem text_of_read {s : List Char} {d : Descriptor} (h : read s = .ok (type d)) : d.text.toList = s := by
  have hString (text : String) (body : List Char) : readString text body ≠ .ok (type d) := by
    unfold readString
    intro hRead
    split at hRead
    · cases hRead
    · split at hRead <;> cases hRead
  have hChar (text : String) (body : List Char) : readChar text body ≠ .ok (type d) := by
    unfold readChar
    intro hRead
    split at hRead <;> cases hRead
  have hSuffix (body : List Char) (c : Char) : ofSuffix? body c ≠ some (type d) := by
    unfold ofSuffix?
    repeat' split
    all_goals simp [Option.bind_eq_some_iff]
  have hNumber (text : String) : readNumber text s ≠ .ok (type d) := by
    unfold readNumber ofInteger?
    intro hRead
    repeat' split at hRead
    all_goals simp_all
  unfold read at h
  dsimp only at h
  repeat' split at h
  all_goals first
    | exact absurd h (hString _ _)
    | exact absurd h (hChar _ _)
    | exact absurd h (hNumber _)
    | cases h
  rename_i hParse
  rw [Descriptor.text_of_parse hParse, String.toList_ofList]

/-- A class constant has been an operand from which it was read. -/
def Copied : Literal → Prop
  | type d => Piece d.text.toList ∧ Listing.readLiteral d.text.toList = .ok (type d)
  | _ => True

/-- No comment begins in a class constant. -/
def Clear : Literal → Prop
  | type d => Listing.dropComment d.text.toList = d.text.toList
  | _ => True

/-- Whether a number is read from its own text. -/
def Restorable : Literal → Prop
  | long v => v ≠ Int64.minValue
  | float v => Floating.read? v.text.toList = some v
  | double v => Floating.read? v.text.toList = some v
  | _ => True

instance (v : Literal) : Decidable v.Clear := by
  rcases v with ⟨⟩ <;> dsimp only [Clear] <;> infer_instance

instance (v : Literal) : Decidable v.Restorable := by
  rcases v with ⟨⟩ <;> dsimp only [Restorable] <;> infer_instance

theorem Copied.spells {v : Literal} (h : v.Copied) (hClear : v.Clear) (hNumber : v.Restorable) :
    Spells Listing.readLiteral v v.text := by
  cases v with
  | int n => exact spells_int n
  | long n => exact spells_long hNumber
  | float x => exact spells_float hNumber
  | double x => exact spells_double hNumber
  | boolean b => exact spells_boolean b
  | char u => exact spells_char u
  | short n => exact spells_short n
  | byte n => exact spells_byte n
  | null => exact spells_null
  | string s => exact spells_string s
  | type d => exact ⟨h.1.word hClear, h.2⟩

/-- A literal that is not a class constant is written so that another one can stand after it. -/
theorem closed_text_of_ne_type {v : Literal} (h : ∀ d, v ≠ type d) : Closed v.text.toList := by
  by_cases hLeast : v = long Int64.minValue
  · subst hLeast
    exact Listing.closed_of_quiet (List.all_eq_true.mp (by decide +kernel))
  · refine closed_text v fun hUnchecked => ?_
    cases v with
    | long n => exact hLeast (congrArg long hUnchecked)
    | type d => exact h d rfl
    | _ => exact hUnchecked

end Literal

namespace Instruction

variable {τ υ : Type} {i : Instruction τ}

/-- The types, methods and elements of an instruction have been operands from which they were read. The names of
instructions with class constants or methods may have quotes, which keep comment signs in the operands from being seen. -/
def Copied : Instruction τ → Prop
  | const _ v => v.Copied
  | checkCast _ d => Spells Listing.readType d d.text
  | invoke _ m _ => Piece m.text.toList ∧ Listing.readMethod m.text.toList = .ok m
  | fillArray _ data =>
    (∀ v ∈ data, v.Copied ∧ v.Clear) ∧ ∀ depth ∈ [0, 1], Separable depth ((data.map Literal.text).map String.toList)
  | _ => True

theorem Copied.mapTargets (h : i.Copied) (f : τ → υ) : (i.mapTargets f).Copied := by
  cases i <;> exact h

theorem Copied.mapRegisters (h : i.Copied) (f : Register → Register) : (i.mapRegisters f).Copied := by
  cases i with
  | binary op type dst lhs rhs => cases rhs <;> exact h
  | _ => exact h

/-- Nothing in an instruction is kept from being read back: numbers are read from their own texts, and no comment begins
in a class constant or a method. -/
def Restorable : Instruction τ → Prop
  | const _ v => v.Clear ∧ v.Restorable
  | invoke _ m _ => Listing.dropComment m.text.toList = m.text.toList
  | fillArray _ data => ∀ v ∈ data, v.Restorable
  | _ => True

instance (i : Instruction τ) : Decidable i.Restorable := by
  rcases i with ⟨⟩ <;> dsimp only [Restorable] <;> infer_instance

/-- What has been read is read again, if nothing keeps it from that. -/
theorem Copied.spelled {i : Instruction Address} {locals : Nat} (h : i.Copied) (hPhrased : i.Phrased)
    (hRestorable : i.Restorable) (hRegisters : ∀ r ∈ i.reads ++ i.writes?.toList, r < locals + 0x10000) :
    i.Spelled locals := by
  refine ⟨hRegisters, ?_⟩
  cases i with
  | const dst v => exact Literal.Copied.spells h hRestorable.1 hRestorable.2
  | checkCast r d => exact h
  | invoke kind m args => exact ⟨h.1.word hRestorable, h.2⟩
  | fillArray array data =>
      exact ⟨fun v hv => (h.1 v hv).1.spells (h.1 v hv).2 (hRestorable v hv), h.2⟩
  | binary op type dst lhs rhs => cases rhs <;> exact hPhrased
  | _ => exact hPhrased

end Instruction

namespace Listing

variable {locals : Nat} {name : String} {ops : List (List Char)} {i : Instruction String}

theorem copied_of_readLiteral {s : List Char} {v : Literal} (hPiece : s ≠ [] → Piece s) (h : readLiteral s = .ok v) :
    v.Copied := by
  cases v with
  | type d =>
      have hText := Literal.text_of_read (eq_ok_of_mapError h)
      refine ⟨hText ▸ hPiece ?_, hText ▸ h⟩
      rintro rfl
      cases h
  | _ => trivial

/-- What follows an element that was followed by another one can follow it still when it is written. -/
theorem pass?_text_of_readLiteral {depth : Int} (hDepth : 0 ≤ depth) {s : List Char} {v : Literal}
    (h : readLiteral s = .ok v) (hPass : pass? .outside depth s = some (.outside, depth)) :
    pass? .outside depth v.text.toList = some (.outside, depth) := by
  cases v with
  | type d =>
      have hText : (Literal.type d).text.toList = s := Literal.text_of_read (eq_ok_of_mapError h)
      rwa [hText]
  | _ => exact Literal.closed_text_of_ne_type (by simp) depth hDepth

/-- The elements of an array are separate as they are written, if they were so as they were read. -/
theorem separable_of_mapM {depth : Int} (hDepth : 0 ≤ depth) {ts : List (List Char)} {vs : List Literal}
    (hSeparable : Separable depth ts) (h : ts.mapM readLiteral = .ok vs) :
    Separable depth ((vs.map Literal.text).map String.toList) := by
  have hEach := forall₂_of_mapM_eq_ok h
  have hPasses : ∀ v ∈ vs, (pass? .outside depth v.text.toList).isSome := fun v hv => by
    obtain ⟨t, ht, hRead⟩ := exists_of_forall₂ hEach.flip hv
    cases v with
    | type d =>
        have hText : (Literal.type d).text.toList = t := Literal.text_of_read (eq_ok_of_mapError hRead)
        rw [hText]
        exact hSeparable.passes t ht
    | _ =>
        rw [Literal.closed_text_of_ne_type (by simp) depth hDepth]
        rfl
  refine ⟨by simpa using hPasses, ?_⟩
  rw [List.pairwise_map, List.pairwise_map]
  exact pairwise_of_forall₂ hEach hSeparable.closes fun _ _ _ _ hRead _ hPass =>
    pass?_text_of_readLiteral hDepth hRead hPass

/-- The elements in brackets are separate, in the brackets and by themselves. -/
theorem separable_items {body : List Char} (hBrackets : (pass? .outside 0 ('[' :: (body ++ [']']))).isSome)
    {depth : Int} (hDepth : depth ∈ [0, 1]) : Separable depth (items body) := by
  have hOpen : pass? .outside 0 ['['] = some (.outside, 1) := by decide
  have hBody : (pass? .outside 1 body).isSome := by
    rw [← List.singleton_append, pass?_append, hOpen, Option.bind_some] at hBrackets
    exact isSome_pass?_of_append hBrackets
  have hPieces : (items body).Sublist (piecesFrom .outside 0 [] body) := List.filter_sublist.trans (operands_sublist body)
  have hAlone : Separable 0 (items body) := (separable_piecesFrom rfl).sublist hPieces
  have hWithin (t : List Char) (ht : t ∈ items body) : (pass? .outside 1 t).isSome :=
    @isSome_pass?_of_mem_piecesFrom 0 body .outside [] 1 t rfl hBody (hPieces.subset ht)
  rcases List.mem_cons.mp hDepth with rfl | hDepth
  · exact hAlone
  obtain rfl := List.mem_singleton.mp hDepth
  refine ⟨hWithin, hAlone.closes.imp_of_mem fun ht _ hPass => ?_⟩
  obtain ⟨q, hq⟩ := Option.isSome_iff_exists.mp (hWithin _ ht)
  rw [hq, @pass?_shift _ _ 1 _ _ _ hPass hq]
  rfl

/-- The elements of an array that has been read have been operands, and no comment begins in them. -/
theorem copied_of_elements {b body : List Char} {data : List Literal} (hWord : b ≠ [] → Word b)
    (hBrackets : Text.enclosed? '[' ']' b = some body) (h : (items body).mapM readLiteral = .ok data) :
    (∀ v ∈ data, v.Copied ∧ v.Clear) ∧ ∀ depth ∈ [0, 1], Separable depth ((data.map Literal.text).map String.toList) := by
  have hText : b = '[' :: (body ++ [']']) := by
    unfold Text.enclosed? at hBrackets
    obtain ⟨rest, hFirst, hLast⟩ := Option.bind_eq_some_iff.mp hBrackets
    rw [Text.dropLead?_eq_append hFirst, Text.dropTail?_eq_append hLast]
    rfl
  have hb := hWord (by simp [hText])
  subst hText
  refine ⟨fun v hv => ?_, fun depth hDepth => ?_⟩
  · obtain ⟨t, ht, hRead⟩ := exists_of_forall₂ (forall₂_of_mapM_eq_ok h).flip hv
    obtain ⟨hOperand, hSome⟩ := List.mem_filter.mp ht
    have hBreak : '\n' ∉ body := fun hMem => hb.unbroken (.tail _ (List.mem_append_left _ hMem))
    have hClear : dropComment body = body :=
      dropComment_infix (a := ['[']) (List.forall_mem_singleton.mpr (by decide)) hb.clear
    obtain ⟨hPiece, hPlain⟩ := piece_of_mem_operands hBreak hOperand (by simpa using hSome)
    refine ⟨copied_of_readLiteral (fun _ => hPiece) hRead, ?_⟩
    cases v with
    | type d =>
        have hSame : d.text.toList = t := Literal.text_of_read (eq_ok_of_mapError hRead)
        have hOwn := (hPlain hClear).clear
        rwa [← hSame] at hOwn
    | _ => trivial
  · have hNonneg : 0 ≤ depth := by
      rcases List.mem_cons.mp hDepth with rfl | hOne
      · exact Int.le_refl 0
      · obtain rfl := List.mem_singleton.mp hOne
        decide
    exact separable_of_mapM hNonneg (separable_items hb.passes hDepth) h

/-- Of the instructions whose names have parts, only calls hold more than registers, labels and numbers. -/
theorem readFamily_copied (hOps : ∀ t ∈ ops, t ≠ [] → Piece t) (h : readFamily locals name ops = .ok i) : i.Copied := by
  obtain ⟨_, b, _, method, _, rfl, hRead, rfl⟩ | ⟨_, _, _, _, rfl⟩ | ⟨_, _, _, _, rfl⟩ | ⟨_, _, _, rfl⟩ |
    ⟨_, _, _, _, _, rfl, -⟩ := readFamily_cases h
  · have hText : method.text.toList = b := by
      rw [MethodReference.text_of_parse (eq_ok_of_mapError hRead), String.toList_ofList]
    refine ⟨hText ▸ hOps b (by simp) ?_, hText ▸ hRead⟩
    rintro rfl
    cases hRead
  all_goals trivial

/-- What is read holds what its operands say. -/
theorem readInstruction_copied (hOps : ∀ t ∈ ops, t ≠ [] → Piece t ∧ (isPlain name = true → Word t))
    (h : readInstruction locals name ops = .ok i) : i.Copied := by
  unfold readInstruction at h
  split at h
  all_goals try simp only [oneOperand_eq_ok, twoOperands_eq_ok, threeOperands_eq_ok, except_bind_eq_ok] at h
  all_goals first
    -- most instructions, which have up to three operands, hold registers and labels or what is phrased anyway
    | (cases h; trivial)
    | (obtain ⟨_, -, _, -, h⟩ := h; cases h; trivial)
    | (obtain ⟨_, _, -, _, -, _, -, h⟩ := h; cases h; trivial)
    | (obtain ⟨_, _, _, -, _, -, _, -, _, -, h⟩ := h; cases h; trivial)
    -- the last operand is a literal or a type
    | (obtain ⟨_, b, rfl, _, -, _, hRead, h⟩ := h
       cases h
       first
         | exact copied_of_readLiteral (fun hSome => (hOps b (by simp) hSome).1) hRead
         | exact spells_readType (fun hSome => (hOps b (by simp) hSome).2 (by decide +kernel)) hRead)
    | exact readFamily_copied (fun t ht hSome => (hOps t ht hSome).1) h
    | (obtain ⟨_, b, rfl, h⟩ := h
       split at h
       · cases h
       · rename_i hBrackets
         obtain ⟨_, -, _, hRead, h⟩ := by simpa only [except_bind_eq_ok] using h
         cases h
         exact copied_of_elements (fun hSome => (hOps b (by simp) hSome).2 (by decide +kernel)) hBrackets hRead)

/-- What is read from a line without a comment holds what the line says. -/
theorem readLine_copied {line : List Char} (hClear : dropComment line = line) (hBreak : '\n' ∉ line)
    (h : readLine locals line = .ok i) : i.Copied := by
  obtain ⟨name, ops, hRead, hOps⟩ := exists_of_readLine hClear hBreak h
  exact readInstruction_copied hOps hRead

/-- A line of a body is one of the lines that the body has been cut from. -/
theorem mem_of_mem_bodiesFrom {body? : Option (List (List Char))} {lines b : List (List Char)} {l : List Char}
    (hb : b ∈ bodiesFrom body? lines) (hl : l ∈ b) : l ∈ lines ∨ ∃ body ∈ body?, l ∈ body := by
  induction lines generalizing body? with
  | nil =>
      cases body? with
      | none => cases hb
      | some body => exact .inr ⟨body, rfl, List.mem_singleton.mp hb ▸ hl⟩
  | cons line lines ih =>
      cases body? with
      | none =>
          rw [bodiesFrom] at hb
          split at hb
          · rcases ih hb with hRest | ⟨body, hBody, hMem⟩
            · exact .inl (.tail _ hRest)
            · obtain rfl := Option.some.inj hBody
              cases hMem
          · rcases ih hb with hRest | ⟨body, hBody, _⟩
            · exact .inl (.tail _ hRest)
            · cases hBody
      | some begun =>
          rw [bodiesFrom] at hb
          split at hb
          · rcases List.mem_cons.mp hb with rfl | hRest
            · exact .inr ⟨_, rfl, hl⟩
            rcases ih hRest with hRest | ⟨body, hBody, _⟩
            · exact .inl (.tail _ hRest)
            · cases hBody
          · rcases ih hb with hRest | ⟨body, hBody, hMem⟩
            · exact .inl (.tail _ hRest)
            obtain rfl := Option.some.inj hBody
            rcases List.mem_append.mp hMem with hOpen | hLine
            · exact .inr ⟨_, rfl, hOpen⟩
            · exact .inl (List.mem_singleton.mp hLine ▸ .head _)

/-- No comment and no end of a line is in a line of a body. -/
theorem clear_of_mem_bodies {listing : String} {body : List (List Char)} {l : List Char} (hBody : body ∈ bodies listing)
    (hl : l ∈ body) : dropComment l = l ∧ '\n' ∉ l := by
  rcases mem_of_mem_bodiesFrom hBody hl with hText | ⟨_, hNone, _⟩
  · obtain ⟨raw, hRaw, rfl⟩ := List.mem_map.mp (List.mem_filter.mp hText).1
    refine ⟨dropComment_trim dropCommentFrom_idem, fun hMem => ?_⟩
    exact Text.not_mem_of_mem_linesFrom (by simp) (List.fst_mem_of_mem_zipIdx hRaw)
      (mem_of_mem_dropCommentFrom (Text.mem_of_mem_trim hMem))
  · cases hNone

namespace Statement

/-- Every statement of a body has been read from one of its lines. -/
theorem exists_read?_of_readAll {count : Nat} {lines : List (List Char)} {sts : List Statement}
    (h : readAll count lines = sts.map some) {st : Statement} (hst : st ∈ sts) :
    ∃ n, ∃ l ∈ lines, read? n l = some st := by
  induction lines generalizing count sts with
  | nil =>
      obtain rfl := List.map_eq_nil_iff.mp h.symm
      cases hst
  | cons line lines ih =>
      obtain ⟨first, rest, rfl, hFirst, hRest⟩ := List.map_eq_cons_iff.mp h.symm
      rcases List.mem_cons.mp hst with rfl | hst
      · exact ⟨count, line, .head _, hFirst.symm⟩
      · obtain ⟨n, l, hl, hRead⟩ := ih hRest.symm hst
        exact ⟨n, l, .tail _ hl, hRead⟩

theorem readLine_of_read? {count : Nat} {line : List Char} {i : Instruction String}
    (h : read? count line = some (instruction i)) : readLine count line = .ok i := by
  unfold read? at h
  split at h
  · unfold readDirective? readHandler? at h
    repeat' split at h
    all_goals simp [Option.bind_eq_some_iff] at h
  · split at h
    · cases h
    · cases hRead : readLine count line with
      | error e =>
          rw [hRead] at h
          cases h
      | ok j =>
          rw [hRead] at h
          obtain rfl := Statement.instruction.inj (Option.some.inj h)
          rfl

end Statement

/-- The instructions of a method that is assembled from lines have been read from them. -/
theorem Assembles.copied {listing : String} {body : List (List Char)} {m : Method} (h : Assembles body m)
    (hBody : body ∈ bodies listing) : ∀ i ∈ m.code, i.Copied := by
  obtain ⟨hAll, hAssembled⟩ := h
  intro i hi
  rw [hAssembled.code] at hi
  obtain ⟨j, hj, rfl⟩ := List.mem_map.mp hi
  obtain ⟨st, hst, hInstruction⟩ := List.mem_filterMap.mp hj
  cases st with
  | instruction k =>
      obtain rfl := Option.some.inj hInstruction
      obtain ⟨n, l, hl, hRead⟩ := Statement.exists_read?_of_readAll hAll hst
      obtain ⟨hClear, hBreak⟩ := clear_of_mem_bodies hBody hl
      exact (readLine_copied hClear hBreak (Statement.readLine_of_read? hRead)).mapTargets _
  | _ => cases hInstruction

/-- A block of a method that is assembled has handlers. -/
theorem Assembled.handlers_ne_nil {sts : List Statement} {m : Method} (h : Assembled sts m) :
    ∀ b ∈ m.tries, b.handlers ≠ [] := by
  intro b hb hNone
  obtain ⟨c, hc, hExtent⟩ := h.bounds b hb
  have hOwn := h.handlers b.extent
  rw [TryBlock.within_of_mem h.distinct hb, hNone] at hOwn
  have hRanged : ((Statement.place sts c.start, Statement.place sts c.stop),
      (⟨c.type, Statement.place sts c.handler⟩ : Handler)) ∈ (Statement.ranged sts).filter fun e => e.1 = b.extent :=
    List.mem_filter.mpr ⟨List.mem_map_of_mem hc, decide_eq_true hExtent.symm⟩
  exact absurd (hOwn ▸ List.mem_map_of_mem hRanged) List.not_mem_nil

end Listing

namespace Method

/-- Nothing in a method is kept from being read back: it has the flag of constructors exactly if it is named so, and its
registers can be numbered in sixteen bits. -/
structure Restorable (m : Method) : Prop where
  named : m.flags.constructor = m.reference.isConstructor
  registers : m.registerCount ≤ 0x10000
  code : ∀ i ∈ m.code, i.Restorable

instance (m : Method) : Decidable m.Restorable :=
  decidable_of_iff (m.flags.constructor = m.reference.isConstructor ∧ m.registerCount ≤ 0x10000 ∧
    ∀ i ∈ m.code, i.Restorable) ⟨fun h => ⟨h.1, h.2.1, h.2.2⟩, fun h => ⟨h.named, h.registers, h.code⟩⟩

theorem Restorable.regrouped_eq {m : Method} (h : m.Restorable) {sts : List Listing.Statement}
    (hAssembled : Listing.Assembled sts m) : m.regrouped = m := by
  have hTries : Listing.OpenMethod.gather [] (m.tries.flatMap TryBlock.ranged) = [] ++ m.tries :=
    Listing.OpenMethod.gather_flatMap_ranged hAssembled.distinct hAssembled.handlers_ne_nil
  have hFlags : m.headerFlags = m.flags := by rw [headerFlags, ← h.named]
  rw [regrouped, hTries, hFlags]
  rfl

end Method

namespace ClassDefinition

/-- Nothing in a class is kept from being read back: no comment begins in its name, and its methods are its own. -/
structure Restorable (c : ClassDefinition) : Prop where
  clear : Listing.dropComment c.name.text.toList = c.name.text.toList
  methods : ∀ m ∈ c.methods, m.reference.definer = c.name ∧ m.Restorable

instance (c : ClassDefinition) : Decidable c.Restorable :=
  decidable_of_iff (Listing.dropComment c.name.text.toList = c.name.text.toList ∧
    ∀ m ∈ c.methods, m.reference.definer = c.name ∧ m.Restorable) ⟨fun h => ⟨h.1, h.2⟩, fun h => ⟨h.clear, h.methods⟩⟩

variable {text : String} {c : ClassDefinition}

/-- Every method that has been read is assembled from the lines of a body. -/
theorem exists_assembles_of_mem (hRead : read text = .ok c) {m : Method} (hm : m ∈ c.methods) :
    ∃ body ∈ Listing.bodies text, Listing.Assembles body m :=
  exists_of_forall₂ (assembles_of_read hRead).flip hm

theorem legible_of_restorable (hRead : read text = .ok c) (h : c.Restorable) : c.Legible := by
  obtain ⟨⟨hParses, hWord⟩, hOutlined⟩ := outlined_of_read hRead
  refine ⟨hParses, hWord, h.clear, fun m hm => ?_⟩
  obtain ⟨hDefiner, hRestorable⟩ := h.methods m hm
  obtain ⟨hOwn, hPhrased⟩ := hOutlined m hm
  obtain ⟨body, hBody, hAssembles⟩ := exists_assembles_of_mem hRead hm
  have hValid := (bounded_of_read hRead m hm).1
  refine ⟨⟨hOwn, fun i hi => Instruction.legible_of_spelled hOwn.locals ?_, hValid⟩, hDefiner⟩
  have hRegisters : ∀ r ∈ i.reads ++ i.writes?.toList, r < m.locals + 0x10000 := fun r hr =>
    calc
      r < m.registerCount := ((Method.validate_eq_ok_iff.mp hValid).1 i hi).registers r hr
      _ ≤ 0x10000 := hRestorable.registers
      _ ≤ m.locals + 0x10000 := Nat.le_add_left _ _
  exact (hAssembles.copied hBody i hi).spelled (hPhrased i hi) (hRestorable.code i hi) hRegisters

/-- A class that has been read is read from its own listing as itself, if nothing in it is kept from being read back. -/
theorem read_listing_of_read (hRead : read text = .ok c) (h : c.Restorable) : read c.listing = .ok c := by
  have hMethods : c.methods.map Method.regrouped = c.methods := by
    refine (List.map_congr_left fun m hm => ?_).trans (List.map_id _)
    obtain ⟨body, _, hAssembles⟩ := exists_assembles_of_mem hRead hm
    exact (h.methods m hm).2.regrouped_eq hAssembles.2
  rw [read_listing (legible_of_restorable hRead h), hMethods]

/-- Data of several kinds: an array of longs, a string with a comment sign and a quote in it, a constant with a size in its
name, a class constant, a call and a switch, under a handler. -/
def describedListing : String :=
  ".class Lb; # a comment\n" ++
  ".method public static m(I[J)V\n" ++
  ".locals 2\n" ++
  ".catch La; \x7b:a .. :b\x7d :b\n" ++
  ":a\n" ++
  "fill-array-data p1, [1L, 0xffL]\n" ++
  "const-string v0, \"a # 'b\"\n" ++
  "const/4 v1, -0x10\n" ++
  "const-class v0, [La;\n" ++
  "invoke-virtual \x7bv0\x7d, La;->x()V\n" ++
  "packed-switch p0, \x7b1 -> :a, 2 -> :b\x7d\n" ++
  ":b\n" ++
  "return-void\n" ++
  ".end method\n"

/-- The class of `describedListing`. -/
def describedClass : ClassDefinition where
  name := ⟨"Lb;"⟩
  methods := [{
    reference := ⟨⟨"Lb;"⟩, "m", [.int, .arrayOf .long], .void⟩
    flags := { pub := true, static := true }
    locals := 2
    code := [.fillArray 3 [.long 1, .long 255], .const 0 (.string "a # 'b"), .const 1 (.int (-16)),
      .const 0 (.type ⟨"[La;"⟩), .invoke .virtual ⟨⟨"La;"⟩, "x", [], .void⟩ [0], .switch 2 [(1, 0), (2, 16)], .returnVoid]
    tries := [⟨0, 16, [⟨some ⟨"La;"⟩, 16⟩]⟩] }]

theorem read_describedListing : read describedListing = .ok describedClass := by
  -- The characters of a long text cost the kernel much more than those of its lines.
  unfold read describedListing
  simp only [String.toList_append, -String.reduceAppend, -String.reduceToList]
  decide +kernel

theorem read_listing_of_read_describedClass : read describedListing = .ok describedClass ∧ describedClass.Restorable ∧
    read describedClass.listing = .ok describedClass := by
  have hRestorable : describedClass.Restorable := by decide +kernel
  exact ⟨read_describedListing, hRestorable, read_listing_of_read read_describedListing hRestorable⟩

/-- The bits of the least integer of 64 bits. -/
def leastListing : String :=
  ".class La;\n" ++
  ".method static a()V\n" ++
  ".locals 1\n" ++
  "const-wide v0, 0x8000000000000000L\n" ++
  "return-void\n" ++
  ".end method\n"

/-- The class of `leastListing`. -/
def leastClass : ClassDefinition where
  name := ⟨"La;"⟩
  methods := [{
    reference := ⟨⟨"La;"⟩, "a", [], .void⟩
    flags := { static := true }
    locals := 1
    code := [.const 0 (.long Int64.minValue), .returnVoid]
    tries := [] }]

/-- The least integer of 64 bits is read from its bits, and not from the number that is written for it. -/
theorem read_listing_leastClass : read leastListing = .ok leastClass ∧
    read leastClass.listing = .error (.listing "La;->a()V" 5 (.literal (.bad "-9223372036854775808L"))) := by
  constructor
  · unfold read leastListing
    simp only [String.toList_append, -String.reduceAppend, -String.reduceToList]
    decide +kernel
  · rw [read, toList_listing]
    decide +kernel

end ClassDefinition

end Dalvik
