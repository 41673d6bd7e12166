import Dalvik.Proofs.Literals
import Dalvik.Proofs.Rereading

/-!
Instructions as they are written and read. The line of an instruction is read as the instruction, if the literals, types
and members in it are read from their own texts, and its registers have numbers that can be written.
-/

namespace Dalvik

open Listing (Word Words Closed)

theorem Text.cutWhere?_append {p : Char → Bool} {a b : List Char} {c : Char} (ha : ∀ d ∈ a, p d = false) (hc : p c = true) :
    cutWhere? p (a ++ c :: b) = some (a, b) := by
  induction a with
  | nil => simp [cutWhere?, hc]
  | cons d a ih => simp [cutWhere?, ha d (.head _), ih fun e he => ha e (.tail _ he)]

theorem Text.cutWhere?_eq_none {p : Char → Bool} {s : List Char} (h : ∀ c ∈ s, p c = false) : cutWhere? p s = none := by
  induction s with
  | nil => rfl
  | cons c s ih => simp [cutWhere?, h c (.head _), ih fun d hd => h d (.tail _ hd)]

namespace Instruction

/-- What the line of an instruction needs to be read as the instruction. -/
def Spelled (locals : Nat) (i : Instruction Address) : Prop :=
  (∀ r ∈ i.reads ++ i.writes?.toList, r < locals + 0x10000) ∧
    match i with
    | const _ v => Spells Listing.readLiteral v v.text
    | newInstance _ d | checkCast _ d | instanceOf _ _ d | newArray _ _ d => Spells Listing.readType d d.text
    | fieldGet _ _ f | fieldPut _ _ f => Spells Listing.readField f f.text
    | invoke _ m _ => Spells Listing.readMethod m m.text
    | binary _ type _ _ (.literal _) => type = .int
    | fillArray _ data =>
      (∀ v ∈ data, Spells Listing.readLiteral v v.text) ∧
        ∀ depth ∈ [0, 1], Listing.Separable depth ((data.map Literal.text).map String.toList)
    | _ => True

variable {locals : Nat} {i : Instruction Address}

section Data

variable {vs ws : List Literal}

theorem words_literals (h : List.Forall₂ (fun v w => Spells Listing.readLiteral w v.text) vs ws)
    (hSeparable : Listing.Separable 0 ((vs.map Literal.text).map String.toList)) : Words (vs.map Literal.text) := by
  refine ⟨fun t ht => ?_, hSeparable⟩
  obtain ⟨v, hv, rfl⟩ := List.mem_map.mp ht
  obtain ⟨w, _, hw⟩ := exists_of_forall₂ h hv
  exact hw.toWord

/-- Literals in a list are read one by one. -/
theorem mapM_readLiteral (h : List.Forall₂ (fun v w => Spells Listing.readLiteral w v.text) vs ws)
    (hSeparable : Listing.Separable 0 ((vs.map Literal.text).map String.toList)) :
    (Listing.items (Text.separated ", " (vs.map Literal.text)).toList).mapM Listing.readLiteral = .ok ws := by
  rw [(words_literals h hSeparable).items_eq, List.map_map]
  exact mapM_of_forall₂ (List.forall₂_map_left_iff.mpr (h.imp fun _ _ hw => hw.reads))

end Data

theorem word_bracketed {ts : List String} (h : Words ts) (hInside : Listing.Separable 1 (ts.map String.toList)) :
    Word (bracketed ts).toList where
  toLine := by
    rw [Listing.toList_bracketed]
    exact h.line_around (.inr (.inr rfl)) (by decide)
  nonempty := by simp [Listing.toList_bracketed]
  passes := by
    have hOpen : Listing.pass? .outside 0 ['['] = some (.outside, 1) := by decide
    obtain ⟨p, hp⟩ := Option.isSome_iff_exists.mp (Listing.isSome_pass?_separated (by decide) hInside)
    rw [Listing.toList_bracketed, ← List.singleton_append, Listing.pass?_append, hOpen, Option.bind_some,
      Listing.pass?_append, hp, Option.bind_some]
    -- a closing bracket is no comma, wherever the scanner stands
    cases hEnd : Listing.pass? p.1 p.2 [']'] with
    | none => cases (Listing.pass?_singleton_eq_none hEnd).2.2
    | some q => rfl

/-- The operands of an instruction are cut where they have been put together. -/
theorem Spelled.words (h : i.Spelled locals) : Words (i.operandTexts (Register.name locals)) := by
  obtain ⟨_, hOperands⟩ := h
  have hName (r : Register) {ts : List String} (hRest : Words ts) : Words (Register.name locals r :: ts) :=
    .cons Register.word_name Register.closed_name hRest
  have hLast (r : Register) : Words [Register.name locals r] := .singleton Register.word_name
  have hLabel (a : Address) : Words [Address.label a] := .singleton (word_label a)
  cases i with
  | nop | returnVoid => exact .nil
  | moveResult r | moveException r | returnValue r | throw r => exact hLast r
  | move dst src | unary _ dst src => exact hName _ (hLast _)
  | arrayLength dst a => exact hName _ (hLast _)
  | compare _ dst lhs rhs => exact hName _ (hName _ (hLast _))
  | arrayGet r a k | arrayPut r a k => exact hName _ (hName _ (hLast _))
  | goto t => exact hLabel t
  | branch _ lhs rhs t =>
      cases rhs with
      | none => exact hName _ (hLabel t)
      | some rhs => exact hName _ (hName _ (hLabel t))
  | switch src cases =>
      refine hName _ (.singleton (Listing.word_braced fun t ht => ?_))
      obtain ⟨c, _, rfl⟩ := List.mem_map.mp ht
      exact ⟨word_caseText c, closed_caseText c⟩
  | binary _ _ dst lhs rhs =>
      cases rhs with
      | register r => exact hName _ (hName _ (hLast _))
      | literal v => exact hName _ (hName _ (.singleton (Text.word_toString v.toInt)))
  | const dst v => exact hName _ (.singleton hOperands.toWord)
  | newInstance r d | checkCast r d => exact hName _ (.singleton hOperands.toWord)
  | instanceOf dst src d | newArray dst src d => exact hName _ (hName _ (.singleton hOperands.toWord))
  | fillArray a data =>
      have hData := words_literals (List.forall₂_same.mpr hOperands.1) (hOperands.2 0 (by simp))
      exact hName _ (.singleton (word_bracketed hData (hOperands.2 1 (by simp))))
  | fieldGet r o f | fieldPut r o f =>
      cases o with
      | none => exact hName _ (.singleton hOperands.toWord)
      | some o => exact hName _ (hName _ (.singleton hOperands.toWord))
  | invoke kind m args =>
      refine .cons (Listing.word_braced ?_) (Listing.closed_braced ?_) (.singleton hOperands.toWord)
      all_goals
        intro t ht
        obtain ⟨r, _, rfl⟩ := List.mem_map.mp ht
      · exact ⟨Register.word_name, Register.closed_name⟩
      · exact Register.closed_name

/-- The name by which an instruction is known to the reader, whatever sizes and widths are told with it. -/
def known (i : Instruction Address) : String :=
  match i with
  | goto _ => "goto"
  | i => i.opcode

/-- A character as they stand in the names of instructions: a small letter, a digit, or one of the signs just before the
digits. -/
def isNameChar (c : Char) : Bool := (45 ≤ c.toNat && c.toNat ≤ 57) || (97 ≤ c.toNat && c.toNat ≤ 122)

theorem quiet_of_isNameChar {c : Char} (h : isNameChar c = true) : Listing.isQuiet c = true := by
  have hAll : ∀ n < 123, isNameChar (Char.ofNat n) = true → Listing.isQuiet (Char.ofNat n) = true := by decide +kernel
  have hSmall : c.toNat < 123 := by
    simp only [isNameChar, Bool.or_eq_true, Bool.and_eq_true, decide_eq_true_eq] at h
    omega
  rw [← Char.ofNat_toNat c] at h ⊢
  exact hAll c.toNat hSmall h

/-- What the name of an instruction needs to be read as a name. -/
def Named (opcode known : String) : Prop :=
  Listing.canonical opcode.toList = known.toList ∧ opcode.toList.head?.any (fun c => c ≠ '.' ∧ c ≠ ':') = true ∧
    opcode.toList.all isNameChar = true

instance (opcode known : String) : Decidable (Named opcode known) := inferInstanceAs (Decidable (_ ∧ _ ∧ _))

theorem named_opcode (i : Instruction Address) : Named i.opcode i.known := by
  cases i with
  | const _ v => cases v <;> (simp only [opcode, known, Literal.opcode]; decide +kernel)
  | branch c _ rhs _ => cases rhs <;> cases c <;> (simp only [opcode, known]; decide +kernel)
  | compare k _ _ _ => cases k <;> (simp only [opcode, known]; decide +kernel)
  | unary op _ _ => cases op <;> (simp only [opcode, known]; decide +kernel)
  | binary op type _ _ rhs => cases rhs <;> cases op <;> cases type <;> (simp only [opcode, known]; decide +kernel)
  | fieldGet _ o _ => cases o <;> (simp only [opcode, known]; decide +kernel)
  | fieldPut _ o _ => cases o <;> (simp only [opcode, known]; decide +kernel)
  | invoke k _ _ => cases k <;> (simp only [opcode, known]; decide +kernel)
  | _ => simp only [opcode, known]; decide +kernel

theorem quiet_of_mem_opcode {c : Char} (h : c ∈ i.opcode.toList) : Listing.isQuiet c = true :=
  quiet_of_isNameChar (List.all_eq_true.mp (named_opcode i).2.2 c h)

theorem exists_opcode_cons (i : Instruction Address) : ∃ c r, i.opcode.toList = c :: r ∧ c ≠ '.' ∧ c ≠ ':' := by
  obtain ⟨_, hFirst, _⟩ := named_opcode i
  cases hText : i.opcode.toList with
  | nil => simp [hText] at hFirst
  | cons c r => exact ⟨c, r, rfl, by simpa [hText] using hFirst⟩

/-! How the names of instructions with parts are read -/

section Families

open Listing

variable {ops : List (List Char)}

theorem readInstruction_branch (c : Comparison) :
    readInstruction locals ("if-" ++ c.keyword) ops = threeOperands ("if-" ++ c.keyword) ops fun x y z => do
      let lhs ← readRegister locals x
      let rhs ← readRegister locals y
      let target ← readLabel z
      return .branch c lhs (some rhs) target := by
  cases c <;> rfl

theorem readInstruction_branch_zero (c : Comparison) :
    readInstruction locals ("if-" ++ c.keyword ++ "z") ops = twoOperands ("if-" ++ c.keyword ++ "z") ops fun x y => do
      let lhs ← readRegister locals x
      let target ← readLabel y
      return .branch c lhs none target := by
  cases c <;> rfl

theorem readInstruction_compare (k : ThreeWay) :
    readInstruction locals k.keyword ops = threeOperands k.keyword ops fun a b c => do
      let dst ← readRegister locals a
      let lhs ← readRegister locals b
      let rhs ← readRegister locals c
      return .compare k dst lhs rhs := by
  cases k <;> rfl

theorem readInstruction_unary (op : UnaryOp) :
    readInstruction locals op.keyword ops = twoOperands op.keyword ops fun a b => do
      let dst ← readRegister locals a
      let src ← readRegister locals b
      return .unary op dst src := by
  cases op <;> rfl

theorem readInstruction_binary (op : BinaryOp) (type : NumberType) :
    readInstruction locals (op.keyword ++ "-" ++ type.keyword) ops =
      threeOperands (op.keyword ++ "-" ++ type.keyword) ops fun a b c => do
        let dst ← readRegister locals a
        let lhs ← readRegister locals b
        let rhs ← readRegister locals c
        return .binary op type dst lhs (.register rhs) := by
  cases op <;> cases type <;> rfl

theorem readInstruction_literal (op : BinaryOp) :
    readInstruction locals (op.keyword ++ "-" ++ NumberType.int.keyword ++ "/lit") ops =
      threeOperands (op.keyword ++ "-" ++ NumberType.int.keyword ++ "/lit") ops fun a b c =>
        match (Text.integer? c).bind Text.narrow32? with
        | none => .error (.literal (.bad (String.ofList c)))
        | some v => do
          let dst ← readRegister locals a
          let lhs ← readRegister locals b
          return .binary op .int dst lhs (.literal v) := by
  cases op <;> rfl

theorem readInstruction_invoke (kind : InvokeKind) :
    readInstruction locals ("invoke-" ++ kind.keyword) ops =
      twoOperands ("invoke-" ++ kind.keyword) ops fun x y => do
        let args ← readRegisters locals x
        let method ← readMethod y
        return .invoke kind method args := by
  cases kind <;> rfl

theorem readInstruction_const (v : Literal) :
    readInstruction locals v.opcode ops = twoOperands v.opcode ops fun a b => do
      return .const (← readRegister locals a) (← readLiteral b) := by
  cases v <;> rfl

end Families

/-- An instruction is read from its name and its operands. -/
theorem Spelled.readInstruction_eq (hLocals : locals < 0x10000) (h : i.Spelled locals) :
    Listing.readInstruction locals i.known ((i.operandTexts (Register.name locals)).map String.toList) =
      .ok (i.mapTargets Address.labelName) := by
  obtain ⟨hRegisters, hOperands⟩ := h
  have hReg (r : Register) (hr : r ∈ i.reads ++ i.writes?.toList) :
      Listing.readRegister locals (Register.name locals r).toList = .ok r :=
    Register.readRegister_name hLocals (hRegisters r hr)
  cases i with
  | nop | returnVoid => rfl
  | moveResult | moveException | returnValue | throw | move | arrayLength | arrayGet | arrayPut =>
      simp [reads, writes?] at hReg
      simp [known, opcode, operandTexts, Listing.readInstruction, Listing.oneOperand, Listing.twoOperands,
        Listing.threeOperands, hReg]
      rfl
  | goto t =>
      simp [known, operandTexts, Listing.readInstruction, Listing.oneOperand, readLabel_label]
      rfl
  | unary | compare =>
      simp [reads, writes?] at hReg
      simp [known, opcode, operandTexts, readInstruction_unary, readInstruction_compare, Listing.twoOperands,
        Listing.threeOperands, hReg]
      rfl
  | const dst v =>
      simp [reads, writes?] at hReg
      simp [known, opcode, operandTexts, readInstruction_const, Listing.twoOperands, hReg, hOperands.reads]
      rfl
  | branch c lhs rhs t =>
      cases rhs <;>
      · simp [reads, writes?] at hReg
        simp [known, opcode, operandTexts, readInstruction_branch, readInstruction_branch_zero, Listing.twoOperands,
          Listing.threeOperands, hReg, readLabel_label]
        rfl
  | binary op type dst lhs rhs =>
      cases rhs with
      | register rhs =>
          simp [reads, writes?] at hReg
          simp [known, opcode, operandTexts, Operand.text, readInstruction_binary, Listing.threeOperands, hReg]
          rfl
      | literal v =>
          obtain rfl : type = .int := hOperands
          have hNumber := Text.bind_narrow32?_integer? v
          simp [reads, writes?] at hReg hNumber
          simp [known, opcode, operandTexts, Operand.text, readInstruction_literal, Listing.threeOperands, hReg, hNumber]
          rfl
  | switch src cases =>
      simp [reads, writes?] at hReg
      simp [known, opcode, operandTexts, Listing.readInstruction, Listing.twoOperands, hReg, readCases_braced]
      rfl
  | newInstance | checkCast | instanceOf | newArray =>
      simp [reads, writes?] at hReg
      simp [known, opcode, operandTexts, Listing.readInstruction, Listing.twoOperands, Listing.threeOperands, hReg,
        hOperands.reads]
      rfl
  | fieldGet _ o _ | fieldPut _ o _ =>
      cases o <;>
      · simp [reads, writes?] at hReg
        simp [known, opcode, operandTexts, Listing.readInstruction, Listing.twoOperands, Listing.threeOperands, hReg,
          hOperands.reads]
        rfl
  | fillArray a data =>
      have hItems := mapM_readLiteral (List.forall₂_same.mpr hOperands.1) (hOperands.2 0 (by simp))
      simp [reads, writes?] at hReg
      simp [known, opcode, operandTexts, Listing.readInstruction, Listing.twoOperands, hReg, Listing.toList_bracketed,
        Listing.enclosed?_around, hItems]
      rfl
  | invoke kind m args =>
      have hArgs : Listing.readRegisters locals (braced (args.map (Register.name locals))).toList = .ok args :=
        Register.readRegisters_braced hLocals fun r hr => hRegisters r (by simp [reads, hr])
      simp [known, opcode, operandTexts, readInstruction_invoke, Listing.twoOperands, hArgs, hOperands.reads]
      rfl

/-- The line of an instruction is read as its name and its operands. -/
theorem readLine_text (hWords : Words (i.operandTexts (Register.name locals))) :
    Listing.readLine locals (i.text (Register.name locals)).toList =
      Listing.readInstruction locals i.known ((i.operandTexts (Register.name locals)).map String.toList) := by
  have hName : String.ofList (Listing.canonical i.opcode.toList) = i.known := by
    rw [(named_opcode i).1, String.ofList_toList]
  have hBlank : ∀ c ∈ i.opcode.toList, Text.isBlank c = false := fun c hc =>
    (Listing.quiet_iff.mp (quiet_of_mem_opcode hc)).1
  unfold text Listing.readLine
  cases hTexts : i.operandTexts (Register.name locals) with
  | nil =>
      simp only [Text.cutWhere?_eq_none hBlank, Option.getD_none, hName]
      rfl
  | cons t ts =>
      rw [hTexts] at hWords
      have hText : (i.opcode ++ " " ++ Text.separated ", " (t :: ts)).toList =
          i.opcode.toList ++ ' ' :: (Text.separated ", " (t :: ts)).toList := by simp
      have hCut := Text.cutWhere?_append (b := (Text.separated ", " (t :: ts)).toList) hBlank
        (by decide : Text.isBlank ' ' = true)
      simp only [hText, hCut, Option.getD_some, hName, hWords.line.tight.trim_eq, hWords.operands_eq]

theorem lead_opcode (i : Instruction Address) : Listing.Lead (i.opcode.toList ++ [' ']) := by
  have hQuiet : ∀ c ∈ i.opcode.toList, Listing.isQuiet c = true := fun _ => quiet_of_mem_opcode
  have hNotMem {d : Char} (hd : Listing.isQuiet d = false) (hSpace : d ≠ ' ') : d ∉ i.opcode.toList ++ [' '] := fun hMem =>
    (List.mem_append.mp hMem).elim (fun h => by simp [hQuiet d h] at hd) fun h => hSpace (List.mem_singleton.mp h)
  obtain ⟨c, r, hCons, _⟩ := exists_opcode_cons i
  refine ⟨⟨c, r ++ [' '], by rw [hCons, List.cons_append], ?_⟩, ?_, ?_, hNotMem (by decide) (by decide)⟩
  · exact (Listing.quiet_iff.mp (hQuiet c (by simp [hCons]))).1
  · exact Listing.dropCommentFrom_eq_self (hNotMem (by decide) (by decide)) _
  · have hPass : Listing.pass? .outside 0 (i.opcode.toList ++ [' ']) = some (.outside, 0) := by
      rw [Listing.pass?_append, Listing.closed_of_quiet hQuiet 0 (by decide)]
      rfl
    exact Listing.Scan.after_eq hPass

theorem line_text (hWords : Words (i.operandTexts (Register.name locals))) :
    Listing.Line (i.text (Register.name locals)).toList := by
  unfold text
  cases hTexts : i.operandTexts (Register.name locals) with
  | nil => exact .of_quiet fun _ => quiet_of_mem_opcode
  | cons t ts =>
      rw [hTexts] at hWords
      have hSome : (Text.separated ", " (t :: ts)).toList ≠ [] := fun hEmpty => by
        have hNone := hWords.operands_eq
        rw [hEmpty] at hNone
        simp [Listing.operands, Listing.piecesFrom, Text.trim, Text.trimEnd] at hNone
      have hText : (i.opcode ++ " " ++ Text.separated ", " (t :: ts)).toList =
          (i.opcode.toList ++ [' ']) ++ (Text.separated ", " (t :: ts)).toList := by simp
      rw [hText]
      exact (lead_opcode i).append_line hSome hWords.line

theorem begins_text (i : Instruction Address) :
    ∃ c r, (i.text (Register.name locals)).toList = c :: r ∧ c ≠ '.' ∧ c ≠ ':' := by
  obtain ⟨c, r, hCons, hFirst⟩ := exists_opcode_cons i
  unfold text
  split
  · exact ⟨c, r, hCons, hFirst⟩
  · rw [String.toList_append, String.toList_append, hCons]
    exact ⟨c, _, rfl, hFirst⟩

/-- The line of an instruction says what the instruction does. -/
theorem legible_of_spelled (hLocals : locals < 0x10000) (h : i.Spelled locals) : i.Legible locals where
  line := line_text h.words
  begins := begins_text i
  reads := (readLine_text h.words).trans (h.readInstruction_eq hLocals)

/-- The line that loads a literal is read as loading what the literal is read as. -/
theorem toldBy_const (hLocals : locals < 0x10000) {r : Register} (hr : r < locals + 0x10000) {v w : Literal}
    (h : Spells Listing.readLiteral w v.text) :
    (const r w : Instruction Address).ToldBy locals ((const r v).text (Register.name locals)).toList := by
  have hWords : Words ((const r v).operandTexts (Register.name locals)) :=
    .cons Register.word_name Register.closed_name (.singleton h.toWord)
  refine ⟨line_text hWords, begins_text _, ?_⟩
  rw [readLine_text hWords]
  simp [known, opcode, operandTexts, readInstruction_const, Listing.twoOperands,
    Register.readRegister_name hLocals hr, h.reads]
  rfl

/-- The line that fills an array is read as filling it with what the literals are read as. -/
theorem toldBy_fillArray (hLocals : locals < 0x10000) {r : Register} (hr : r < locals + 0x10000) {vs ws : List Literal}
    (h : List.Forall₂ (fun v w => Spells Listing.readLiteral w v.text) vs ws)
    (hSeparable : ∀ depth ∈ [0, 1], Listing.Separable depth ((vs.map Literal.text).map String.toList)) :
    (fillArray r ws : Instruction Address).ToldBy locals ((fillArray r vs).text (Register.name locals)).toList := by
  have hItems := mapM_readLiteral h (hSeparable 0 (by simp))
  have hData := word_bracketed (words_literals h (hSeparable 0 (by simp))) (hSeparable 1 (by simp))
  have hWords : Words ((fillArray r vs : Instruction Address).operandTexts (Register.name locals)) :=
    .cons Register.word_name Register.closed_name (.singleton hData)
  refine ⟨line_text hWords, begins_text _, ?_⟩
  rw [readLine_text hWords]
  simp [known, opcode, operandTexts, Listing.readInstruction, Listing.twoOperands,
    Register.readRegister_name hLocals hr, Listing.toList_bracketed, Listing.enclosed?_around, hItems]
  rfl

end Instruction

end Dalvik
