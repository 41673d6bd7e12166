import Dalvik.Proofs.Plainness
import Dalvik.Proofs.Precedence

/-!
What the listing of an optimized method tells. An instruction is read back from its line, up to floating point values, if
its names have been read or are plain, unless it holds the least integer of 64 bits or a comment begins in one of the names.
-/

namespace Dalvik

/-- A literal that has been read is read from its own text, up to a floating point value. -/
theorem Literal.Copied.exists_spells {v : Literal} (h : v.Copied) (hClear : v.Clear) (hLeast : v ≠ .long Int64.minValue) :
    ∃ w, v.Resembles w ∧ Spells Listing.readLiteral w v.text := by
  cases v with
  | type d => exact ⟨type d, rfl, h.1.word hClear, h.2⟩
  | long n => exact Literal.exists_spells _ fun hUnchecked => hLeast (congrArg long hUnchecked)
  | _ => exact Literal.exists_spells _ id

namespace Instruction

/-- Two instructions that differ in nothing but floating point values. -/
inductive Resembles : Instruction Address → Instruction Address → Prop
  | refl (i : Instruction Address) : Resembles i i
  | load (dst : Register) {v w : Literal} (h : v.Resembles w) : Resembles (.const dst v) (.const dst w)
  | fill (array : Register) {vs ws : List Literal} (h : List.Forall₂ Literal.Resembles vs ws) :
      Resembles (.fillArray array vs) (.fillArray array ws)

variable {i j : Instruction Address} {locals : Nat}

theorem Resembles.size_eq (h : i.Resembles j) : j.size = i.size := by
  cases h with
  | refl | fill => rfl
  | @load dst v w h =>
      cases v <;> first
        | (obtain rfl := h; rfl)
        | (cases w <;> first | rfl | cases h)

theorem Resembles.operands_eq (h : i.Resembles j) :
    j.reads = i.reads ∧ j.writes? = i.writes? ∧ j.targets = i.targets := by
  cases h <;> exact ⟨rfl, rfl, rfl⟩

variable {τ υ : Type}

/-- What an instruction holds can be written again: the least integer of 64 bits is not in it, and no comment begins in a
class constant or a method. -/
def Repeatable : Instruction τ → Prop
  | const _ v => v.Clear ∧ v ≠ .long Int64.minValue
  | invoke _ m _ => Listing.dropComment m.text.toList = m.text.toList
  | fillArray _ data => .long Int64.minValue ∉ data
  | _ => True

instance (i : Instruction τ) : Decidable i.Repeatable := by
  rcases i with ⟨⟩ <;> dsimp only [Repeatable] <;> infer_instance

/-- What makes the line of an instruction tell the instruction: its names have been read or can be, and what it holds can
be written again. -/
structure Tellable (i : Instruction τ) : Prop where
  phrased : i.Phrased
  copied : i.Copied
  repeatable : i.Repeatable

namespace Tellable

theorem mapTargets {i : Instruction τ} (h : i.Tellable) (f : τ → υ) : (i.mapTargets f).Tellable :=
  ⟨h.phrased.mapTargets f, h.copied.mapTargets f, by cases i <;> exact h.repeatable⟩

theorem mapRegisters {i : Instruction τ} (h : i.Tellable) (f : Register → Register) : (i.mapRegisters f).Tellable := by
  refine ⟨h.phrased.mapRegisters f, h.copied.mapRegisters f, ?_⟩
  cases i with
  | binary op type dst lhs rhs => cases rhs <;> trivial
  | _ => exact h.repeatable

theorem of_checkCast (r : Register) {d : Descriptor} (h : Spells Listing.readType d d.text) :
    (checkCast r d : Instruction τ).Tellable := ⟨trivial, h, trivial⟩

theorem of_invoke (kind : InvokeKind) {m : MethodReference} (h : m.Plain) (args : List Register) :
    (invoke kind m args : Instruction τ).Tellable where
  phrased := trivial
  copied := ⟨Listing.piece_of_word h.spells.toWord, h.spells.reads⟩
  repeatable := h.spells.clear

theorem of_const (dst : Register) {v : Literal} (h : v.Plain) : (const dst v : Instruction τ).Tellable := by
  cases v with
  | type d =>
      have hSpells := h.spells_type
      exact ⟨trivial, ⟨Listing.piece_of_word hSpells.toWord, hSpells.reads⟩, hSpells.clear, Literal.noConfusion⟩
  | long n => exact ⟨trivial, trivial, trivial, fun hLeast => h (Literal.long.inj hLeast)⟩
  | _ => exact ⟨trivial, trivial, trivial, Literal.noConfusion⟩

end Tellable

/-- A direct call is told by its lines, if the method can be written. -/
theorem tellable_of_lowered {s : Unreflection.Site} (hTarget : s.target.Plain) (h : Unreflection.Lowered s i) :
    i.Tellable := by
  cases h with
  | move | fetch | result => exact ⟨trivial, trivial, trivial⟩
  | index dst v => exact .of_const dst trivial
  | cast r hType =>
      refine .of_checkCast r ?_
      rcases hType with rfl | hParam
      · exact hTarget.spells_definer
      · exact hTarget.spells_param hParam
  | call hArgs => exact .of_invoke _ hTarget _
  | castBox r hBox => exact .of_checkCast r (Descriptor.plain_of_boxing? hBox).1.spells_definer
  | unbox r hBox => exact .of_invoke _ (Descriptor.plain_of_boxing? hBox).1 _
  | rebox r hBox => exact .of_invoke _ (Descriptor.plain_of_boxing? hBox).2 _

theorem tellable_of_brought (h : i.Brought Finding.Plain) : i.Tellable := by
  cases h with
  | load dst hValue => exact .of_const dst hValue
  | null dst => exact .of_const dst trivial
  | jump target => exact ⟨trivial, trivial, trivial⟩
  | lowered hCall hi => exact tellable_of_lowered hCall hi

/-- The line of an instruction tells the instruction, up to floating point values. -/
theorem Tellable.exists_toldBy (h : i.Tellable) (hLocals : locals < 0x10000)
    (hRegisters : ∀ r ∈ i.reads ++ i.writes?.toList, r < locals + 0x10000) :
    ∃ j, i.Resembles j ∧ j.ToldBy locals (i.text (Register.name locals)).toList := by
  obtain ⟨hPhrased, hCopied, hRepeatable⟩ := h
  cases i with
  | const dst v =>
      obtain ⟨w, hSame, hSpells⟩ := Literal.Copied.exists_spells hCopied hRepeatable.1 hRepeatable.2
      exact ⟨const dst w, .load dst hSame, toldBy_const hLocals (hRegisters dst (by simp [reads, writes?])) hSpells⟩
  | fillArray array data =>
      have hEach (v : Literal) (hv : v ∈ data) : ∃ w, v.Resembles w ∧ Spells Listing.readLiteral w v.text :=
        Literal.Copied.exists_spells (hCopied.1 v hv).1 (hCopied.1 v hv).2 fun hLeast => hRepeatable (hLeast ▸ hv)
      obtain ⟨ws, hws⟩ := exists_forall₂ hEach
      exact ⟨fillArray array ws, .fill array (hws.imp fun _ _ hw => hw.1),
        toldBy_fillArray hLocals (hRegisters array (by simp [reads])) (hws.imp fun _ _ hw => hw.2) hCopied.2⟩
  | checkCast r d => exact ⟨_, .refl _, legible_of_spelled hLocals ⟨hRegisters, hCopied⟩⟩
  | invoke kind m args => exact ⟨_, .refl _, legible_of_spelled hLocals ⟨hRegisters, hCopied.1.word hRepeatable, hCopied.2⟩⟩
  | binary op type dst lhs rhs =>
      refine ⟨_, .refl _, legible_of_spelled hLocals ⟨hRegisters, ?_⟩⟩
      cases rhs <;> exact hPhrased
  | _ => exact ⟨_, .refl _, legible_of_spelled hLocals ⟨hRegisters, hPhrased⟩⟩

end Instruction

namespace Method

variable {T : Finding → Prop} {m m' : Method}

theorem Outlined.addLocals (h : m.Outlined) {count : Nat} (hRoom : m.hasRoom count = true) :
    (m.addLocals count).Outlined := by
  have hPlace {a : Address} (ha : m.code.HasPlace a) : (m.addLocals count).code.HasPlace a := by
    obtain ⟨k, hk, rfl⟩ := ha
    exact ⟨k, by simpa [Method.addLocals] using hk, addLocals_addressAt k⟩
  have hLocals : m.locals + count < 0x10000 := of_decide_eq_true (Bool.and_eq_true_iff.mp hRoom).1
  exact ⟨⟨h.toDeclarable, hLocals⟩, h.caught, fun b hb => (h.bounded b hb).imp hPlace hPlace⟩

theorem Refitted.outlined (h : Refitted T m m') (hm : m.Outlined) : m'.Outlined := by
  induction h with
  | refl => exact hm
  | tail _ hStep ih =>
      cases hStep with
      | splice retarget hEnd _ => exact ih.splice hEnd
      | addLocals hRoom => exact ih.addLocals hRoom

theorem Refitted.tellable (h : Refitted Finding.Plain m m') (hm : ∀ i ∈ m.code, i.Tellable) : ∀ i ∈ m'.code, i.Tellable :=
  h.forall_code (fun _ => Instruction.tellable_of_brought) (fun f _ hi => hi.mapTargets f)
    (fun f _ hi => hi.mapRegisters f) hm

theorem Refitted.paramCount_eq (h : Refitted T m m') : m'.paramCount = m.paramCount := by
  obtain ⟨hReference, hFlags⟩ := h.header
  simp only [paramCount, paramTypes, hReference, hFlags]

section Rewording

variable {f : Instruction Address → Instruction Address} (hf : ∀ i : Instruction Address, i.Resembles (f i))

include hf

theorem addresses_map_resembles (code : Code) : Code.addresses (code.map f) = code.addresses := by
  have hFrom (start : Address) : Instruction.addressesFrom start (code.map f) = Instruction.addressesFrom start code := by
    induction code generalizing start with
    | nil => rfl
    | cons i code ih => simp [Instruction.addressesFrom, (hf i).size_eq, ih]
  exact hFrom 0

theorem addressAt_map_resembles (code : Code) (k : Nat) : Code.addressAt (code.map f) k = code.addressAt k :=
  Code.addressAt_map (fun i => (hf i).size_eq) k

theorem hasAddress_map_resembles {code : Code} {a : Address} (h : code.HasAddress a) : Code.HasAddress (code.map f) a := by
  obtain ⟨k, hk, rfl⟩ := h
  exact ⟨k, by simpa using hk, addressAt_map_resembles hf code k⟩

theorem validate_map_resembles (hValid : m.validate = .ok ()) :
    ({ m with code := m.code.map f } : Method).validate = .ok () := by
  obtain ⟨hCode, hHandlers⟩ := validate_eq_ok_iff.mp hValid
  refine validate_eq_ok_iff.mpr ⟨fun j hj => ?_, fun h hh => hasAddress_map_resembles hf (hHandlers h hh)⟩
  obtain ⟨i, hi, rfl⟩ := List.mem_map.mp hj
  obtain ⟨hReads, hWrites, hTargets⟩ := (hf i).operands_eq
  refine ⟨fun r hr => ?_, fun t ht => ?_⟩
  · rw [hReads, hWrites] at hr
    exact (hCode i hi).registers r hr
  · rw [hTargets] at ht
    exact hasAddress_map_resembles hf ((hCode i hi).targets t ht)

theorem rowsAround_map_resembles (lines : List (List Char)) :
    ({ m with code := m.code.map f } : Method).rowsAround lines = m.rowsAround lines := by
  have hTargets : (m.code.map f).flatMap Instruction.targets = m.code.flatMap Instruction.targets := by
    rw [List.flatMap_map]
    exact congrArg (List.flatMap · m.code) (funext fun i => (hf i).operands_eq.2.2)
  have hLabelled : ({ m with code := m.code.map f } : Method).labelled = m.labelled := by
    unfold labelled
    rw [hTargets]
  have hStop : ({ m with code := m.code.map f } : Method).stop = m.stop := by
    have hEnd := addressAt_map_resembles hf m.code m.code.length
    rwa [Code.addressAt_length, Code.addressAt_of_length_le (by simp)] at hEnd
  have hLabels : ({ m with code := m.code.map f } : Method).labelRows = m.labelRows := by
    funext a
    rw [labelRows, labelRows, hLabelled]
  have hInsns : ({ m with code := m.code.map f } : Method).insnRows = m.insnRows := by
    funext p
    rw [insnRows, insnRows, hLabels]
  rw [rowsAround, rowsAround, hInsns, hLabels, hStop]
  dsimp only
  rw [addresses_map_resembles hf]
  rfl

end Rewording

/-- The listing of a method tells the method, up to floating point values. -/
theorem exists_tells (h : m.Outlined) (hValid : m.validate = .ok ()) (hCount : m.paramCount ≤ 0x10000)
    (hCode : ∀ i ∈ m.code, i.Tellable) :
    ∃ f : Instruction Address → Instruction Address,
      (∀ i : Instruction Address, i.Resembles (f i)) ∧ m.Tells { m with code := m.code.map f } := by
  have hAll (i : Instruction Address) : ∃ j, i.Resembles j ∧
      (i ∈ m.code → j.ToldBy m.locals (i.text m.registerName).toList) := by
    by_cases hi : i ∈ m.code
    · have hRegisters : ∀ r ∈ i.reads ++ i.writes?.toList, r < m.locals + 0x10000 := fun r hr =>
        calc
          r < m.locals + m.paramCount := ((validate_eq_ok_iff.mp hValid).1 i hi).registers r hr
          _ ≤ m.locals + 0x10000 := Nat.add_le_add_left hCount _
      obtain ⟨j, hSame, hTold⟩ := (hCode i hi).exists_toldBy h.locals hRegisters
      exact ⟨j, hSame, fun _ => hTold⟩
    · exact ⟨i, .refl i, fun hMem => absurd hMem hi⟩
  choose f hf hTold using hAll
  have hPlace {a : Address} (ha : m.code.HasPlace a) : Code.HasPlace (m.code.map f) a := by
    obtain ⟨k, hk, rfl⟩ := ha
    exact ⟨k, by simpa using hk, addressAt_map_resembles hf m.code k⟩
  refine ⟨f, hf, ?_, validate_map_resembles hf hValid, rfl, m.insnLines, (rowsAround_map_resembles hf _).symm, ?_⟩
  · exact ⟨⟨h.toDeclarable, h.locals⟩, h.caught, fun b hb => (h.bounded b hb).imp hPlace hPlace⟩
  · rw [insnLines, List.forall₂_map_left_iff, List.forall₂_map_right_iff]
    exact List.forall₂_same.mpr hTold

end Method

end Dalvik
