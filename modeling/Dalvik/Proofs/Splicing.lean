import Dalvik.Method.Splice
import Dalvik.Proofs.Layout
import Dalvik.Proofs.Lookup

/-!
What a splice does to a method, told by positions: which instruction stands where afterwards, where
control that went to an old address goes, and when the result still mentions only what exists.
-/

namespace Dalvik

namespace Code

/-- Some instruction has the address. -/
def HasAddress (code : Code) (a : Address) : Prop := ∃ n, n < code.length ∧ code.addressAt n = a

theorem hasAddress_iff {code : Code} {a : Address} :
    code.HasAddress a ↔ (code.indexOf? a).isSome = true := by
  simp only [HasAddress, Option.isSome_iff_exists, indexOf?_eq_some_iff]

theorem hasAddress_of_at? {code : Code} {a : Address} {i : Instruction Address}
    (h : code.at? a = some i) : code.HasAddress a := by
  obtain ⟨n, hIndex, _⟩ := at?_eq_some_iff.mp h
  exact ⟨n, indexOf?_eq_some_iff.mp hIndex⟩

theorem hasAddress_addressAt {code : Code} {n : Nat} (h : n < code.length) :
    code.HasAddress (code.addressAt n) := ⟨n, h, rfl⟩

theorem zipIdx_addresses (code : Code) :
    code.addresses.zipIdx = (List.range code.length).map fun n => (code.addressAt n, n) := by
  apply List.ext_getElem?
  intro n
  by_cases h : n < code.length <;> simp [addresses_getElem?, h]

end Code

namespace Method

/-- The registers and the targets of an instruction exist in the method. -/
structure Admits (m : Method) (i : Instruction Address) : Prop where
  registers : ∀ r ∈ i.reads ++ i.writes?.toList, r < m.registerCount
  targets : ∀ t ∈ i.targets, m.code.HasAddress t

theorem admits_const {m : Method} {dst : Register} (h : dst < m.registerCount) (l : Literal) :
    m.Admits (.const dst l) := by
  refine ⟨fun r hr => ?_, by simp [Instruction.targets]⟩
  obtain rfl : r = dst := by simpa [Instruction.reads, Instruction.writes?] using hr
  exact h

theorem forM_eq_ok_iff {α ε : Type} {f : α → Except ε Unit} {as : List α} :
    as.forM f = .ok () ↔ ∀ a ∈ as, f a = .ok () := by
  induction as with
  | nil => simp [List.forM, pure, Except.pure]
  | cons a r ih =>
      cases h : f a with
      | error e => simp [List.forM, bind, Except.bind, h]
      | ok u => simpa [List.forM, bind, Except.bind, h] using ih

theorem checkRegister_eq_ok_iff {m : Method} {r : Register} :
    m.checkRegister r = .ok () ↔ r < m.registerCount := by
  unfold checkRegister
  split <;> simp_all

theorem checkAddress_eq_ok_iff {m : Method} {a : Address} :
    m.checkAddress a = .ok () ↔ m.code.HasAddress a := by
  unfold checkAddress
  rw [Code.hasAddress_iff]
  split <;> simp_all

theorem checkInstruction_eq_ok_iff {m : Method} {i : Instruction Address} :
    m.checkInstruction i = .ok () ↔ m.Admits i := by
  unfold checkInstruction
  cases h : (i.reads ++ i.writes?.toList).forM m.checkRegister with
  | error e =>
      have hBad : ¬ ∀ r ∈ i.reads ++ i.writes?.toList, r < m.registerCount := fun hAll => by
        rw [forM_eq_ok_iff.mpr fun r hr => checkRegister_eq_ok_iff.mpr (hAll r hr)] at h
        cases h
      simp only [bind, Except.bind, reduceCtorEq, false_iff]
      exact fun hAdmits => hBad hAdmits.registers
  | ok u =>
      have hRegisters := forM_eq_ok_iff.mp h
      simp only [bind, Except.bind, forM_eq_ok_iff, checkAddress_eq_ok_iff]
      exact ⟨fun hTargets => ⟨fun r hr => checkRegister_eq_ok_iff.mp (hRegisters r hr), hTargets⟩,
        fun hAdmits => hAdmits.targets⟩

/-- A method is valid when it admits its instructions and has an instruction at every handler. -/
theorem validate_eq_ok_iff {m : Method} :
    m.validate = .ok () ↔
      (∀ i ∈ m.code, m.Admits i) ∧ ∀ h ∈ m.handlers, m.code.HasAddress h.target := by
  unfold validate
  simp only [← checkInstruction_eq_ok_iff, ← checkAddress_eq_ok_iff, ← forM_eq_ok_iff]
  cases m.code.forM m.checkInstruction with
  | error e => simp [bind, Except.bind]
  | ok u => simp [bind, Except.bind]

end Method

namespace Instruction

variable {τ σ : Type}

@[simp] theorem reads_mapTargets (f : τ → σ) (i : Instruction τ) :
    (i.mapTargets f).reads = i.reads := by
  cases i with
  | binary op type dst lhs rhs => cases rhs <;> rfl
  | _ => rfl

@[simp] theorem writes?_mapTargets (f : τ → σ) (i : Instruction τ) :
    (i.mapTargets f).writes? = i.writes? := by
  cases i <;> rfl

@[simp] theorem fallsThrough_mapTargets (f : τ → σ) (i : Instruction τ) :
    (i.mapTargets f).fallsThrough = i.fallsThrough := by
  cases i <;> rfl

/-- Only where the targets have moved matters. -/
theorem mapTargets_congr {f g : τ → σ} {i : Instruction τ} (h : ∀ t ∈ i.targets, f t = g t) :
    i.mapTargets f = i.mapTargets g := by
  cases i with
  | switch src cases =>
      refine congrArg (switch src) (List.map_congr_left fun x hx => ?_)
      rw [h x.2 (List.mem_map_of_mem hx)]
  | _ => simp_all [mapTargets, targets]

end Instruction

namespace Code

/-- The body in which `removed` instructions from a position on are replaced by others. -/
def spliced (code : Code) (index removed : Nat) (new : Code) : Code :=
  code.take index ++ new ++ code.drop (index + removed)

variable {code new : Code} {index removed : Nat}

theorem length_spliced (h : index + removed ≤ code.length) :
    (code.spliced index removed new).length = code.length - removed + new.length := by
  simp [spliced]
  omega

/-- What is inserted stands in order from the position on. -/
theorem spliced_getElem?_inserted (h : index + removed ≤ code.length) {k : Nat}
    (hk : k < new.length) : (code.spliced index removed new)[index + k]? = new[k]? := by
  have hTake : (code.take index).length = index := by simp; omega
  rw [spliced, List.append_assoc, List.getElem?_append_right (by omega), hTake,
    List.getElem?_append_left (by omega)]
  congr 1
  omega

theorem survivor?_eq_some_iff {added i j : Nat} :
    survivor? index removed added i = some j ↔
      i < index ∧ j = i ∨ index + removed ≤ i ∧ j = i - removed + added := by
  unfold survivor?
  split
  · simp only [Option.some.injEq]
    omega
  · split
    · simp only [reduceCtorEq, false_iff]
      omega
    · simp only [Option.some.injEq]
      omega

/-- What is not removed stands where it has moved to. -/
theorem spliced_getElem?_survivor (h : index + removed ≤ code.length) {i j : Nat}
    (hMove : survivor? index removed new.length i = some j) :
    (code.spliced index removed new)[j]? = code[i]? := by
  have hTake : (code.take index).length = index := by simp; omega
  rcases survivor?_eq_some_iff.mp hMove with ⟨hi, rfl⟩ | ⟨hi, rfl⟩
  · rw [spliced, List.append_assoc, List.getElem?_append_left (by omega),
      List.getElem?_take_of_lt hi]
  · rw [spliced, List.getElem?_append_right (by simp; omega), List.getElem?_drop]
    congr 1
    simp
    omega

theorem survivor?_lt_length (h : index + removed ≤ code.length) {i j : Nat}
    (hi : i < code.length) (hMove : survivor? index removed new.length i = some j) :
    j < (code.spliced index removed new).length := by
  rw [length_spliced h]
  rcases survivor?_eq_some_iff.mp hMove with ⟨hi, rfl⟩ | ⟨hi, rfl⟩ <;> omega

theorem survivor?_injective {added i i' j : Nat}
    (h : survivor? index removed added i = some j)
    (h' : survivor? index removed added i' = some j) : i = i' := by
  have hFirst := survivor?_eq_some_iff.mp h
  have hSecond := survivor?_eq_some_iff.mp h'
  omega

theorem landing_of_survivor {added i j : Nat} {retarget : Bool}
    (h : survivor? index removed added i = some j) :
    landing index removed added retarget i = j ∨
      i = index ∧ retarget = true ∧ landing index removed added retarget i = index := by
  unfold landing
  by_cases hHere : i = index ∧ retarget = true
  · simp [hHere]
  · simp only [Bool.and_eq_true, decide_eq_true_eq, hHere, if_false, h, Option.getD_some, true_or]

/-- If anything is inserted, or nothing is removed, then control always finds an instruction. -/
theorem landing_lt_length (h : index + removed ≤ code.length) {i : Nat} (hi : i < code.length)
    (hFilled : new ≠ [] ∨ removed = 0) (retarget : Bool) :
    landing index removed new.length retarget i < (code.spliced index removed new).length := by
  have hSome : 0 < new.length ∨ removed = 0 := hFilled.imp_left List.length_pos_iff.mpr
  rw [length_spliced h]
  unfold landing
  split
  · rename_i hHere
    simp only [Bool.and_eq_true, decide_eq_true_eq] at hHere
    omega
  · cases hMove : survivor? index removed new.length i with
    | none =>
        have hRemoved : ¬ (i < index) ∧ i < index + removed := by
          constructor
          · intro hBefore
            simp [survivor?, hBefore] at hMove
          · by_contra hAfter
            rw [survivor?, if_neg (by omega), if_neg hAfter] at hMove
            cases hMove
        simp
        omega
    | some j =>
        have hPlace := survivor?_eq_some_iff.mp hMove
        simp only [Option.getD_some]
        omega

end Code

namespace Method

variable {m : Method} {index removed : Nat} {new : Code} {retarget : Bool}

theorem splice_relocation_insns :
    (m.splice index removed new retarget).2.insns =
      (List.range m.code.length).filterMap fun i =>
        (Code.survivor? index removed new.length i).map fun j =>
          (m.code.addressAt i, (m.code.spliced index removed new).addressAt j) := by
  simp only [splice, Code.zipIdx_addresses, List.filterMap_map, Code.spliced]
  rfl

theorem splice_relocation_labels :
    (m.splice index removed new retarget).2.labels =
      ((List.range m.code.length).map fun i =>
        (m.code.addressAt i, (m.code.spliced index removed new).addressAt
          (Code.landing index removed new.length retarget i))) ++
        [(m.stop, (m.code.spliced index removed new).size)] := by
  simp only [splice, Code.zipIdx_addresses, List.map_map, Code.spliced]
  rfl

theorem splice_code :
    (m.splice index removed new retarget).1.code =
      (m.code.spliced index removed new).map
        (Instruction.mapTargets (m.splice index removed new retarget).2.label) := rfl

theorem splice_addressAt (n : Nat) :
    (m.splice index removed new retarget).1.code.addressAt n =
      (m.code.spliced index removed new).addressAt n := by
  rw [splice_code]
  exact Code.addressAt_map (Instruction.size_mapTargets _) n

theorem splice_length :
    (m.splice index removed new retarget).1.code.length =
      (m.code.spliced index removed new).length := by
  simp [splice_code]

/-- An instruction that survives is found at the address of the position it has moved to. -/
theorem splice_insn?_addressAt {i : Nat} (hi : i < m.code.length) :
    (m.splice index removed new retarget).2.insn? (m.code.addressAt i) =
      (Code.survivor? index removed new.length i).map
        (m.splice index removed new retarget).1.code.addressAt := by
  have hAddress : (m.splice index removed new retarget).1.code.addressAt =
      (m.code.spliced index removed new).addressAt := funext splice_addressAt
  have hKeys : ∀ k ∈ List.range m.code.length, ∀ l ∈ List.range m.code.length,
      m.code.addressAt k = m.code.addressAt l → k = l := fun k hk l hl =>
    Code.addressAt_injective (Nat.le_of_lt (List.mem_range.mp hk)) (Nat.le_of_lt (List.mem_range.mp hl))
  have hLookup := Lookup.lookup_filterMap hKeys (List.mem_range.mpr hi) (fun i =>
    (Code.survivor? index removed new.length i).map (m.code.spliced index removed new).addressAt)
  rw [Relocation.insn?, splice_relocation_insns, hAddress, ← hLookup]
  simp only [Option.map_map, Function.comp_def]

/-- Only instructions are found by their address. -/
theorem splice_insn? (a : Address) :
    (m.splice index removed new retarget).2.insn? a =
      ((m.code.indexOf? a).bind (Code.survivor? index removed new.length)).map
        (m.splice index removed new retarget).1.code.addressAt := by
  cases ha : m.code.indexOf? a with
  | some i =>
      obtain ⟨hi, rfl⟩ := Code.indexOf?_eq_some_iff.mp ha
      exact splice_insn?_addressAt hi
  | none =>
      rw [Relocation.insn?, Option.bind_none, Option.map_none, Lookup.lookup_eq_none_iff_not_mem,
        splice_relocation_insns]
      intro hKey
      obtain ⟨⟨b, c⟩, hEntry, rfl⟩ := List.mem_map.mp hKey
      obtain ⟨i, hi, hMove⟩ := List.mem_filterMap.mp hEntry
      obtain ⟨j, _, hPair⟩ := Option.map_eq_some_iff.mp hMove
      have hSome := Code.indexOf?_addressAt (List.mem_range.mp hi)
      rw [(Prod.mk.inj hPair).1, ha] at hSome
      cases hSome

/-- Control that went to an instruction goes to the address of the position it lands on. -/
theorem splice_label_addressAt {i : Nat} (hi : i < m.code.length) :
    (m.splice index removed new retarget).2.label (m.code.addressAt i) =
      (m.splice index removed new retarget).1.code.addressAt
        (Code.landing index removed new.length retarget i) := by
  have hKeys : ∀ k ∈ List.range m.code.length, ∀ l ∈ List.range m.code.length,
      m.code.addressAt k = m.code.addressAt l → k = l := fun k hk l hl =>
    Code.addressAt_injective (Nat.le_of_lt (List.mem_range.mp hk)) (Nat.le_of_lt (List.mem_range.mp hl))
  have hLookup := Lookup.lookup_filterMap hKeys (List.mem_range.mpr hi) (fun i =>
    some ((m.code.spliced index removed new).addressAt
      (Code.landing index removed new.length retarget i)))
  simp only [Option.map_some, List.filterMap_eq_map'] at hLookup
  rw [Relocation.label, splice_relocation_labels, List.lookup_append, hLookup, splice_addressAt]
  rfl

/-- The target of an inserted or surviving jump exists if control lands on an instruction. -/
theorem splice_hasAddress_label {a : Address} (ha : m.code.HasAddress a)
    (hLands : ∀ i, i < m.code.length → m.code.addressAt i = a →
      Code.landing index removed new.length retarget i < (m.code.spliced index removed new).length) :
    (m.splice index removed new retarget).1.code.HasAddress
      ((m.splice index removed new retarget).2.label a) := by
  obtain ⟨i, hi, rfl⟩ := ha
  refine ⟨Code.landing index removed new.length retarget i, ?_, (splice_label_addressAt hi).symm⟩
  rw [splice_length]
  exact hLands i hi rfl

theorem mem_splice_handlers {h : Handler}
    (hh : h ∈ (m.splice index removed new retarget).1.handlers) :
    ∃ old ∈ m.handlers, h.target = (m.splice index removed new retarget).2.label old.target := by
  simp only [splice, relocate, handlers, List.mem_flatMap, List.mem_filter, List.mem_map] at hh
  obtain ⟨b, ⟨⟨old, hOld, rfl⟩, _⟩, hHandler⟩ := hh
  obtain ⟨k, hk, rfl⟩ := List.mem_map.mp hHandler
  exact ⟨k, List.mem_flatMap.mpr ⟨old, hOld, hk⟩, rfl⟩

theorem admits_mapTargets {m' : Method} {f : Address → Address} {i : Instruction Address}
    (hCount : m'.registerCount = m.registerCount) (h : m.Admits i)
    (hTargets : ∀ t ∈ i.targets, m'.code.HasAddress (f t)) : m'.Admits (i.mapTargets f) := by
  refine ⟨fun r hr => ?_, fun t ht => ?_⟩
  · rw [hCount]
    exact h.registers r (by simpa using hr)
  · rw [Instruction.targets_mapTargets] at ht
    obtain ⟨u, hu, rfl⟩ := List.mem_map.mp ht
    exact hTargets u hu

/-- A splice that leaves control an instruction to land on keeps a method valid. -/
theorem validate_splice (hm : m.validate = .ok ()) (hNew : ∀ i ∈ new, m.Admits i)
    (hEnd : index + removed ≤ m.code.length) (hFilled : new ≠ [] ∨ removed = 0) :
    (m.splice index removed new retarget).1.validate = .ok () := by
  obtain ⟨hCode, hHandlers⟩ := validate_eq_ok_iff.mp hm
  have hLabel {a : Address} (ha : m.code.HasAddress a) :
      (m.splice index removed new retarget).1.code.HasAddress
        ((m.splice index removed new retarget).2.label a) :=
    splice_hasAddress_label ha fun i hi _ => Code.landing_lt_length hEnd hi hFilled retarget
  refine validate_eq_ok_iff.mpr ⟨fun i hi => ?_, fun h hh => ?_⟩
  · rw [splice_code] at hi
    obtain ⟨old, hOld, rfl⟩ := List.mem_map.mp hi
    have hAdmits : m.Admits old := by
      simp only [Code.spliced, List.mem_append] at hOld
      rcases hOld with (hBefore | hInserted) | hAfter
      · exact hCode old (List.mem_of_mem_take hBefore)
      · exact hNew old hInserted
      · exact hCode old (List.mem_of_mem_drop hAfter)
    exact admits_mapTargets (m := m) rfl hAdmits fun t ht => hLabel (hAdmits.targets t ht)
  · obtain ⟨old, hOld, hTarget⟩ := mem_splice_handlers hh
    rw [hTarget]
    exact hLabel (hHandlers old hOld)

end Method

namespace Relocation

theorem lookup_insertPair (key value : Address) (pairs : List (Address × Address))
    (a : Address) :
    (insertPair (key, value) pairs).lookup a = if a = key then some value else pairs.lookup a := by
  induction pairs with
  | nil =>
      by_cases h : a = key
      · simp [insertPair, h]
      · simp [insertPair, List.lookup_cons, beq_false_of_ne h, h]
  | cons q r ih =>
      obtain ⟨other, old⟩ := q
      unfold insertPair
      by_cases hLess : key < other
      · by_cases h : a = key
        · simp [hLess, h]
        · simp [hLess, List.lookup_cons, beq_false_of_ne h, h]
      · by_cases hSame : key = other
        · subst hSame
          by_cases h : a = key
          · simp [h]
          · simp [List.lookup_cons, beq_false_of_ne h, h]
        · rw [if_neg hLess, if_neg hSame, List.lookup_cons, ih, List.lookup_cons]
          by_cases hHead : a = other
          · simp [hHead, Ne.symm hSame]
          · simp [beq_false_of_ne hHead]

theorem insn?_followLabel (r : Relocation) (a b : Address) :
    (r.followLabel a).insn? b = if b = a then some (r.label a) else r.insn? b :=
  lookup_insertPair _ _ _ _

/-- The edit takes the instructions of one body to positions of another. -/
structure Moves (r : Relocation) (code code' : Code) (move : Nat → Option Nat) : Prop where
  insn : ∀ a, r.insn? a = ((code.indexOf? a).bind move).map code'.addressAt
  bound : ∀ i j, i < code.length → move i = some j → j < code'.length
  injective : ∀ i i' j, move i = some j → move i' = some j → i = i'

end Relocation

namespace Code

/-- Where the instructions of a body are after the one at a position has been replaced by others. -/
def replacing (index added i : Nat) : Option Nat :=
  if i = index then some index else survivor? index 1 added i

theorem isSome_survivor? {index removed added i : Nat} (h : i < index ∨ index + removed ≤ i) :
    (survivor? index removed added i).isSome = true := by
  unfold survivor?
  rcases h with hBefore | hAfter
  · rw [if_pos hBefore]
    rfl
  · rw [if_neg (by omega), if_neg (by omega)]
    rfl

theorem isSome_replacing {index added i : Nat} : (replacing index added i).isSome = true := by
  unfold replacing
  split
  · rfl
  · exact isSome_survivor? (by omega)

end Code

namespace Method

variable {m : Method} {index removed : Nat} {new : Code} {retarget : Bool}

theorem splice_moves (new : Code) (hEnd : index + removed ≤ m.code.length) :
    (m.splice index removed new retarget).2.Moves m.code
      (m.splice index removed new retarget).1.code
      (Code.survivor? index removed new.length) where
  insn := splice_insn?
  bound i j hi hMove := by
    rw [splice_length]
    exact Code.survivor?_lt_length hEnd hi hMove
  injective i i' j := Code.survivor?_injective

/-- What is replaced counts as moved to the first of what replaces it. -/
theorem replacement_moves (hIndex : index < m.code.length) (hNew : new ≠ []) :
    ((m.splice index 1 new true).2.followLabel (m.code.addressAt index)).Moves m.code
      (m.splice index 1 new true).1.code (Code.replacing index new.length) where
  insn a := by
    rw [Relocation.insn?_followLabel, splice_label_addressAt hIndex, splice_insn?]
    have hAt := Code.indexOf?_addressAt hIndex
    by_cases hHere : a = m.code.addressAt index
    · simp [hHere, hAt, Code.replacing, Code.landing]
    · rw [if_neg hHere]
      cases ha : m.code.indexOf? a with
      | none => rfl
      | some i =>
          have hOther : i ≠ index := fun h => hHere ((h ▸ Code.indexOf?_eq_some_iff.mp ha).2.symm)
          simp [Code.replacing, hOther]
  bound i j hi hMove := by
    have hSome := List.length_pos_iff.mpr hNew
    rw [splice_length, Code.length_spliced (by omega)]
    unfold Code.replacing at hMove
    split at hMove
    · cases hMove
      omega
    · have hPlace := Code.survivor?_eq_some_iff.mp hMove
      omega
  injective i i' j h h' := by
    have hSome := List.length_pos_iff.mpr hNew
    unfold Code.replacing at h h'
    split at h <;> split at h'
    · omega
    · cases h
      have hPlace := Code.survivor?_eq_some_iff.mp h'
      omega
    · cases h'
      have hPlace := Code.survivor?_eq_some_iff.mp h
      omega
    · exact Code.survivor?_injective h h'

end Method

end Dalvik
