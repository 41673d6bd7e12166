import Dalvik.Proofs.Guarding

/-!
Methods in which instructions have been replaced by any number of others. The body is told block by block: one block for
each instruction that there was, in order.
-/

namespace Dalvik

namespace Instruction

variable {τ σ : Type} {i : Instruction τ}

theorem mapRegisters_mapRegisters (f g : Register → Register) (i : Instruction τ) :
    (i.mapRegisters f).mapRegisters g = i.mapRegisters (g ∘ f) := by
  cases i with
  | binary op type dst lhs rhs => cases rhs <;> rfl
  | branch c lhs rhs t => cases rhs <;> rfl
  | fieldGet dst o fld => cases o <;> rfl
  | fieldPut src o fld => cases o <;> rfl
  | invoke kind m args => simp [mapRegisters]
  | _ => rfl

theorem mapRegisters_id (i : Instruction τ) : i.mapRegisters id = i := by
  cases i with
  | binary op type dst lhs rhs => cases rhs <;> rfl
  | branch c lhs rhs t => cases rhs <;> rfl
  | fieldGet dst o fld => cases o <;> rfl
  | fieldPut src o fld => cases o <;> rfl
  | invoke kind m args => simp [mapRegisters]
  | _ => rfl

/-- Places and registers are replaced independently. -/
theorem mapRegisters_mapTargets (f : τ → σ) (g : Register → Register) (i : Instruction τ) :
    (i.mapTargets f).mapRegisters g = (i.mapRegisters g).mapTargets f := by
  cases i with
  | binary op type dst lhs rhs => cases rhs <;> rfl
  | _ => rfl

/-- An instruction that jumps nowhere is not moved. -/
theorem mapTargets_of_targets_eq_nil {i : Instruction Address} (h : i.targets = []) (f : Address → Address) :
    i.mapTargets f = i := by
  rw [mapTargets_congr (g := id) (by simp [h]), mapTargets_id]

end Instruction

namespace Code

variable {code new : Code} {block block' : Nat → Code} {k n q : Nat}

/-- The blocks for the instructions before a position, one after another. -/
def blocks (block : Nat → Code) (n : Nat) : Code := (List.range n).flatMap block

@[simp] theorem blocks_zero : blocks block 0 = [] := rfl

theorem blocks_succ : blocks block (n + 1) = blocks block n ++ block n := by
  simp [blocks, List.range_succ]

theorem blocks_congr (h : ∀ k < n, block k = block' k) : blocks block n = blocks block' n :=
  List.flatMap_congr fun k hk => h k (List.mem_range.mp hk)

theorem map_blocks (f : Instruction Address → Instruction Address) :
    (blocks block n).map f = blocks (fun k => (block k).map f) n := List.map_flatMap

/-- Every instruction is its own block at first. -/
theorem blocks_getElem? (code : Code) (n : Nat) : blocks (fun k => code[k]?.toList) n = code.take n := by
  induction n with
  | zero => simp
  | succ n ih => rw [blocks_succ, ih, List.take_add_one]

theorem length_blocks_mono (h : n ≤ k) : (blocks block n).length ≤ (blocks block k).length := by
  induction k, h using Nat.le_induction with
  | base => exact Nat.le_refl _
  | succ k _ ih =>
      rw [blocks_succ, List.length_append]
      exact Nat.le_add_right_of_le ih

/-- What is before and after a block does not depend on it. -/
theorem exists_blocks_update (block : Nat → Code) (h : q < n) :
    ∃ rest, ∀ new, blocks (Function.update block q new) n = blocks block q ++ new ++ rest := by
  induction n, h using Nat.le_induction with
  | base =>
      refine ⟨[], fun new => ?_⟩
      rw [blocks_succ, Function.update_self, List.append_nil,
        blocks_congr fun k hk => Function.update_of_ne (Nat.ne_of_lt hk) _ _]
  | succ n hq ih =>
      obtain ⟨rest, hRest⟩ := ih
      refine ⟨rest ++ block n, fun new => ?_⟩
      rw [blocks_succ, hRest, Function.update_of_ne (Nat.ne_of_gt hq), List.append_assoc]

/-- The instructions before a position still are alone in their blocks, and as big as they were. -/
def Unexpanded (code : Code) (block : Nat → Code) (q : Nat) : Prop :=
  ∀ k < q, ∀ i, code[k]? = some i → ∃ j, block k = [j] ∧ j.size = i.size

namespace Unexpanded

theorem mono (h : code.Unexpanded block q) (hn : n ≤ q) : code.Unexpanded block n :=
  fun k hk => h k (Nat.lt_of_lt_of_le hk hn)

theorem length_blocks (h : code.Unexpanded block q) (hq : q ≤ code.length) : (blocks block q).length = q := by
  induction q with
  | zero => rfl
  | succ q ih =>
      obtain ⟨j, hBlock, _⟩ := h q (Nat.lt_succ_self q) _ (List.getElem?_eq_getElem hq)
      rw [blocks_succ, List.length_append, ih (h.mono (Nat.le_succ q)) (Nat.le_of_succ_le hq), hBlock, List.length_singleton]

/-- The blocks around one before which nothing has been expanded. -/
theorem exists_blocks (h : code.Unexpanded block q) (hq : q < code.length) (hn : q < n) :
    ∃ before after, before.length = q ∧ blocks block n = before ++ block q ++ after ∧
      ∀ new, blocks (Function.update block q new) n = before ++ new ++ after := by
  obtain ⟨rest, hRest⟩ := exists_blocks_update block hn
  refine ⟨_, rest, h.length_blocks (Nat.le_of_lt hq), ?_, hRest⟩
  rw [← hRest, Function.update_eq_self]

/-- Another block in place of a single instruction is a splice. -/
theorem blocks_update (h : code.Unexpanded block (q + 1)) (hq : q < code.length) (hn : q < n) (new : Code) :
    blocks (Function.update block q new) n = (blocks block n).spliced q 1 new := by
  obtain ⟨before, after, hLength, hBlocks, hUpdate⟩ := (h.mono (Nat.le_succ q)).exists_blocks hq hn
  obtain ⟨j, hBlock, _⟩ := h q (Nat.lt_succ_self q) _ (List.getElem?_eq_getElem hq)
  rw [hUpdate, hBlocks, hBlock, spliced, ← hLength]
  simp

/-- Where the blocks begin after one has taken the place of a single instruction. -/
theorem length_blocks_update (h : code.Unexpanded block (q + 1)) (hq : q < code.length) (hn : n ≤ code.length) (new : Code) :
    (blocks (Function.update block q new) n).length = if n ≤ q then n else (blocks block n).length - 1 + new.length := by
  split
  · rename_i hLess
    rw [blocks_congr fun k hk => Function.update_of_ne (show k ≠ q by omega) _ _]
    exact (h.mono (by omega)).length_blocks hn
  · rename_i hMore
    have hSome : q + 1 ≤ (blocks block n).length := by
      rw [← h.length_blocks hq]
      exact length_blocks_mono (by omega)
    rw [h.blocks_update hq (Nat.lt_of_not_le hMore), length_spliced hSome]

end Unexpanded

end Code

namespace Method

variable {m m' : Method} {label : Address → Address} {block : Nat → Code} {i : Instruction Address} {n q : Nat}

/-- A method has come from another one by putting a block in place of each instruction. What went to an instruction goes to
the start of its block. -/
structure Expanded (m m' : Method) (label : Address → Address) (block : Nat → Code) : Prop where
  code : m'.code = Code.blocks block m.code.length
  place : ∀ n ≤ m.code.length, label (m.code.addressAt n) = m'.code.addressAt (Code.blocks block n).length

namespace Expanded

theorem refl (m : Method) : m.Expanded m id fun n => m.code[n]?.toList where
  code := by rw [Code.blocks_getElem?, List.take_length]
  place n hn := by rw [Code.blocks_getElem?, List.length_take_of_le hn, id]

theorem addLocals (h : m.Expanded m' label block) (count : Nat) :
    m.Expanded (m'.addLocals count) label fun n => (block n).map (Instruction.mapRegisters (shiftRegister m'.locals count)) where
  code := by
    rw [← Code.map_blocks, ← h.code]
    rfl
  place n hn := by rw [← Code.map_blocks, List.length_map, addLocals_addressAt, h.place n hn]

/-- A block that begins where nothing has been expanded before is at the same position. -/
theorem getElem? (h : m.Expanded m' label block) (hSingle : m.code.Unexpanded block n) (hn : n < m.code.length)
    {rest : Code} (hBlock : block n = i :: rest) : m'.code[n]? = some i := by
  obtain ⟨before, after, rfl, hBlocks, _⟩ := hSingle.exists_blocks hn hn
  rw [h.code, hBlocks, hBlock]
  simp

/-- Where nothing has been expanded before, addresses are as they were. -/
theorem addressAt (h : m.Expanded m' label block) (hSingle : m.code.Unexpanded block n) (hn : n ≤ m.code.length) :
    m'.code.addressAt n = m.code.addressAt n := by
  induction n with
  | zero => rw [Code.addressAt_zero, Code.addressAt_zero]
  | succ n ih =>
      have hi := List.getElem?_eq_getElem hn
      obtain ⟨j, hBlock, hSize⟩ := hSingle n (Nat.lt_succ_self n) _ hi
      have hBefore := hSingle.mono (Nat.le_succ n)
      rw [Code.addressAt_succ (h.getElem? hBefore hn hBlock), Code.addressAt_succ hi, hSize, ih hBefore (Nat.le_of_succ_le hn)]

/-- Replacing a single instruction puts another block in its place. -/
theorem splice (h : m.Expanded m' label block) (hSingle : m.code.Unexpanded block (q + 1)) (hq : q < m.code.length)
    (new : Code) :
    m.Expanded (m'.splice q 1 new true).1 ((m'.splice q 1 new true).2.label ∘ label) fun n =>
      (Function.update block q new n).map (Instruction.mapTargets (m'.splice q 1 new true).2.label) where
  code := by
    rw [← Code.map_blocks, hSingle.blocks_update hq hq, ← h.code]
    rfl
  place n hn := by
    have hLength := congrArg List.length h.code
    have hSome : (Code.blocks block (q + 1)).length ≤ _ := Code.length_blocks_mono hq
    have hBound : (Code.blocks block n).length ≤ _ := Code.length_blocks_mono hn
    have hBefore : n ≤ q → (Code.blocks block n).length = n := fun hLess =>
      (hSingle.mono (by omega)).length_blocks hn
    have hAfter : q < n → q + 1 ≤ (Code.blocks block n).length := fun hLess => by
      rw [← hSingle.length_blocks hq]
      exact Code.length_blocks_mono hLess
    rw [hSingle.length_blocks hq] at hSome
    rw [Function.comp_apply, h.place n hn, splice_label_landingPlace (by omega), ← Code.map_blocks, List.length_map,
      hSingle.length_blocks_update hq hn]
    congr 1
    unfold Code.landingPlace Code.landing Code.survivor?
    rw [Code.length_spliced (by omega)]
    grind

end Expanded

end Method

end Dalvik
