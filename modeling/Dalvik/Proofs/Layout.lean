import Dalvik.Method
import Mathlib.Tactic.Common

/-!
The layout of a method body: positions and addresses name the same instructions. Every function that
goes from an address to an instruction is described by the position of the instruction.
-/

namespace Dalvik.Code

theorem addressAt_zero (code : Code) : code.addressAt 0 = 0 := by
  simp [addressAt, size, Instruction.totalSize]

theorem addressAt_cons (i : Instruction Address) (code : Code) (n : Nat) :
    addressAt (i :: code) (n + 1) = i.size + code.addressAt n := by
  simp [addressAt, size, Instruction.totalSize]

theorem addressAt_of_length_le {code : Code} {n : Nat} (h : code.length ≤ n) :
    code.addressAt n = code.size := by
  simp [addressAt, List.take_of_length_le h]

theorem addressAt_length (code : Code) : code.addressAt code.length = code.size :=
  addressAt_of_length_le (Nat.le_refl _)

theorem addressAt_succ {code : Code} {n : Nat} {i : Instruction Address}
    (h : code[n]? = some i) : code.addressAt (n + 1) = code.addressAt n + i.size := by
  induction code generalizing n with
  | nil => simp at h
  | cons j r ih =>
      cases n with
      | zero =>
          obtain rfl : j = i := by simpa using h
          rw [addressAt_cons, addressAt_zero, addressAt_zero, Nat.add_comm]
      | succ n =>
          have hRest := ih (by simpa using h)
          rw [addressAt_cons, addressAt_cons, hRest, Nat.add_assoc]

/-- Addresses grow with positions, up to the end of the body. -/
theorem addressAt_lt {code : Code} {m n : Nat} (h : m < n) (hn : n ≤ code.length) :
    code.addressAt m < code.addressAt n := by
  induction n with
  | zero => omega
  | succ n ih =>
      obtain ⟨i, hi⟩ : ∃ i, code[n]? = some i := ⟨_, List.getElem?_eq_getElem (by omega)⟩
      have hStep := addressAt_succ hi
      have hSize := i.size_pos
      rcases Nat.lt_succ_iff_lt_or_eq.mp h with hLess | rfl
      · have hPrior := ih hLess (by omega)
        grind
      · grind

theorem addressAt_injective {code : Code} {m n : Nat} (hm : m ≤ code.length)
    (hn : n ≤ code.length) (h : code.addressAt m = code.addressAt n) : m = n := by
  rcases Nat.lt_trichotomy m n with hLess | rfl | hMore
  · exact absurd h (Nat.ne_of_lt (addressAt_lt hLess hn))
  · rfl
  · exact absurd h.symm (Nat.ne_of_lt (addressAt_lt hMore hm))

theorem addressAt_le_iff {code : Code} {m n : Nat} (hm : m ≤ code.length)
    (hn : n ≤ code.length) : code.addressAt m ≤ code.addressAt n ↔ m ≤ n := by
  constructor
  · intro h
    by_contra hLess
    exact absurd h (Nat.not_le_of_lt (addressAt_lt (Nat.lt_of_not_le hLess) hm))
  · intro h
    rcases Nat.lt_or_eq_of_le h with hLess | rfl
    · exact Nat.le_of_lt (addressAt_lt hLess hn)
    · exact Nat.le_refl _

theorem addressAt_lt_iff {code : Code} {m n : Nat} (hm : m ≤ code.length)
    (hn : n ≤ code.length) : code.addressAt m < code.addressAt n ↔ m < n := by
  rw [← Nat.not_le, ← Nat.not_le, addressAt_le_iff hn hm]

/-- Sizes are all that addresses depend on. -/
theorem addressAt_map {code : Code} {f : Instruction Address → Instruction Address}
    (h : ∀ i, (f i).size = i.size) (n : Nat) : addressAt (code.map f) n = code.addressAt n := by
  induction code generalizing n with
  | nil => simp [addressAt]
  | cons i r ih =>
      cases n with
      | zero => rw [addressAt_zero, addressAt_zero]
      | succ n => rw [List.map_cons, addressAt_cons, addressAt_cons, ih, h]

theorem indexFrom?_eq_some_iff {a start : Address} {code : Code} {n : Nat} :
    indexFrom? a start code = some n ↔ n < code.length ∧ start + code.addressAt n = a := by
  induction code generalizing start n with
  | nil => simp [indexFrom?]
  | cons i r ih =>
      have hSize := i.size_pos
      unfold indexFrom?
      split
      case isTrue h =>
        cases n with
        | zero => simp [addressAt_zero, h]
        | succ n =>
            rw [addressAt_cons]
            simp
            grind
      case isFalse h =>
        cases n with
        | zero => simp [addressAt_zero, h]
        | succ n =>
            rw [addressAt_cons]
            simp [ih, Nat.add_assoc]

theorem indexOf?_eq_some_iff {code : Code} {a : Address} {n : Nat} :
    code.indexOf? a = some n ↔ n < code.length ∧ code.addressAt n = a := by
  simp [indexOf?, indexFrom?_eq_some_iff]

theorem indexOf?_addressAt {code : Code} {n : Nat} (h : n < code.length) :
    code.indexOf? (code.addressAt n) = some n :=
  indexOf?_eq_some_iff.mpr ⟨h, rfl⟩

theorem seekFrom_eq {a start : Address} {code : Code} :
    seekFrom a start code = ((indexFrom? a start code).map code.drop).getD [] := by
  induction code generalizing start with
  | nil => rfl
  | cons i r ih =>
      unfold seekFrom indexFrom?
      split
      · simp
      · rw [ih]
        cases indexFrom? a (start + i.size) r <;> simp

theorem seek_eq {code : Code} {a : Address} :
    code.seek a = ((code.indexOf? a).map code.drop).getD [] := by
  simp [seek, indexOf?, seekFrom_eq]

/-- An instruction is found at an address by its position. -/
theorem at?_eq_some_iff {code : Code} {a : Address} {i : Instruction Address} :
    code.at? a = some i ↔ ∃ n, code.indexOf? a = some n ∧ code[n]? = some i := by
  unfold at?
  rw [seek_eq]
  cases code.indexOf? a <;> simp

theorem mem_of_at? {code : Code} {a : Address} {i : Instruction Address} (h : code.at? a = some i) :
    i ∈ code := by
  obtain ⟨_, _, hi⟩ := at?_eq_some_iff.mp h
  exact List.mem_of_getElem? hi

theorem at?_addressAt {code : Code} {n : Nat} {i : Instruction Address} (h : code[n]? = some i) :
    code.at? (code.addressAt n) = some i := by
  have hn : n < code.length := (List.getElem?_eq_some_iff.mp h).1
  exact at?_eq_some_iff.mpr ⟨n, indexOf?_addressAt hn, h⟩

theorem isSome_at? {code : Code} {a : Address} :
    (code.at? a).isSome = (code.indexOf? a).isSome := by
  unfold at?
  rw [seek_eq]
  cases h : code.indexOf? a with
  | none => rfl
  | some n =>
      have hn := (indexOf?_eq_some_iff.mp h).1
      simp [hn]

/-- The next address is that of the next position. -/
theorem next?_eq_some_iff {code : Code} {a b : Address} :
    code.next? a = some b ↔
      ∃ n, code.indexOf? a = some n ∧ n + 1 < code.length ∧ b = code.addressAt (n + 1) := by
  unfold next?
  rw [seek_eq]
  cases h : code.indexOf? a with
  | none => simp
  | some n =>
      obtain ⟨hn, hAddress⟩ := indexOf?_eq_some_iff.mp h
      have hStep := addressAt_succ (List.getElem?_eq_getElem hn)
      simp only [Option.map_some, Option.getD_some, Option.some.injEq, exists_eq_left']
      by_cases hNext : n + 1 < code.length
      · rw [List.drop_eq_getElem_cons hn, List.drop_eq_getElem_cons hNext]
        simp only [hNext, true_and, hStep, hAddress, Option.some.injEq]
        exact eq_comm
      · rw [List.drop_eq_getElem_cons hn, List.drop_of_length_le (by omega)]
        simp [hNext]

theorem next?_addressAt {code : Code} {n : Nat} (h : n + 1 < code.length) :
    code.next? (code.addressAt n) = some (code.addressAt (n + 1)) :=
  next?_eq_some_iff.mpr ⟨n, indexOf?_addressAt (by omega), h, rfl⟩

/-- Nothing follows the last instruction. -/
theorem next?_addressAt_last {code : Code} {n : Nat} (h : code.length = n + 1) :
    code.next? (code.addressAt n) = none := by
  refine Option.eq_none_iff_forall_ne_some.mpr fun b hb => ?_
  obtain ⟨k, hk, hLess, _⟩ := next?_eq_some_iff.mp hb
  rw [indexOf?_addressAt (by omega)] at hk
  obtain rfl := Option.some.inj hk
  omega

theorem addressesFrom_getElem? (code : Code) (start : Address) (n : Nat) :
    (Instruction.addressesFrom start code)[n]? =
      if n < code.length then some (start + code.addressAt n) else none := by
  induction code generalizing start n with
  | nil => simp [Instruction.addressesFrom]
  | cons i r ih =>
      cases n with
      | zero => simp [Instruction.addressesFrom, addressAt_zero]
      | succ n => simp [Instruction.addressesFrom, ih, addressAt_cons, Nat.add_assoc]

theorem addresses_getElem? (code : Code) (n : Nat) :
    code.addresses[n]? = if n < code.length then some (code.addressAt n) else none := by
  simp [addresses, addressesFrom_getElem?]

theorem mem_located_iff {code : Code} {a : Address} {i : Instruction Address} :
    (a, i) ∈ code.located ↔ code.at? a = some i := by
  simp only [located, List.mem_iff_getElem?, List.getElem?_zip_eq_some, addresses_getElem?,
    at?_eq_some_iff, indexOf?_eq_some_iff]
  constructor
  · rintro ⟨n, hAddress, hi⟩
    have hn : n < code.length := (List.getElem?_eq_some_iff.mp hi).1
    exact ⟨n, ⟨hn, by simpa [hn] using hAddress⟩, hi⟩
  · rintro ⟨n, ⟨hn, hAddress⟩, hi⟩
    exact ⟨n, by simp [hn, hAddress], hi⟩

end Dalvik.Code
