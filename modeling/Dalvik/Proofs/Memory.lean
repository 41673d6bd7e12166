import Dalvik.Proofs.Escaping

/-!
Actual arrays. A memory says what the registers hold where an execution only knows something of it, and which arrays
have been made. The instructions on arrays act on it; main statement of each section: if a memory is as a state knows
it, then it still is after both have been changed in the same way.
-/

namespace Dalvik

/-- What a register holds: an array that has been made, by its place in the memory, or any other value. -/
inductive Actual where
  | array (place : Nat)
  | other (v : Value)
  deriving DecidableEq, Repr

/-- What all registers hold, and the arrays that have been made, with their types and elements. -/
structure Memory where
  registers : Register → Actual
  arrays : List (Descriptor × List Value)

/-- A value is one that another one stands for: the same, if that is known. -/
def Value.Admits (w v : Value) : Prop := w.isKnown = true → v = w

/-- A value is read as an integer: as its own, or as any if it has none. -/
def Value.ReadsAs (v : Value) (n : Int32) : Prop := ∀ k, (v.coerce .int).int32? = some k → k = n

namespace Memory

/-- The memory with something else in a register. -/
def put (σ : Memory) (r : Register) (x : Actual) : Memory :=
  { σ with registers := fun q => if q = r then x else σ.registers q }

/-- The memory with one more array, in a register. -/
def make (σ : Memory) (dst : Register) (d : Descriptor) (vs : List Value) : Memory :=
  { σ with arrays := σ.arrays ++ [(d, vs)] }.put dst (.array σ.arrays.length)

/-- The memory with other elements in the array at a place. -/
def write (σ : Memory) (p : Nat) (f : List Value → List Value) : Memory :=
  { σ with arrays := σ.arrays.modify p fun a => (a.1, f a.2) }

open Semantics in
/-- What an instruction does with what there is if it completes normally. New arrays hold zeros, what is stored is seen
as the type of the elements, and data fill the first elements of an array. Other arrays are out of sight: nothing is
known of what is fetched from them. -/
inductive Steps (value : Literal → Value) (σ : Memory) : Instruction Address → Memory → Prop
  | newArray {dst size : Register} {d : Descriptor} {v : Value} {n : Int32} (hSize : σ.registers size = .other v)
      (hReads : v.ReadsAs n) (hSome : 0 ≤ n) :
      Steps value σ (.newArray dst size d) (σ.make dst d (List.replicate n.toInt.toNat (.zero d.elementOrObject)))
  | move {dst src : Register} : Steps value σ (.move dst src) (σ.put dst (σ.registers src))
  | arrayGet {dst array index : Register} {p : Nat} {d : Descriptor} {vs : List Value} {i v : Value} {n : Int32}
      (hArray : σ.registers array = .array p) (hPlace : σ.arrays[p]? = some (d, vs))
      (hIndex : σ.registers index = .other i) (hReads : i.ReadsAs n) (hWithin : isOutside n vs.length = false)
      (hElement : vs[n.toInt.toNat]? = some v) :
      Steps value σ (.arrayGet dst array index) (σ.put dst (.other v))
  | arrayGetElsewhere {dst array index : Register} {u : Value} (hArray : σ.registers array = .other u)
      (hThere : ∀ d, u ≠ .null d) (v : Value) : Steps value σ (.arrayGet dst array index) (σ.put dst (.other v))
  | arrayPut {src array index : Register} {p : Nat} {d : Descriptor} {vs : List Value} {i v : Value} {n : Int32}
      (hArray : σ.registers array = .array p) (hPlace : σ.arrays[p]? = some (d, vs))
      (hIndex : σ.registers index = .other i) (hReads : i.ReadsAs n) (hWithin : isOutside n vs.length = false)
      (hSrc : σ.registers src = .other v) :
      Steps value σ (.arrayPut src array index) (σ.write p fun vs => vs.set n.toInt.toNat (v.coerce d.elementOrObject))
  | arrayPutElsewhere {src array index : Register} {u : Value} (hArray : σ.registers array = .other u)
      (hThere : ∀ d, u ≠ .null d) : Steps value σ (.arrayPut src array index) σ
  | fillArray {array : Register} {data : List Literal} {p : Nat} {d : Descriptor} {vs : List Value}
      (hArray : σ.registers array = .array p) (hPlace : σ.arrays[p]? = some (d, vs))
      (hRoom : data.length ≤ vs.length) :
      Steps value σ (.fillArray array data)
        (σ.write p fun vs => (data.map fun l => (value l).coerce d.elementOrObject) ++ vs.drop data.length)
  | fillArrayElsewhere {array : Register} {data : List Literal} {u : Value} (hArray : σ.registers array = .other u)
      (hThere : ∀ d, u ≠ .null d) : Steps value σ (.fillArray array data) σ

end Memory

/-- The identity of the array that a register holds. -/
def State.arrayAt? (s : State) (r : Register) : Option Nat := (s.peek? r).bind Value.arrayId?

/-- What a state knows of the arrays that registers hold is so: their types, their lengths and their elements. -/
def State.TrueOf (s : State) (σ : Memory) : Prop :=
  ∀ r id d n es, s.peek? r = some (.array id d n es) → ∃ p vs, σ.registers r = .array p ∧ σ.arrays[p]? = some (d, vs) ∧
    (∀ l, n = some l → vs.length = l) ∧ ∀ ws, es = some ws → List.Forall₂ Value.Admits ws vs

/-- What is known of an array is so. Elements are only tracked of arrays of a known length, and are no arrays. -/
structure Value.Tells (n : Option Nat) (es : Option (List Value)) (vs : List Value) : Prop where
  length : ∀ l, n = some l → vs.length = l
  elements : ∀ ws, es = some ws → List.Forall₂ Value.Admits ws vs
  measured : ∀ ws, es = some ws → n = some ws.length ∧ ws.length ≤ Semantics.maxTracked
  plain : ∀ ws, es = some ws → ∀ w ∈ ws, w.arrayId? = none

/-- A register holds something that is no array of the memory, and that a state allows for. -/
def Memory.HoldsOther (σ : Memory) (s : State) (r : Register) : Prop :=
  ∃ v, σ.registers r = .other v ∧ ∀ w, s.peek? r = some w → w.Admits v

/-- A memory is as a state knows it. Two registers hold one array if and only if the state says so. -/
structure Memory.Fits (σ : Memory) (s : State) : Prop where
  array : ∀ r id d n es, s.peek? r = some (.array id d n es) →
    ∃ p vs, σ.registers r = .array p ∧ σ.arrays[p]? = some (d, vs) ∧ Value.Tells n es vs
  other : ∀ r, s.arrayAt? r = none → σ.HoldsOther s r
  shared : ∀ r q i j, s.arrayAt? r = some i → s.arrayAt? q = some j → (i = j ↔ σ.registers r = σ.registers q)
  rest : ∀ v, s.result = some v ∨ s.exception = some v → v.arrayId? = none

namespace Value

variable {v w : Value} {n : Int32}

theorem admits_unknown (d : Descriptor) (v : Value) : (unknown d).Admits v := nofun

theorem admits_refl (v : Value) : v.Admits v := fun _ => rfl

theorem Admits.coerce (h : w.Admits v) (d : Descriptor) : (w.coerce d).Admits (v.coerce d) := by
  cases hKnown : w.isKnown with
  | true =>
      rw [h hKnown]
      exact admits_refl _
  | false =>
      obtain ⟨e, rfl⟩ := eq_unknown_of_isKnown hKnown
      exact admits_unknown d _

/-- What is known of an integer is what it is read as. -/
theorem Admits.readsAs (h : w.Admits v) (hReads : v.ReadsAs n) {k : Int32}
    (hk : (w.coerce .int).int32? = some k) : k = n := by
  cases hKnown : w.isKnown with
  | true => exact hReads k (h hKnown ▸ hk)
  | false =>
      obtain ⟨e, rfl⟩ := eq_unknown_of_isKnown hKnown
      cases hk

theorem array_of_arrayId? {i : Nat} (h : v.arrayId? = some i) : ∃ d n es, v = .array i d n es := by
  cases v with
  | array id d n es => exact ⟨d, n, es, by rw [Option.some.inj h]⟩
  | _ => cases h

end Value

namespace State

variable {s t : State} {r dst : Register} {v : Value}

theorem arrayAt?_of_peek? (h : s.peek? r = some v) : s.arrayAt? r = v.arrayId? := by
  rw [arrayAt?, h]
  rfl

theorem arrayAt?_of_none (h : s.peek? r = none) : s.arrayAt? r = none := by
  rw [arrayAt?, h]
  rfl

theorem exists_array {i : Nat} (h : s.arrayAt? r = some i) :
    ∃ d n es, s.peek? r = some (.array i d n es) := by
  obtain ⟨v, hPeek, hv⟩ := Option.bind_eq_some_iff.mp h
  obtain ⟨d, n, es, rfl⟩ := Value.array_of_arrayId? hv
  exact ⟨d, n, es, hPeek⟩

theorem arrayAt?_assign (h : s.assign dst v = .ok t) (q : Register) :
    t.arrayAt? q = if q = dst then v.arrayId? else s.arrayAt? q := by
  rw [arrayAt?, peek?_assign h]
  split <;> rfl

end State

namespace Memory

variable {σ : Memory} {s t : State} {r dst : Register} {v w : Value} {x : Actual} {p : Nat} {d : Descriptor}
  {n : Option Nat} {es es' : Option (List Value)} {vs : List Value} {f : List Value → List Value}

theorem registers_put (σ : Memory) (r : Register) (x : Actual) (q : Register) :
    (σ.put r x).registers q = if q = r then x else σ.registers q := rfl

theorem arrays_write (σ : Memory) (p q : Nat) (f : List Value → List Value) :
    (σ.write p f).arrays[q]? = (σ.arrays[q]?).map fun a => if p = q then (a.1, f a.2) else a := by
  rw [write, List.getElem?_modify]
  split <;> cases σ.arrays[q]? <;> rfl

/-- It still does if some of what a state knows of it is forgotten. -/
theorem HoldsOther.of_same {τ : Memory} {q : Register} (h : σ.HoldsOther s q) (hRegister : τ.registers r = σ.registers q)
    (hPeek : t.peek? r = s.peek? q ∨ ∃ d, t.peek? r = some (.unknown d)) : τ.HoldsOther t r := by
  obtain ⟨v, hOther, hAdmits⟩ := h
  refine ⟨v, hRegister.trans hOther, fun w hw => ?_⟩
  rcases hPeek with hKept | ⟨d, hUnknown⟩
  · exact hAdmits w (hKept ▸ hw)
  · obtain rfl := Option.some.inj (hUnknown.symm.trans hw)
    exact Value.admits_unknown d v

theorem Fits.trueOf (h : σ.Fits s) : s.TrueOf σ := by
  intro r id d n es hPeek
  obtain ⟨p, vs, hRegister, hPlace, hTells⟩ := h.array r id d n es hPeek
  exact ⟨p, vs, hRegister, hPlace, hTells.length, hTells.elements⟩

/-- An array that has been made is held as an array. -/
theorem Fits.array_of_registers (h : σ.Fits s) (hRegister : σ.registers r = .array p) :
    ∃ id d n es vs, s.peek? r = some (.array id d n es) ∧ σ.arrays[p]? = some (d, vs) ∧ Value.Tells n es vs := by
  cases hHeld : s.arrayAt? r with
  | none =>
      obtain ⟨v, hOther, _⟩ := h.other r hHeld
      cases hOther.symm.trans hRegister
  | some i =>
      obtain ⟨d, n, es, hPeek⟩ := State.exists_array hHeld
      obtain ⟨q, vs, hPlace, hArray, hTells⟩ := h.array r i d n es hPeek
      obtain rfl : q = p := Actual.array.inj (hPlace.symm.trans hRegister)
      exact ⟨i, d, n, es, vs, hPeek, hArray, hTells⟩

/-- Something that is no array of the memory is held as something else. -/
theorem Fits.other_of_registers (h : σ.Fits s) (hRegister : σ.registers r = .other v) :
    s.arrayAt? r = none ∧ ∀ w, s.peek? r = some w → w.Admits v := by
  cases hHeld : s.arrayAt? r with
  | none =>
      obtain ⟨u, hOther, hAdmits⟩ := h.other r hHeld
      obtain rfl : u = v := Actual.other.inj (hOther.symm.trans hRegister)
      exact ⟨rfl, hAdmits⟩
  | some i =>
      obtain ⟨d, n, es, hPeek⟩ := State.exists_array hHeld
      obtain ⟨_, _, hPlace, _⟩ := h.array r i d n es hPeek
      cases hPlace.symm.trans hRegister

/-- Where a state has an array after a change, it has had it before in the same register, and so has the memory. Other
registers hold something that is no array of the memory. -/
theorem Fits.change {τ : Memory} (h : σ.Fits s) (hArrays : τ.arrays = σ.arrays)
    (hHeld : ∀ q, t.arrayAt? q ≠ none → t.peek? q = s.peek? q ∧ τ.registers q = σ.registers q)
    (hOther : ∀ q, t.arrayAt? q = none → τ.HoldsOther t q)
    (hRest : ∀ v, t.result = some v ∨ t.exception = some v → v.arrayId? = none) : τ.Fits t := by
  have hSame {q : Register} {i : Nat} (hi : t.arrayAt? q = some i) :
      s.arrayAt? q = some i ∧ τ.registers q = σ.registers q := by
    obtain ⟨hPeek, hRegister⟩ := hHeld q (by rw [hi]; nofun)
    exact ⟨by rwa [State.arrayAt?, ← hPeek], hRegister⟩
  constructor
  case array =>
    intro q id d n es hPeek
    obtain ⟨hKept, hRegister⟩ := hHeld q (by rw [State.arrayAt?_of_peek? hPeek]; nofun)
    rw [hRegister, hArrays]
    exact h.array q id d n es (hKept ▸ hPeek)
  case other => exact hOther
  case shared =>
    intro q q' i j hi hj
    obtain ⟨hi, hFirst⟩ := hSame hi
    obtain ⟨hj, hSecond⟩ := hSame hj
    rw [hFirst, hSecond]
    exact h.shared q q' i j hi hj
  case rest => exact hRest

/-- The registers are left as they are, but for what is forgotten of something that is no array. -/
theorem Fits.congr (h : σ.Fits s)
    (hSame : ∀ q, t.peek? q = s.peek? q ∨ s.arrayAt? q = none ∧ ∃ d, t.peek? q = some (.unknown d))
    (hRest : ∀ v, t.result = some v ∨ t.exception = some v → v.arrayId? = none) : σ.Fits t := by
  refine h.change rfl (fun q hSome => ⟨?_, rfl⟩) (fun q hNone => ?_) hRest
  · refine (hSame q).resolve_right ?_
    rintro ⟨_, d, hUnknown⟩
    exact hSome (State.arrayAt?_of_peek? hUnknown)
  · rcases hSame q with hKept | ⟨hOld, hUnknown⟩
    · exact (h.other q (by rwa [State.arrayAt?, hKept] at hNone)).of_same rfl (.inl hKept)
    · exact (h.other q hOld).of_same rfl (.inr hUnknown)

/-- The result and the exception of a state do not matter if there are none afterwards. -/
theorem Fits.pass (h : σ.Fits s) : σ.Fits { s with result := none, exception := none } :=
  h.congr (fun _ => .inl rfl) (by simp)

/-- A register is given something that is no array. -/
theorem Fits.put (h : σ.Fits s) (hAssign : s.assign dst w = .ok t) (hPlain : w.arrayId? = none) (hAdmits : w.Admits v) :
    (σ.put dst (.other v)).Fits t := by
  obtain ⟨_, hResult, hException⟩ := State.registers_assign hAssign
  refine h.change rfl (fun q hSome => ?_) (fun q hNone => ?_) (by rw [hResult, hException]; exact h.rest)
  · have hOther : q ≠ dst := by
      rintro rfl
      rw [State.arrayAt?_assign hAssign, if_pos rfl] at hSome
      exact hSome hPlain
    rw [State.peek?_assign hAssign, registers_put, if_neg hOther, if_neg hOther]
    exact ⟨rfl, rfl⟩
  · by_cases hHere : q = dst
    · subst hHere
      refine ⟨v, if_pos rfl, fun u hu => ?_⟩
      rw [State.peek?_assign hAssign, if_pos rfl] at hu
      exact Option.some.inj hu ▸ hAdmits
    · rw [State.arrayAt?_assign hAssign, if_neg hHere] at hNone
      exact (h.other q hNone).of_same (if_neg hHere) (.inl ((State.peek?_assign hAssign q).trans (if_neg hHere)))

/-- A register is given what another one holds. -/
theorem Fits.move (h : σ.Fits s) {src : Register} (hRead : s.read src = .ok w) (hAssign : s.assign dst w = .ok t) :
    (σ.put dst (σ.registers src)).Fits t := by
  by_cases hHeld : s.arrayAt? src = none
  · obtain ⟨v, hRegister, hAdmits⟩ := h.other src hHeld
    rw [hRegister]
    rcases Semantics.peek?_or_unknown hRead with hPeek | rfl
    · exact h.put hAssign (State.arrayAt?_of_peek? hPeek ▸ hHeld) (hAdmits w hPeek)
    · exact h.put hAssign rfl (Value.admits_unknown _ v)
  · have hPeek : s.peek? src = some w := by
      refine (Semantics.peek?_or_unknown hRead).resolve_right ?_
      rintro rfl
      obtain ⟨i, hi⟩ := Option.ne_none_iff_exists'.mp hHeld
      obtain ⟨d, n, es, hPeek⟩ := State.exists_array hi
      obtain ⟨_, hSame⟩ := (State.read_eq_ok_iff s src _).mp hRead
      rw [hPeek] at hSame
      cases hSame
    obtain ⟨_, hResult, hException⟩ := State.registers_assign hAssign
    -- what a register holds afterwards is what some register has held before
    have hFrom (q : Register) : t.peek? q = s.peek? (if q = dst then src else q) := by
      rw [State.peek?_assign hAssign]
      split
      · exact hPeek.symm
      · rfl
    have hPut (q : Register) :
        (σ.put dst (σ.registers src)).registers q = σ.registers (if q = dst then src else q) := by
      rw [registers_put]
      split <;> rfl
    constructor
    case array =>
      intro q id d n es hq
      rw [hPut]
      exact h.array _ id d n es (hFrom q ▸ hq)
    case other =>
      intro q hNone
      exact (h.other _ (by rwa [State.arrayAt?, hFrom] at hNone)).of_same (hPut q) (.inl (hFrom q))
    case shared =>
      intro q q' i j hi hj
      rw [hPut, hPut]
      exact h.shared _ _ i j (by rwa [State.arrayAt?, hFrom] at hi) (by rwa [State.arrayAt?, hFrom] at hj)
    case rest =>
      rw [hResult, hException]
      exact h.rest

theorem Fits.lt_length (h : σ.Fits s) {i : Nat} (hi : s.arrayAt? r = some i) :
    ∃ q, σ.registers r = .array q ∧ q < σ.arrays.length := by
  obtain ⟨d, n, es, hPeek⟩ := State.exists_array hi
  obtain ⟨q, vs, hRegister, hPlace, _⟩ := h.array r i d n es hPeek
  exact ⟨q, hRegister, (List.getElem?_eq_some_iff.mp hPlace).1⟩

/-- An array is made under an identity that no array has. -/
theorem Fits.make (h : σ.Fits s) {id : Nat} (hFresh : ∀ q, s.arrayAt? q ≠ some id)
    (hAssign : s.assign dst (.array id d n es) = .ok t) (hTells : Value.Tells n es vs) :
    (σ.make dst d vs).Fits t := by
  obtain ⟨_, hResult, hException⟩ := State.registers_assign hAssign
  have hRegisters (q : Register) :
      (σ.make dst d vs).registers q = if q = dst then .array σ.arrays.length else σ.registers q := rfl
  have hArrays : (σ.make dst d vs).arrays = σ.arrays ++ [(d, vs)] := rfl
  have hNew {q : Register} {i : Nat} (hi : s.arrayAt? q = some i) :
      i ≠ id ∧ σ.registers q ≠ .array σ.arrays.length := by
    refine ⟨fun hSame => hFresh q (hSame ▸ hi), fun hSame => ?_⟩
    obtain ⟨p, hRegister, hLess⟩ := h.lt_length hi
    obtain rfl := Actual.array.inj (hRegister.symm.trans hSame)
    exact Nat.lt_irrefl _ hLess
  constructor
  case array =>
    intro q i e m fs hPeek
    rw [hRegisters, hArrays]
    rw [State.peek?_assign hAssign] at hPeek
    split
    · rename_i hHere
      rw [if_pos hHere] at hPeek
      cases hPeek
      exact ⟨_, vs, rfl, List.getElem?_concat_length, hTells⟩
    · rename_i hOther
      rw [if_neg hOther] at hPeek
      obtain ⟨p, us, hRegister, hPlace, hOld⟩ := h.array q i e m fs hPeek
      exact ⟨p, us, hRegister, List.getElem?_append_left (List.getElem?_eq_some_iff.mp hPlace).1 ▸ hPlace, hOld⟩
  case other =>
    intro q hNone
    rw [State.arrayAt?_assign hAssign] at hNone
    split at hNone
    · cases hNone
    · rename_i hOther
      exact (h.other q hNone).of_same ((hRegisters q).trans (if_neg hOther))
        (.inl ((State.peek?_assign hAssign q).trans (if_neg hOther)))
  case shared =>
    intro q q' i j hi hj
    rw [State.arrayAt?_assign hAssign] at hi hj
    rw [hRegisters, hRegisters]
    split_ifs at hi hj ⊢
    · obtain rfl := Option.some.inj hi
      obtain rfl := Option.some.inj hj
      simp
    · obtain rfl := Option.some.inj hi
      obtain ⟨hOther, hPlace⟩ := hNew hj
      exact iff_of_false (Ne.symm hOther) (Ne.symm hPlace)
    · obtain rfl := Option.some.inj hj
      obtain ⟨hOther, hPlace⟩ := hNew hi
      exact iff_of_false hOther hPlace
    · exact h.shared q q' i j hi hj
  case rest =>
    rw [hResult, hException]
    exact h.rest

/-- The elements of an array are written in the memory, and in every register that refers to it. -/
theorem Fits.write (h : σ.Fits s) {id : Nat}
    (hWritten : ∀ q, t.peek? q = (s.peek? q).map (State.replaceInstance id (.array id d n es')))
    (hRest : ∀ v, t.result = some v ∨ t.exception = some v → v.arrayId? = none)
    (hApart : ∀ q w, s.peek? q = some w → w.id? = some id → w.arrayId? = some id)
    (hHere : s.arrayAt? r = some id) (hRegister : σ.registers r = .array p) (hPlace : σ.arrays[p]? = some (d, vs))
    (hTells : Value.Tells n es' (f vs)) : (σ.write p f).Fits t := by
  have hHeld (q : Register) : t.arrayAt? q = s.arrayAt? q := by
    rw [State.arrayAt?, hWritten, State.arrayAt?]
    cases hq : s.peek? q with
    | none => rfl
    | some w =>
        rw [Option.map_some, State.replaceInstance]
        split
        · rename_i hSame
          exact (hApart q w hq hSame).symm
        · rfl
  have hSame {q : Register} {i : Nat} (hi : s.arrayAt? q = some i) : i = id ↔ σ.registers q = .array p :=
    hRegister ▸ h.shared q r i id hi hHere
  constructor
  case array =>
    intro q i e m fs hq
    have hi : s.arrayAt? q = some i := hHeld q ▸ State.arrayAt?_of_peek? hq
    obtain ⟨e', m', fs', hOld⟩ := State.exists_array hi
    obtain ⟨p', us, hRegister', hPlace', hTells'⟩ := h.array q i e' m' fs' hOld
    rw [hWritten, hOld, Option.map_some, State.replaceInstance] at hq
    refine ⟨p', ?_⟩
    rw [arrays_write, hPlace', Option.map_some]
    split at hq
    · rename_i hThere
      obtain rfl : i = id := Option.some.inj hThere
      obtain rfl : p' = p := Actual.array.inj (hRegister'.symm.trans ((hSame hi).mp rfl))
      cases hq
      obtain ⟨rfl, rfl⟩ := Prod.mk.inj (Option.some.inj (hPlace.symm.trans hPlace'))
      exact ⟨f vs, hRegister', by rw [if_pos rfl], hTells⟩
    · rename_i hElsewhere
      have hOther : p ≠ p' := by
        rintro rfl
        exact hElsewhere (congrArg some ((hSame hi).mpr hRegister'))
      cases hq
      exact ⟨us, hRegister', by rw [if_neg hOther], hTells'⟩
  case other =>
    intro q hNone
    rw [hHeld] at hNone
    obtain ⟨v, hOther, hAdmits⟩ := h.other q hNone
    refine ⟨v, hOther, fun w hw => ?_⟩
    rw [hWritten] at hw
    obtain ⟨u, hu, rfl⟩ := Option.map_eq_some_iff.mp hw
    unfold State.replaceInstance
    split
    · rename_i hId
      have hArray : u.arrayId? = some id := hApart q u hu hId
      rw [← State.arrayAt?_of_peek? hu, hNone] at hArray
      cases hArray
    · exact hAdmits u hu
  case shared =>
    intro q q' i j hi hj
    exact h.shared q q' i j (hHeld q ▸ hi) (hHeld q' ▸ hj)
  case rest => exact hRest

end Memory

end Dalvik
