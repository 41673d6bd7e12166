import Dalvik.Proofs.Memory

/-!
What the instructions on arrays do to a memory and to what a state knows of it. An array is known by an identity that
no other instance has, so that a write reaches all registers that refer to it and no others.
-/

namespace Dalvik

namespace Value

/-- What tells arrays apart: all but their elements, and nothing of other values. -/
def outline : Value → Value
  | array id d n _ => array id d n none
  | _ => int 0

/-- The length of an array whose elements are not tracked. -/
def lostLength? : Value → Option Nat
  | array _ _ n none => n
  | _ => none

theorem outline_of_arrayId? {v : Value} (h : v.arrayId? = none) : v.outline = int 0 := by
  cases v <;> first | rfl | cases h

theorem array_of_outline {v : Value} {i : Nat} {d : Descriptor} {n : Option Nat} (h : v.outline = array i d n none) :
    ∃ es, v = array i d n es := by
  cases v with
  | array id d' n' es =>
      cases h
      exact ⟨es, rfl⟩
  | _ => cases h

end Value

namespace Heap

variable {h k : Heap}

/-- The value that a literal loads on a heap. -/
def loads (h : Heap) (l : Literal) : Value := (h.literal l).1

theorem arrayId?_loads (h : Heap) (l : Literal) : (h.loads l).arrayId? = none := by
  cases l <;> rfl

/-- A literal loads the same value on every later heap. -/
theorem loads_of_grows (l : Literal) (hGrows : (h.literal l).2.Grows k) : k.loads l = h.loads l := by
  cases l with
  | string text =>
      have hKept := hGrows.kept text _ (lookup_internId h text)
      change (k.intern text).1 = (h.intern text).1
      rw [intern, internId_of_some hKept]
      rfl
  | _ => rfl

theorem literals_of_grows (ls : List Literal) (hGrows : (h.literals ls).2.Grows k) :
    (h.literals ls).1 = ls.map k.loads := by
  induction ls generalizing h with
  | nil => rfl
  | cons l ls ih =>
      rw [List.map_cons, loads_of_grows l ((grows_literals _ ls).trans hGrows), ← ih hGrows]
      rfl

end Heap

namespace Value.Tells

variable {n : Option Nat} {es : Option (List Value)} {vs vs' ws : List Value} {v w : Value} {l : Nat}

/-- Nothing is known of elements. -/
theorem lost (h : Tells n es vs) (hLength : vs'.length = vs.length) : Tells n none vs' where
  length l hl := hLength.trans (h.length l hl)
  elements := by simp
  measured := by simp
  plain := by simp

/-- Nothing is known of an array of unknown length. -/
theorem unknown (vs : List Value) : Tells none none vs where
  length := by simp
  elements := by simp
  measured := by simp
  plain := by simp

theorem set (h : Tells n (some ws) vs) (hAdmits : w.Admits v) (hPlain : w.arrayId? = none) (i : Nat) :
    Tells n (some (ws.set i w)) (vs.set i v) where
  length l hl := by rw [List.length_set, h.length l hl]
  elements := by
    rintro _ ⟨⟩
    exact State.forall₂_set (h.elements ws rfl) hAdmits i
  measured := by
    rintro _ ⟨⟩
    rw [List.length_set]
    exact h.measured ws rfl
  plain := by
    rintro _ ⟨⟩ u hu
    rcases List.mem_or_eq_of_mem_set hu with hOld | rfl
    · exact h.plain ws rfl u hOld
    · exact hPlain

/-- A new array holds zeros. -/
theorem new (l : Nat) (d : Descriptor) :
    Tells (some l) (if l ≤ Semantics.maxTracked then some (List.replicate l (zero d)) else none)
      (List.replicate l (zero d)) where
  length m hm := by
    cases hm
    exact List.length_replicate
  elements ws hws := by
    split at hws
    · cases hws
      exact List.forall₂_same.mpr fun u _ => admits_refl u
    · cases hws
  measured ws hws := by
    split at hws
    · rename_i hSmall
      cases hws
      rw [List.length_replicate]
      exact ⟨rfl, hSmall⟩
    · cases hws
  plain ws hws u hu := by
    split at hws
    · cases hws
      rw [List.eq_of_mem_replicate hu]
      exact arrayId?_of_ids (ids_zero d) (mem_parts_self _)
    · cases hws

theorem length_getD (h : Tells (some l) es vs) (z : Value) : (es.getD (List.replicate l z)).length = l := by
  cases es with
  | none => exact List.length_replicate
  | some ws => exact (Option.some.inj (h.measured ws rfl).1).symm

/-- The first elements are overwritten. Where nothing is known of the others there must be none. -/
theorem fill (h : Tells (some l) es vs) {us : List Value} (hRoom : us.length ≤ l) (hWhole : es = none → l ≤ us.length)
    (hTracked : l ≤ Semantics.maxTracked) (hPlain : ∀ u ∈ us, u.arrayId? = none) (z : Value) :
    Tells (some l) (some (Semantics.overwrite (es.getD (List.replicate l z)) us)) (us ++ vs.drop us.length) := by
  have hLength : vs.length = l := h.length l rfl
  have hOld : (es.getD (List.replicate l z)).length = l := h.length_getD z
  have hRest : List.Forall₂ Admits ((es.getD (List.replicate l z)).drop us.length) (vs.drop us.length) := by
    cases es with
    | none =>
        rw [List.drop_of_length_le (hOld.le.trans (hWhole rfl)), List.drop_of_length_le (hLength.le.trans (hWhole rfl))]
        exact .nil
    | some ws => exact List.forall₂_drop _ (h.elements ws rfl)
  have hPlainRest : ∀ u ∈ (es.getD (List.replicate l z)).drop us.length, u.arrayId? = none := by
    intro u hu
    cases es with
    | none =>
        rw [List.drop_of_length_le (hOld.le.trans (hWhole rfl))] at hu
        cases hu
    | some ws => exact h.plain ws rfl u (List.mem_of_mem_drop hu)
  have hOverwrite : Semantics.overwrite (es.getD (List.replicate l z)) us =
      us ++ (es.getD (List.replicate l z)).drop us.length := by
    rw [Semantics.overwrite, List.take_of_length_le (by rw [hOld]; exact hRoom)]
  constructor
  case length =>
    rintro _ ⟨⟩
    rw [List.length_append, List.length_drop, hLength]
    omega
  case elements =>
    rintro _ ⟨⟩
    rw [hOverwrite]
    exact List.rel_append (List.forall₂_same.mpr fun u _ => admits_refl u) hRest
  case measured =>
    rintro _ ⟨⟩
    rw [Semantics.length_overwrite, hOld]
    exact ⟨rfl, hTracked⟩
  case plain =>
    rintro _ ⟨⟩ u hu
    rw [hOverwrite] at hu
    exact (List.mem_append.mp hu).elim (hPlain u) (hPlainRest u)

end Value.Tells

/-- An array whose elements are not tracked is filled only as a whole, unless it is too long for them to be tracked
at all. -/
def Instruction.FillsWhole {τ : Type} (i : Instruction τ) (pre : State) : Prop :=
  match i with
  | .fillArray array data =>
    ∀ l ∈ (pre.peek? array).bind Value.lostLength?, l ≤ Semantics.maxTracked → l ≤ data.length
  | _ => True

instance {τ : Type} (i : Instruction τ) (pre : State) : Decidable (i.FillsWhole pre) := by
  rcases i with ⟨⟩ <;> dsimp only [Instruction.FillsWhole] <;> infer_instance

namespace Memory

open Semantics Ledger

variable {value : Literal → Value} {σ τ : Memory} {pre : State} {r : Register} {L : Ledger} {h : Heap}

section

variable (hFits : σ.Fits pre)

include hFits

theorem Fits.readInt {v : Value} {n k : Int32} {x : Option Int32} (hRead : Semantics.readInt pre r = .ok x)
    (hRegister : σ.registers r = .other v) (hReads : v.ReadsAs n) (hk : x = some k) : k = n := by
  unfold Semantics.readInt at hRead
  cases hValue : pre.read r with
  | error e =>
      rw [hValue] at hRead
      cases hRead
  | ok w =>
      rw [hValue] at hRead
      obtain rfl := Except.ok.inj hRead
      rcases peek?_or_unknown hValue with hPeek | rfl
      · exact ((hFits.other_of_registers hRegister).2 w hPeek).readsAs hReads hk
      · cases hk

/-- What is read from a register that holds an array of the memory is the array. -/
theorem Fits.read_array {p : Nat} {v : Value} (hRegister : σ.registers r = .array p) (hRead : pre.read r = .ok v) :
    ∃ id d n es vs, v = .array id d n es ∧ pre.peek? r = some (.array id d n es) ∧ σ.arrays[p]? = some (d, vs) ∧
      Value.Tells n es vs := by
  obtain ⟨id, d, n, es, vs, hPeek, hPlace, hTells⟩ := hFits.array_of_registers hRegister
  refine ⟨id, d, n, es, vs, ?_, hPeek, hPlace, hTells⟩
  obtain ⟨_, hSame⟩ := (State.read_eq_ok_iff pre r v).mp hRead
  rw [← hSame, hPeek]
  rfl

/-- What is read from another register is no array, and stands for what that holds. -/
theorem Fits.read_other {u v : Value} (hRegister : σ.registers r = .other u) (hRead : pre.read r = .ok v) :
    v.arrayId? = none ∧ v.Admits u := by
  obtain ⟨hNone, hAdmits⟩ := hFits.other_of_registers hRegister
  rcases peek?_or_unknown hRead with hPeek | rfl
  · exact ⟨State.arrayAt?_of_peek? hPeek ▸ hNone, hAdmits v hPeek⟩
  · exact ⟨rfl, Value.admits_unknown _ u⟩

end

/-- An instance with the identity of an array is this array, with the same type and length. -/
theorem array_of_lists (hPre : pre.All (L.Lists Value.outline)) {id : Nat} {d : Descriptor} {n : Option Nat}
    {es : Option (List Value)} (hArray : pre.peek? r = some (.array id d n es)) {q : Register} {w : Value}
    (hPeek : pre.peek? q = some w) (hId : w.id? = some id) : ∃ es', w = .array id d n es' := by
  have hListed := hPre.registers _ (mem_registers_of_peek? hArray) _ (Value.mem_parts_self _) id rfl
  have hSame := hPre.registers _ (mem_registers_of_peek? hPeek) _ (Value.mem_parts_self _) id hId
  exact Value.array_of_outline (Option.some.inj (hSame.symm.trans hListed))

/-- No array has the identity that is handed out next. -/
theorem fresh_of_lists (hPre : pre.All (L.Lists Value.outline)) (hBelow : L.Fits Value.outline h) (q : Register) :
    pre.arrayAt? q ≠ some h.next := by
  intro hHeld
  obtain ⟨d, n, es, hPeek⟩ := State.exists_array hHeld
  have hListed := hPre.registers _ (mem_registers_of_peek? hPeek) _ (Value.mem_parts_self _) _ rfl
  exact Nat.lt_irrefl _ (hBelow.below _ _ hListed)

/-- A write to an array that is known by a register. -/
theorem Fits.update (hFits : σ.Fits pre) (hPre : pre.All (L.Lists Value.outline)) {p id : Nat} {d : Descriptor}
    {n : Option Nat} {es es' : Option (List Value)} {vs : List Value} {f : List Value → List Value}
    (hPeek : pre.peek? r = some (.array id d n es)) (hRegister : σ.registers r = .array p)
    (hPlace : σ.arrays[p]? = some (d, vs)) (hTells : Value.Tells n es' (f vs)) :
    (σ.write p f).Fits (State.updateInstance { pre with result := none, exception := none } id (.array id d n es')) := by
  refine hFits.pass.write (fun q => State.peek?_updateInstance ..) (by simp [State.updateInstance]) (fun q w hw hId => ?_)
    (State.arrayAt?_of_peek? hPeek) hRegister hPlace hTells
  obtain ⟨_, rfl⟩ := array_of_lists hPre hPeek hw hId
  rfl

/-- A write to an array that no register tracks the elements of. -/
theorem Fits.unseen (hFits : σ.Fits pre) (hPre : pre.All (L.Lists Value.outline)) {p id : Nat} {d : Descriptor}
    {n : Option Nat} {es : Option (List Value)} {vs : List Value} {f : List Value → List Value}
    (hPeek : pre.peek? r = some (.array id d n es)) (hRegister : σ.registers r = .array p)
    (hPlace : σ.arrays[p]? = some (d, vs)) (hTells : Value.Tells n none (f vs))
    (hUntracked : ∀ l, n = some l → Semantics.maxTracked < l) :
    (σ.write p f).Fits { pre with result := none, exception := none } := by
  refine hFits.pass.write (fun q => ?_) (by simp) (fun q w hw hId => ?_) (State.arrayAt?_of_peek? hPeek) hRegister
    hPlace hTells
  · change pre.peek? q = (pre.peek? q).map _
    cases hq : pre.peek? q with
    | none => rfl
    | some w =>
        rw [Option.map_some, State.replaceInstance]
        split
        · rename_i hId
          obtain ⟨es', rfl⟩ := array_of_lists hPre hPeek hq hId
          obtain ⟨_, _, _, _, hTells'⟩ := hFits.array q _ _ _ _ hq
          cases es' with
          | none => rfl
          | some ws =>
              obtain ⟨rfl, hSmall⟩ := hTells'.measured ws rfl
              exact absurd hSmall (Nat.not_le_of_lt (hUntracked _ rfl))
        · rfl
  · obtain ⟨_, rfl⟩ := array_of_lists hPre hPeek hw hId
    rfl

end Memory

namespace Semantics

open Memory

variable {value : Literal → Value} {σ τ : Memory} {pre : State} {L : Ledger} {s : Supply}

theorem slot_eq_outside {x : Option Int32} {n : Option Nat} {es : Option (List Value)} (h : slot x n es = .outside) :
    ∃ k l, x = some k ∧ n = some l ∧ isOutside k l = true := by
  unfold slot at h
  split at h
  · cases h
  · rename_i k
    split at h
    · rename_i hOutside
      cases n with
      | none => cases hOutside
      | some l => exact ⟨k, l, rfl, rfl, hOutside⟩
    · split at h <;> cases h

theorem index_of_slot {x : Option Int32} {n : Option Nat} {es : Option (List Value)} {k : Int32} {ws : List Value}
    (h : slot x n es = .tracked k ws) : x = some k := by
  unfold slot at h
  split at h
  · cases h
  · split at h
    · cases h
    · split at h <;> cases h
      rfl

theorem position_eq_ok {k : Int32} {ws : List Value} {m : Nat} (h : position k ws = .ok m) : m = k.toInt.toNat := by
  unfold position at h
  split at h
  · cases h
  · exact (Except.ok.inj h).symm

/-- What is known of an index that is within the bounds of an array is where it points to, if anything. -/
theorem slot_cases (hFits : σ.Fits pre) {index : Register} {v : Value} {n : Int32} {x : Option Int32}
    (hRead : readInt pre index = .ok x) (hIndex : σ.registers index = .other v) (hReads : v.ReadsAs n)
    {m : Option Nat} {es : Option (List Value)} {vs : List Value} (hTells : Value.Tells m es vs)
    (hWithin : isOutside n vs.length = false) :
    slot x m es = .untracked ∨ ∃ ws, es = some ws ∧ slot x m es = .tracked n ws := by
  cases hSlot : slot x m es with
  | outside =>
      obtain ⟨k, l, rfl, rfl, hOutside⟩ := slot_eq_outside hSlot
      obtain rfl := hFits.readInt hRead hIndex hReads rfl
      rw [hTells.length l rfl, hOutside] at hWithin
      cases hWithin
  | tracked k ws =>
      obtain rfl := index_of_slot hSlot
      obtain rfl := hFits.readInt hRead hIndex hReads rfl
      obtain ⟨rfl, _⟩ := slot_eq_tracked hSlot
      exact .inr ⟨ws, rfl, rfl⟩
  | untracked => exact .inl rfl

theorem newArray_fits (hFits : σ.Fits pre) (hFresh : ∀ q, pre.arrayAt? q ≠ some s.heap.next) {dst size : Register}
    {type : Descriptor} (hStep : σ.Steps value (.newArray dst size type) τ) :
    Run.Ends (newArray pre { pre with result := none, exception := none } dst size type) s
      (fun o _ => τ.Fits o.post) fun _ _ => True := by
  cases hStep with
  | newArray hSize hReads hSome =>
      have hMake {n : Option Nat} {es : Option (List Value)} {vs : List Value} (hazard : Option Value)
          (hTells : Value.Tells n es vs) : Ends (Outcome.assign { pre with result := none, exception := none } dst
            (.array s.heap.next type n es) hazard) (fun o => (σ.make dst type vs).Fits o.post) fun _ => True := by
        unfold Outcome.assign
        rw [ends_map]
        exact ends_of_eq fun t hAssign => hFits.pass.make hFresh hAssign hTells
      unfold newArray
      rw [Run.ends_bind, Run.ends_ofExcept]
      refine ends_of_eq fun x hRead => ?_
      cases x with
      | none =>
          rw [Run.ends_bind, Run.ends_onHeap, Run.ends_ofExcept]
          exact hMake _ (.unknown _)
      | some k =>
          obtain rfl := hFits.readInt hRead hSize hReads rfl
          dsimp only
          rw [if_neg (Int32.not_lt.mpr hSome), Run.ends_bind, Run.ends_onHeap, Run.ends_ofExcept]
          exact hMake _ (.new _ _)

theorem exists_admits {ws vs : List Value} (h : List.Forall₂ Value.Admits ws vs) {m : Nat} {v : Value}
    (hv : vs[m]? = some v) : ∃ w, ws[m]? = some w ∧ w.Admits v := by
  induction h generalizing m with
  | nil => cases hv
  | cons hHead _ ih =>
      cases m with
      | zero =>
          obtain rfl := Option.some.inj hv
          exact ⟨_, rfl, hHead⟩
      | succ m => exact ih hv

theorem arrayGet_fits (hFits : σ.Fits pre) {dst array index : Register}
    (hStep : σ.Steps value (.arrayGet dst array index) τ) :
    Ends (arrayGet pre { pre with result := none, exception := none } dst array index) (fun o => τ.Fits o.post)
      fun _ => True := by
  have hPut {w v : Value} (hazard : Option Value) (hPlain : w.arrayId? = none) (hAdmits : w.Admits v) :
      Ends (Outcome.assign { pre with result := none, exception := none } dst w hazard)
        (fun o => (σ.put dst (.other v)).Fits o.post) fun _ => True := by
    unfold Outcome.assign
    rw [ends_map]
    exact ends_of_eq fun t hAssign => hFits.pass.put hAssign hPlain hAdmits
  unfold arrayGet
  rw [ends_bind]
  refine ends_of_eq fun x hRead => ?_
  rw [ends_bind]
  refine ends_of_eq fun u hArray => ?_
  cases hStep with
  | @arrayGet _ _ _ p d vs i v n hRegister hPlace hIndex hReads hWithin hElement =>
      obtain ⟨id, d', m, es, us, rfl, _, hPlace', hTells⟩ := hFits.read_array hRegister hArray
      obtain ⟨rfl, rfl⟩ := Prod.mk.inj (Option.some.inj (hPlace'.symm.trans hPlace))
      dsimp only
      rcases slot_cases hFits hRead hIndex hReads hTells hWithin with hSlot | ⟨ws, rfl, hSlot⟩ <;> rw [hSlot]
      · exact hPut _ rfl (Value.admits_unknown _ v)
      · dsimp only
        rw [ends_bind]
        refine ends_of_eq fun m hPosition => ?_
        obtain rfl := position_eq_ok hPosition
        obtain ⟨w, hw, hAdmits⟩ := exists_admits (hTells.elements ws rfl) hElement
        rw [hw]
        exact hPut _ (hTells.plain ws rfl w (List.mem_of_getElem? hw)) hAdmits
  | arrayGetElsewhere hRegister hThere v =>
      obtain ⟨hPlain, hAdmits⟩ := hFits.read_other hRegister hArray
      split
      · exact absurd (hAdmits rfl) (hThere _)
      · cases hPlain
      · exact hPut _ rfl (Value.admits_unknown _ v)

theorem arrayPut_fits (hFits : σ.Fits pre) (hPre : pre.All (L.Lists Value.outline)) {src array index : Register}
    (hStep : σ.Steps value (.arrayPut src array index) τ) :
    Ends (arrayPut pre { pre with result := none, exception := none } src array index) (fun o => τ.Fits o.post)
      fun _ => True := by
  unfold arrayPut
  rw [ends_bind]
  refine ends_of_eq fun w hSrc => ?_
  rw [ends_bind]
  refine ends_of_eq fun x hRead => ?_
  rw [ends_bind]
  refine ends_of_eq fun u hArray => ?_
  cases hStep with
  | @arrayPut _ _ _ p d vs i v n hRegister hPlace hIndex hReads hWithin hStored =>
      obtain ⟨id, d', m, es, us, rfl, hPeek, hPlace', hTells⟩ := hFits.read_array hRegister hArray
      obtain ⟨rfl, rfl⟩ := Prod.mk.inj (Option.some.inj (hPlace'.symm.trans hPlace))
      obtain ⟨hPlain, hAdmits⟩ := hFits.read_other hStored hSrc
      dsimp only
      rcases slot_cases hFits hRead hIndex hReads hTells hWithin with hSlot | ⟨ws, rfl, hSlot⟩ <;> rw [hSlot]
      · exact hFits.update hPre hPeek hRegister hPlace (hTells.lost List.length_set)
      · dsimp only
        rw [ends_bind]
        refine ends_of_eq fun m hPosition => ?_
        obtain rfl := position_eq_ok hPosition
        exact hFits.update hPre hPeek hRegister hPlace
          (hTells.set (hAdmits.coerce _) (Value.arrayId?_coerce hPlain _) _)
  | arrayPutElsewhere hRegister hThere =>
      obtain ⟨hPlain, hAdmits⟩ := hFits.read_other hRegister hArray
      split
      · exact absurd (hAdmits rfl) (hThere _)
      · cases hPlain
      · exact hFits.pass

theorem fillArray_fits {k : Heap} (hFits : σ.Fits pre) (hPre : pre.All (L.Lists Value.outline)) {array : Register}
    {data : List Literal} (hWhole : (Instruction.fillArray array data : Instruction Address).FillsWhole pre)
    (hStep : σ.Steps k.loads (.fillArray array data) τ) :
    Run.Ends (fillArray pre { pre with result := none, exception := none } array data) s
      (fun o t => t.heap.Grows k → τ.Fits o.post) fun _ _ => True := by
  unfold fillArray
  rw [Run.ends_bind, Run.ends_ofExcept]
  refine ends_of_eq fun u hArray => ?_
  cases hStep with
  | @fillArray _ _ p d vs hRegister hPlace hRoom =>
      obtain ⟨id, d', n, es, us, rfl, hPeek, hPlace', hTells⟩ := hFits.read_array hRegister hArray
      obtain ⟨rfl, rfl⟩ := Prod.mk.inj (Option.some.inj (hPlace'.symm.trans hPlace))
      have hLength : (data.map fun l => (k.loads l).coerce d'.elementOrObject).length = data.length := List.length_map _
      have hLost : Value.Tells n none ((data.map fun l => (k.loads l).coerce d'.elementOrObject) ++ us.drop data.length) :=
        hTells.lost (by rw [List.length_append, hLength, List.length_drop]; omega)
      cases n with
      | none => exact fun _ => hFits.unseen hPre hPeek hRegister hPlace hLost nofun
      | some l =>
          obtain rfl := hTells.length l rfl
          dsimp only
          rw [if_neg (Nat.not_lt_of_le hRoom)]
          split
          · rename_i hSmall
            rw [Run.ends_bind, Run.ends_onHeap, hTells.length_getD, List.take_of_length_le hRoom]
            intro hGrows
            rw [Heap.literals_of_grows data hGrows, List.map_map]
            refine hFits.update hPre hPeek hRegister hPlace ?_
            rw [← hLength] at hRoom ⊢
            refine hTells.fill hRoom (fun hNone => ?_) hSmall (fun w hw => ?_) _
            · subst hNone
              rw [hLength]
              exact hWhole us.length (by rw [hPeek]; rfl) hSmall
            · obtain ⟨l, _, rfl⟩ := List.mem_map.mp hw
              exact Value.arrayId?_coerce (Heap.arrayId?_loads k l) _
          · rename_i hLong
            refine fun _ => hFits.unseen hPre hPeek hRegister hPlace hLost ?_
            rintro _ ⟨⟩
            exact Nat.lt_of_not_le hLong
  | fillArrayElsewhere hRegister hThere =>
      obtain ⟨hPlain, hAdmits⟩ := hFits.read_other hRegister hArray
      split
      · exact absurd (hAdmits rfl) (hThere _)
      · cases hPlain
      · cases hPlain
      · exact fun _ => hFits.pass

end Semantics

/-- The instructions that a memory is changed by as they say. -/
def Instruction.handlesArrays {τ : Type} : Instruction τ → Bool
  | newArray .. | move .. | arrayGet .. | arrayPut .. | fillArray .. => true
  | _ => false

namespace Semantics.Context

variable {c : Context} {a : Address} {i : Instruction Address} {σ τ : Memory} {pre : State} {L : Ledger} {s t : Supply}
  {o : Outcome} {k : Heap}

/-- What an instruction on arrays does to a memory it does to what is known of it. -/
theorem execute_fits (hFits : σ.Fits pre) (hBelow : L.Fits Value.outline s.heap)
    (hPre : pre.All (L.Lists Value.outline)) (hWhole : i.FillsWhole pre) (hStep : σ.Steps k.loads i τ)
    (hDoes : c.execute a i pre { pre with result := none, exception := none } s = (.ok o, t))
    (hGrows : t.heap.Grows k) : τ.Fits o.post := by
  have hPure {r : Except Error Outcome} (h : Ends r (fun o => τ.Fits o.post) fun _ => True)
      (hDoes : Run.ofExcept r s = (.ok o, t)) : τ.Fits o.post := h.of_eq_ok (congrArg Prod.fst hDoes)
  cases i with
  | newArray dst size type =>
      have hEnds := newArray_fits hFits (Memory.fresh_of_lists hPre hBelow) hStep
      unfold Run.Ends at hEnds
      change newArray pre _ dst size type s = _ at hDoes
      rwa [hDoes] at hEnds
  | move dst src =>
      cases hStep
      refine hPure ?_ hDoes
      rw [Dalvik.ends_bind]
      refine ends_of_eq fun v hRead => ?_
      unfold Outcome.assign
      rw [ends_map]
      exact ends_of_eq fun u hAssign => hFits.pass.move hRead hAssign
  | arrayGet dst array index => exact hPure (arrayGet_fits hFits hStep) hDoes
  | arrayPut src array index => exact hPure (arrayPut_fits hFits hPre hStep) hDoes
  | fillArray array data =>
      have hEnds := fillArray_fits (s := s) hFits hPre hWhole hStep
      unfold Run.Ends at hEnds
      change fillArray pre _ array data s = _ at hDoes
      rw [hDoes] at hEnds
      exact hEnds hGrows
  | _ => cases hStep

end Semantics.Context

end Dalvik
