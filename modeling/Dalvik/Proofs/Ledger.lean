import Dalvik.Proofs.UpkeptRuns

/-!
Which value stands for an instance. A ledger says so for the instances that have been met, and the values that a
run holds agree with it. What is looked at of a value may leave out what can change of its instance.
-/

namespace Dalvik

namespace Value

mutual

/-- The values that can be fetched out of an array, also those in arrays that have been fetched. -/
def inner : Value → List Value
  | array _ _ _ (some vs) => allParts vs
  | _ => []

/-- The values in a list, and those that can be fetched out of them. -/
def allParts : List Value → List Value
  | [] => []
  | v :: vs => v :: (inner v ++ allParts vs)

end

/-- A value and those that can be fetched out of it. -/
def parts (v : Value) : List Value := v :: v.inner

variable {u v : Value} {vs : List Value}

theorem mem_allParts : u ∈ allParts vs ↔ ∃ v ∈ vs, u ∈ v.parts := by
  induction vs with
  | nil => simp [allParts]
  | cons v vs ih => simp [allParts, parts, ih, or_assoc]

theorem mem_parts_self (v : Value) : v ∈ v.parts := .head _

theorem mem_inner_array {id : Nat} {d : Descriptor} {n : Option Nat} {es : Option (List Value)} :
    u ∈ (array id d n es).inner ↔ ∃ vs, es = some vs ∧ ∃ v ∈ vs, u ∈ v.parts := by
  cases es with
  | none => simp [inner]
  | some vs => simp [inner, mem_allParts]

/-- What of an instance never changes: all but the elements of an array. -/
def shell : Value → Value
  | array id d n _ => array id d n none
  | v => v

/-- Without instances in it nothing in a value has an identity. -/
theorem id?_of_ids (hv : v.ids = []) (hu : u ∈ v.parts) : u.id? = none := by
  rcases List.mem_cons.mp hu with rfl | hu
  · cases hId : u.id? with
    | none => rfl
    | some i => exact absurd (State.mem_ids_of_id? hId) (by simp [hv])
  · cases v with
    | array id d n es => cases es <;> cases hv
    | _ => cases hu

end Value

/-- The value that stands for an instance, as far as it is looked at. -/
abbrev Ledger := Nat → Option Value

namespace Ledger

variable {look : Value → Value} {L L' : Ledger} {h k : Heap} {i : Nat} {v w : Value}

/-- A value and all that can be fetched out of it are in the ledger. -/
def Lists (look : Value → Value) (L : Ledger) (v : Value) : Prop :=
  ∀ u ∈ v.parts, ∀ i, u.id? = some i → L i = some (look u)

/-- A ledger of instances that a heap has handed out. The literals of a text are listed as such. -/
structure Fits (look : Value → Value) (L : Ledger) (h : Heap) : Prop where
  sound : h.Sound
  below : ∀ i v, L i = some v → i < h.next
  interned : ∀ i v t, L i = some v → h.interned.lookup t = some i → v = look (.string i t)

theorem Fits.grow (hFits : Fits look L h) (hGrows : h.Grows k) : Fits look L k where
  sound := hGrows.sound hFits.sound
  below i v hv := Nat.lt_of_lt_of_le (hFits.below i v hv) hGrows.next
  interned i v t hv ht := by
    rcases hGrows.fresh t i ht with hOld | hNew
    · exact hFits.interned i v t hv hOld
    · exact absurd (hFits.below i v hv) (Nat.not_lt_of_le hNew)

/-- The ledger with an entry for an instance. -/
def note (L : Ledger) (i : Nat) (v : Value) : Ledger := fun j => if j = i then some v else L j

theorem note_self (L : Ledger) (i : Nat) (v : Value) : L.note i v i = some v := if_pos rfl

theorem note_of_ne (L : Ledger) {j : Nat} (hj : j ≠ i) (v : Value) : L.note i v j = L j := if_neg hj

theorem Fits.note (hFits : Fits look L h) (hi : i < h.next)
    (hInterned : ∀ t, h.interned.lookup t = some i → v = look (.string i t)) : Fits look (L.note i v) h where
  sound := hFits.sound
  below j u hu := by
    by_cases hj : j = i
    · exact hj ▸ hi
    · exact hFits.below j u (note_of_ne L hj v ▸ hu)
  interned j u t hu ht := by
    by_cases hj : j = i
    · subst hj
      rw [note_self] at hu
      exact Option.some.inj hu ▸ hInterned t ht
    · exact hFits.interned j u t (note_of_ne L hj v ▸ hu) ht

/-- An entry for an instance that has had none, or the same one, leaves all others. -/
theorem note_extends (hNew : ∀ u, L i = some u → u = v) (j : Nat) (u : Value) (hu : L j = some u) :
    L.note i v j = some u := by
  by_cases hj : j = i
  · subst hj
    rw [note_self, hNew u hu]
  · rw [note_of_ne L hj, hu]

/-- An entry lists its value, if what is in that is listed and not the same instance. -/
theorem lists_note (hv : v.id? = some i)
    (hInner : ∀ u ∈ v.inner, ∀ j, u.id? = some j → j ≠ i ∧ L j = some (look u)) :
    Lists look (L.note i (look v)) v := by
  intro u hu j hj
  rcases List.mem_cons.mp hu with rfl | hu
  · obtain rfl := Option.some.inj (hv.symm.trans hj)
    exact note_self _ _ _
  · obtain ⟨hOther, hListed⟩ := hInner u hu j hj
    rw [note_of_ne L hOther, hListed]

/-- An entry does not matter where its instance is not met. -/
theorem Lists.note (h : Lists look L w) (hApart : ∀ u ∈ w.parts, u.id? ≠ some i) :
    Lists look (L.note i v) w := by
  intro u hu j hj
  have hOther : j ≠ i := fun hSame => hApart u hu (hSame ▸ hj)
  rw [note_of_ne L hOther, h u hu j hj]

theorem Lists.element {id : Nat} {d : Descriptor} {n : Option Nat} {vs : List Value}
    (h : Lists look L (.array id d n (some vs))) (hv : v ∈ vs) : Lists look L v :=
  fun u hu i hi => h u (.tail _ (Value.mem_inner_array.mpr ⟨vs, rfl, v, hv, hu⟩)) i hi

/-- A new instance has nothing with an identity in it. -/
theorem id?_of_makes (hMakes : h.Makes v) : v.id? = some h.next ∧ ∀ u ∈ v.inner, u.id? = none := by
  cases hMakes with
  | tracked d vs hvs =>
      refine ⟨rfl, fun u hu => ?_⟩
      obtain ⟨_, hSame, w, hw, hu⟩ := Value.mem_inner_array.mp hu
      cases hSame
      exact Value.id?_of_ids (hvs w hw) hu
  | _ => exact ⟨rfl, by simp [Value.inner]⟩

end Ledger

open Ledger

/-- The values of a run are listed in a ledger that grows with the heap. -/
def Discipline.ledger (look : Value → Value) : Discipline Ledger where
  Extends L L' := ∀ i v, L i = some v → L' i = some v
  Holds := Lists look
  Fits := Ledger.Fits look
  refl _ _ _ h := h
  trans h h' i v hv := h' i v (h i v hv)
  extend h hv u hu i hi := h i _ (hv u hu i hi)
  grow := Fits.grow
  plain hv u hu i hi := by
    rw [Value.id?_of_ids hv hu] at hi
    cases hi
  element := Lists.element
  make {L h v} hFits hMakes := by
    obtain ⟨hId, hInner⟩ := id?_of_makes hMakes
    refine ⟨L.note h.next (look v), note_extends fun u hu => ?_, ?_, ?_⟩
    · exact absurd (hFits.below _ u hu) (Nat.lt_irrefl _)
    · refine (hFits.grow (Heap.grows_alloc h)).note (Nat.lt_succ_self _) fun t ht => ?_
      exact absurd (hFits.sound.below t _ ht) (Nat.lt_irrefl _)
    · refine lists_note hId fun u hu j hj => ?_
      rw [hInner u hu] at hj
      cases hj
  intern {L h} text hFits := by
    have hGrown := hFits.grow (Heap.grows_internId h text)
    have hLookup := Heap.lookup_internId h text
    refine ⟨L.note (h.internId text).1 (look (.string (h.internId text).1 text)), note_extends fun u hu => ?_, ?_, ?_⟩
    · exact hGrown.interned _ u text hu hLookup
    · refine hGrown.note (hGrown.sound.below text _ hLookup) fun t ht => ?_
      rw [hGrown.sound.distinct t text _ ht hLookup]
    · exact lists_note rfl (by simp [Value.inner])

/-- Elements of arrays do not matter to a ledger that does not look at them. -/
theorem Discipline.rewrites_of_look {look : Value → Value}
    (hLook : ∀ id d n es es', look (.array id d n es) = look (.array id d n es')) :
    (Discipline.ledger look).Rewrites := by
  intro L id d n es es' hArray hNew u hu i hi
  rcases List.mem_cons.mp hu with rfl | hu
  · obtain rfl := Option.some.inj hi
    exact hLook id d n es es' ▸ hArray _ (Value.mem_parts_self _) id rfl
  · obtain ⟨vs, rfl, v, hv, hu⟩ := Value.mem_inner_array.mp hu
    exact (hNew vs rfl).1 v hv u hu i hi

theorem Discipline.rewrites_ledger : (Discipline.ledger Value.shell).Rewrites :=
  rewrites_of_look fun _ _ _ _ _ => rfl

/-- A ledger that leaves something out of the values agrees with what is left of them. -/
theorem Ledger.Lists.map {L : Ledger} {v : Value} (h : Lists id L v) (look : Value → Value) :
    Lists look (fun i => (L i).map look) v := by
  intro u hu i hi
  dsimp only
  rw [h u hu i hi]
  rfl

theorem Ledger.Fits.map {L : Ledger} {h : Heap} (hFits : Fits id L h) (look : Value → Value) :
    Fits look (fun i => (L i).map look) h where
  sound := hFits.sound
  below i v hv := by
    obtain ⟨u, hu, _⟩ := Option.map_eq_some_iff.mp hv
    exact hFits.below i u hu
  interned i v t hv ht := by
    obtain ⟨u, hu, rfl⟩ := Option.map_eq_some_iff.mp hv
    rw [hFits.interned i u t hu ht]
    rfl

namespace State

variable {s : State} {h k : Heap} {P : Value → Prop}

/-- The values in the registers of a state, and the result and the exception. -/
def held (s : State) : List Value := (s.registers ++ [s.result, s.exception]).filterMap id

/-- The values that a state holds and those that can be fetched out of them. -/
def parts (s : State) : List Value := Value.allParts s.held

/-- All occurrences of an instance in a state are the same value, also where it would have to be fetched first. -/
def Coherent (s : State) : Prop := ∀ v ∈ s.parts, ∀ w ∈ s.parts, v.id? = w.id? → v.id? ≠ none → v = w

instance (s : State) : Decidable s.Coherent := by
  unfold Coherent
  infer_instance

theorem all_iff : s.All P ↔ ∀ v ∈ s.held, P v := by
  constructor
  · intro hAll v hv
    obtain ⟨_, hv, rfl⟩ := List.mem_filterMap.mp hv
    rcases List.mem_append.mp hv with hRegister | hOther
    · exact hAll.registers v hRegister
    · rcases List.mem_cons.mp hOther with hResult | hException
      · exact hAll.result v hResult.symm
      · exact hAll.exception v (List.mem_singleton.mp hException).symm
  · intro hAll
    have hMem (v : Value) (hv : some v ∈ s.registers ++ [s.result, s.exception]) : P v :=
      hAll v (List.mem_filterMap.mpr ⟨some v, hv, rfl⟩)
    exact ⟨fun v hv => hMem v (List.mem_append_left _ hv), fun v hv => hMem v (by simp [hv]),
      fun v hv => hMem v (by simp [hv])⟩

/-- A state agrees with a ledger of the instances that a heap has handed out. -/
def Coheres (h : Heap) (s : State) : Prop := ∃ L : Ledger, L.Fits id h ∧ s.All (L.Lists id)

theorem Coheres.grow (hs : s.Coheres h) (hGrows : h.Grows k) : s.Coheres k := by
  obtain ⟨L, hFits, hAll⟩ := hs
  exact ⟨L, hFits.grow hGrows, hAll⟩

theorem Coheres.coherent (hs : s.Coheres h) : s.Coherent := by
  obtain ⟨L, _, hAll⟩ := hs
  have hListed (v : Value) (hv : v ∈ s.parts) (i : Nat) (hi : v.id? = some i) : L i = some v := by
    obtain ⟨u, hu, hPart⟩ := Value.mem_allParts.mp hv
    exact all_iff.mp hAll u hu v hPart i hi
  intro v hv w hw hSame hSome
  obtain ⟨i, hi⟩ := Option.ne_none_iff_exists'.mp hSome
  exact Option.some.inj ((hListed v hv i hi).symm.trans (hListed w hw i (hSame ▸ hi)))

/-- A coherent state agrees with the ledger of its own values. -/
theorem Coherent.coheres (hs : s.Coherent) (hSound : h.Sound)
    (hBelow : ∀ v ∈ s.parts, ∀ i, v.id? = some i → i < h.next)
    (hInterned : ∀ v ∈ s.parts, ∀ i t, v.id? = some i → h.interned.lookup t = some i → v = .string i t) :
    s.Coheres h := by
  have hFound (i : Nat) (v : Value) (hv : s.parts.find? (fun v => v.id? = some i) = some v) :
      v ∈ s.parts ∧ v.id? = some i :=
    ⟨List.mem_of_find?_eq_some hv, by simpa using List.find?_some hv⟩
  refine ⟨fun i => s.parts.find? fun v => v.id? = some i,
    ⟨hSound, fun i v (hv : s.parts.find? _ = some v) => ?_, fun i v t (hv : s.parts.find? _ = some v) ht => ?_⟩,
    all_iff.mpr fun v hv u hu i hi => ?_⟩
  · exact hBelow v (hFound i v hv).1 i (hFound i v hv).2
  · exact hInterned v (hFound i v hv).1 i t (hFound i v hv).2 ht
  · have hPart : u ∈ s.parts := Value.mem_allParts.mpr ⟨v, hv, hu⟩
    cases hFirst : s.parts.find? (fun v => v.id? = some i) with
    | none => exact absurd hi (by simpa using List.find?_eq_none.mp hFirst u hPart)
    | some w =>
        obtain ⟨hw, hSame⟩ := hFound i w hFirst
        rw [hs u hPart w hw (hi.trans hSame.symm) (by simp [hi])]
        exact hFirst

end State

end Dalvik
