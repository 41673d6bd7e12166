import Dalvik.Heap
import Dalvik.Proofs.Lookup
import Dalvik.Proofs.Standing

/-!
Heaps of two runs. Instances that stand for each other have been handed out by both heaps, and the
strings that literals load stand for each other whenever one of them does for anything.
-/

namespace Dalvik

namespace Heap

/-- Identities of literals have been handed out, each for one text. -/
structure Sound (h : Heap) : Prop where
  below : ∀ t i, h.interned.lookup t = some i → i < h.next
  distinct : ∀ t t' i, h.interned.lookup t = some i → h.interned.lookup t' = some i → t = t'

/-- A heap that has handed out more. -/
structure Grows (h k : Heap) : Prop where
  next : h.next ≤ k.next
  kept : ∀ t i, h.interned.lookup t = some i → k.interned.lookup t = some i
  fresh : ∀ t i, k.interned.lookup t = some i → h.interned.lookup t = some i ∨ h.next ≤ i
  sound : h.Sound → k.Sound

variable {h k l : Heap}

theorem Grows.refl (h : Heap) : h.Grows h :=
  ⟨Nat.le_refl _, fun _ _ ht => ht, fun _ _ ht => .inl ht, fun hs => hs⟩

theorem Grows.trans (h₁ : h.Grows k) (h₂ : k.Grows l) : h.Grows l where
  next := Nat.le_trans h₁.next h₂.next
  kept t i ht := h₂.kept t i (h₁.kept t i ht)
  fresh t i ht :=
    (h₂.fresh t i ht).elim (h₁.fresh t i) fun hNew => .inr (Nat.le_trans h₁.next hNew)
  sound hs := h₂.sound (h₁.sound hs)

theorem sound_after (s : State) : (after s).Sound := ⟨by simp [after], by simp [after]⟩

theorem grows_alloc (h : Heap) : h.Grows h.alloc.2 where
  next := Nat.le_succ _
  kept _ _ ht := ht
  fresh _ _ ht := .inl ht
  sound hs := ⟨fun t i ht => Nat.lt_succ_of_lt (hs.below t i ht), hs.distinct⟩

theorem internId_of_some {text : String} {id : Nat} (hId : h.interned.lookup text = some id) :
    h.internId text = (id, h) := by
  unfold internId
  rw [hId]

theorem internId_of_none {text : String} (hNone : h.interned.lookup text = none) :
    h.internId text =
      (h.next, { next := h.next + 1, interned := (text, h.next) :: h.interned }) := by
  unfold internId
  rw [hNone]
  rfl

theorem lookup_internId (h : Heap) (text : String) :
    (h.internId text).2.interned.lookup text = some (h.internId text).1 := by
  cases hText : h.interned.lookup text with
  | some id => rw [internId_of_some hText, hText]
  | none => simp [internId_of_none hText]

theorem grows_internId (h : Heap) (text : String) : h.Grows (h.internId text).2 := by
  cases hText : h.interned.lookup text with
  | some id =>
      rw [internId_of_some hText]
      exact .refl h
  | none =>
      rw [internId_of_none hText]
      have hLookup (t : String) (i : Nat) :
          ((text, h.next) :: h.interned).lookup t = some i ↔
            t = text ∧ i = h.next ∨ t ≠ text ∧ h.interned.lookup t = some i := by
        by_cases hSame : t = text
        · subst hSame
          simp [eq_comm]
        · simp [List.lookup_cons, beq_false_of_ne hSame, hSame]
      refine ⟨Nat.le_succ _, fun t i ht => ?_, fun t i ht => ?_, fun hs => ⟨fun t i ht => ?_, ?_⟩⟩
      · refine (hLookup t i).mpr (.inr ⟨?_, ht⟩)
        rintro rfl
        rw [hText] at ht
        cases ht
      · rcases (hLookup t i).mp ht with ⟨_, rfl⟩ | ⟨_, hOld⟩
        · exact .inr (Nat.le_refl _)
        · exact .inl hOld
      · rcases (hLookup t i).mp ht with ⟨_, rfl⟩ | ⟨_, hOld⟩
        · exact Nat.lt_succ_self _
        · exact Nat.lt_succ_of_lt (hs.below t i hOld)
      · intro t t' i ht ht'
        rcases (hLookup t i).mp ht with ⟨rfl, rfl⟩ | ⟨_, hOld⟩ <;>
          rcases (hLookup t' _).mp ht' with ⟨rfl, hNew⟩ | ⟨_, hOld'⟩
        · rfl
        · exact absurd (hs.below _ _ hOld') (Nat.lt_irrefl _)
        · subst hNew
          exact absurd (hs.below _ _ hOld) (Nat.lt_irrefl _)
        · exact hs.distinct t t' i hOld hOld'

theorem grows_literal (h : Heap) (l : Literal) : h.Grows (h.literal l).2 := by
  cases l <;> first | exact grows_internId h _ | exact .refl h

theorem grows_literals (h : Heap) (ls : List Literal) : h.Grows (h.literals ls).2 := by
  induction ls generalizing h with
  | nil => exact .refl h
  | cons l ls ih => exact (grows_literal h l).trans (ih _)

end Heap

namespace Links

variable {Λ : Links}

/-- The links with one more, and everything that a run has made below a bound. -/
def link (Λ : Links) (bound i j : Nat) (changes : Prop) : Links where
  loose := Λ.loose
  same a b := Λ.same a b ∨ a = i ∧ b = j
  changing a := Λ.changing a ∨ changes ∧ a = i
  lone := Λ.lone
  bound := bound

/-- The links of a run that has made more by itself. -/
def raise (Λ : Links) (bound : Nat) : Links := { Λ with bound }

theorem grows_raise {bound : Nat} (h : Λ.bound ≤ bound) : Λ.Grows (Λ.raise bound) :=
  ⟨Iff.rfl, fun _ _ h => h, fun _ h => h, fun _ h => h, fun _ h => .inl h, h⟩

/-- The heaps of two runs with linked instances. -/
structure Bond (Λ : Links) (k h : Heap) : Prop where
  injective : Λ.Injective
  below : ∀ i j, Λ.same i j → i < Λ.bound ∧ j < h.next
  bound : Λ.bound ≤ k.next
  interned : ∀ i j, Λ.same i j → ∀ t,
    k.interned.lookup t = some i ↔ h.interned.lookup t = some j
  changing : ∀ i, Λ.changing i → i < Λ.bound ∧ ∀ t, k.interned.lookup t ≠ some i
  lone : ∀ i, Λ.lone i → i < Λ.bound ∧ (∀ j, ¬ Λ.same i j) ∧ ∀ t, k.interned.lookup t ≠ some i
  first : k.Sound
  second : h.Sound

variable {k k' h h' : Heap}

/-- Links last while both heaps hand out more. -/
theorem Bond.grow (hBond : Λ.Bond k h) (hk : k.Grows k') (hh : h.Grows h') : Λ.Bond k' h' where
  injective := hBond.injective
  below i j hSame :=
    ⟨(hBond.below i j hSame).1, Nat.lt_of_lt_of_le (hBond.below i j hSame).2 hh.next⟩
  bound := Nat.le_trans hBond.bound hk.next
  interned i j hSame t := by
    obtain ⟨hi, hj⟩ := hBond.below i j hSame
    constructor
    · intro ht
      rcases hk.fresh t i ht with hOld | hNew
      · exact hh.kept t j ((hBond.interned i j hSame t).mp hOld)
      · exact absurd (Nat.lt_of_lt_of_le hi hBond.bound) (Nat.not_lt_of_le hNew)
    · intro ht
      rcases hh.fresh t j ht with hOld | hNew
      · exact hk.kept t i ((hBond.interned i j hSame t).mpr hOld)
      · exact absurd hj (Nat.not_lt_of_le hNew)
  changing i hi := by
    obtain ⟨hBelow, hPlain⟩ := hBond.changing i hi
    refine ⟨hBelow, fun t ht => ?_⟩
    rcases hk.fresh t i ht with hOld | hNew
    · exact hPlain t hOld
    · exact Nat.not_lt_of_le hNew (Nat.lt_of_lt_of_le hBelow hBond.bound)
  lone i hi := by
    obtain ⟨hBelow, hNone, hPlain⟩ := hBond.lone i hi
    refine ⟨hBelow, hNone, fun t ht => ?_⟩
    rcases hk.fresh t i ht with hOld | hNew
    · exact hPlain t hOld
    · exact Nat.not_lt_of_le hNew (Nat.lt_of_lt_of_le hBelow hBond.bound)
  first := hk.sound hBond.first
  second := hh.sound hBond.second

theorem Bond.raise (hBond : Λ.Bond k h) : (Λ.raise k.next).Bond k h where
  injective := ⟨hBond.injective.left, hBond.injective.right⟩
  below i j hSame :=
    ⟨Nat.lt_of_lt_of_le (hBond.below i j hSame).1 hBond.bound, (hBond.below i j hSame).2⟩
  bound := Nat.le_refl _
  interned := hBond.interned
  changing i hi := ⟨Nat.lt_of_lt_of_le (hBond.changing i hi).1 hBond.bound, (hBond.changing i hi).2⟩
  lone i hi := ⟨Nat.lt_of_lt_of_le (hBond.lone i hi).1 hBond.bound, (hBond.lone i hi).2⟩
  first := hBond.first
  second := hBond.second

/-- Two instances can be linked if neither is linked to anything else, and if both are the same literal
or none. -/
theorem Bond.link (hBond : Λ.Bond k h) {i j : Nat} {changes : Prop} (hi : i < k.next)
    (hj : j < h.next) (hLone : ¬ Λ.lone i) (hLeft : ∀ j', Λ.same i j' → j' = j) (hRight : ∀ i', Λ.same i' j → i' = i)
    (hText : ∀ t, k.interned.lookup t = some i ↔ h.interned.lookup t = some j)
    (hChanges : changes → ∀ t, k.interned.lookup t ≠ some i) :
    (Λ.link k.next i j changes).Bond k h where
  injective := by
    refine ⟨fun a b b' hb hb' => ?_, fun a a' b ha ha' => ?_⟩
    · rcases hb with hOld | ⟨rfl, rfl⟩ <;> rcases hb' with hOld' | ⟨hA, rfl⟩
      · exact hBond.injective.left a b b' hOld hOld'
      · exact hLeft b (hA ▸ hOld)
      · exact (hLeft b' hOld').symm
      · rfl
    · rcases ha with hOld | ⟨rfl, rfl⟩ <;> rcases ha' with hOld' | ⟨rfl, hB⟩
      · exact hBond.injective.right a a' b hOld hOld'
      · exact hRight a (hB ▸ hOld)
      · exact (hRight a' hOld').symm
      · rfl
  below a b hSame := by
    rcases hSame with hOld | ⟨rfl, rfl⟩
    · exact ⟨Nat.lt_of_lt_of_le (hBond.below a b hOld).1 hBond.bound, (hBond.below a b hOld).2⟩
    · exact ⟨hi, hj⟩
  bound := Nat.le_refl _
  interned a b hSame := by
    rcases hSame with hOld | ⟨rfl, rfl⟩
    · exact hBond.interned a b hOld
    · exact hText
  changing a ha := by
    rcases ha with hOld | ⟨hc, rfl⟩
    · exact ⟨Nat.lt_of_lt_of_le (hBond.changing a hOld).1 hBond.bound, (hBond.changing a hOld).2⟩
    · exact ⟨hi, hChanges hc⟩
  lone a ha := by
    obtain ⟨hBelow, hNone, hPlain⟩ := hBond.lone a ha
    refine ⟨Nat.lt_of_lt_of_le hBelow hBond.bound, fun b hSame => ?_, hPlain⟩
    rcases hSame with hOld | ⟨rfl, _⟩
    · exact hNone b hOld
    · exact hLone ha
  first := hBond.first
  second := hBond.second

theorem grows_link {bound i j : Nat} {changes : Prop} (hBound : Λ.bound ≤ bound)
    (hNew : changes → Λ.bound ≤ i) : Λ.Grows (Λ.link bound i j changes) where
  loose := Iff.rfl
  same _ _ hOld := .inl hOld
  changing _ hOld := .inl hOld
  lone _ hOld := hOld
  fresh a ha := by
    rcases ha with hOld | ⟨hc, rfl⟩
    · exact .inl hOld
    · exact .inr (hNew hc)
  bound := hBound

/-- What becomes of links while two heaps hand out more. -/
structure Advances (Λ : Links) (k h : Heap) (Λ' : Links) (k' h' : Heap) : Prop where
  grows : Λ.Grows Λ'
  bond : Λ'.Bond k' h'
  first : k.Grows k'
  second : h.Grows h'

variable {Λ' Λ'' : Links} {k'' h'' : Heap}

theorem Advances.refl (hBond : Λ.Bond k h) : Λ.Advances k h Λ k h :=
  ⟨.refl Λ, hBond, .refl k, .refl h⟩

theorem Advances.trans (h₁ : Λ.Advances k h Λ' k' h') (h₂ : Λ'.Advances k' h' Λ'' k'' h'') :
    Λ.Advances k h Λ'' k'' h'' where
  grows := h₁.grows.trans h₂.grows
  bond := h₂.bond
  first := h₁.first.trans h₂.first
  second := h₁.second.trans h₂.second

/-- Heaps hand out more by themselves. -/
theorem Bond.advances (hBond : Λ.Bond k h) (hk : k.Grows k') (hh : h.Grows h') :
    Λ.Advances k h (Λ.raise k'.next) k' h' :=
  ⟨grows_raise (Nat.le_trans hBond.bound hk.next), (hBond.grow hk hh).raise, hk, hh⟩

/-- The instances that two heaps hand out next. -/
theorem Bond.alloc (hBond : Λ.Bond k h) (changes : Prop) :
    Λ.Advances k h (Λ.link (k.next + 1) k.next h.next changes) k.alloc.2 h.alloc.2 := by
  refine ⟨grows_link (Nat.le_succ_of_le hBond.bound) fun _ => hBond.bound, ?_, Heap.grows_alloc k,
    Heap.grows_alloc h⟩
  have hNext := hBond.grow (Heap.grows_alloc k) (Heap.grows_alloc h)
  refine hNext.link (Nat.lt_succ_self _) (Nat.lt_succ_self _)
    (fun hOld => Nat.not_lt_of_le hBond.bound (hBond.lone _ hOld).1) (fun j' hSame => ?_)
    (fun i' hSame => ?_) (fun t => ?_) fun _ t ht => ?_
  · exact absurd (hBond.below _ _ hSame).1 (Nat.not_lt_of_le hBond.bound)
  · exact absurd (hBond.below _ _ hSame).2 (Nat.lt_irrefl _)
  · constructor
    · intro ht
      exact absurd (hBond.first.below t _ ht) (Nat.lt_irrefl _)
    · intro ht
      exact absurd (hBond.second.below t _ ht) (Nat.lt_irrefl _)
  · exact absurd (hBond.first.below t _ ht) (Nat.lt_irrefl _)

theorem Bond.allocFixed (hBond : Λ.Bond k h) :
    (Λ.link (k.next + 1) k.next h.next False).Fixed k.next h.next := by
  refine ⟨.inr ⟨rfl, rfl⟩, fun _ => ⟨Nat.lt_succ_self _, ?_⟩⟩
  rintro (hOld | ⟨hFalse, _⟩)
  · exact Nat.not_lt_of_le hBond.bound (hBond.changing _ hOld).1
  · exact hFalse

theorem link_changes {bound i j : Nat} : (Λ.link bound i j True).Changes i j :=
  ⟨.inr ⟨rfl, rfl⟩, fun _ => .inr ⟨trivial, rfl⟩⟩

/-- The instances that two heaps keep for a text. -/
theorem Bond.internId (hBond : Λ.Bond k h) (text : String) :
    ∃ Λ', Λ.Advances k h Λ' (k.internId text).2 (h.internId text).2 ∧
      Λ'.Fixed (k.internId text).1 (h.internId text).1 := by
  have hNow := hBond.grow (Heap.grows_internId k text) (Heap.grows_internId h text)
  have hFirst := Heap.lookup_internId k text
  have hSecond := Heap.lookup_internId h text
  have hk := Heap.grows_internId k text
  have hh := Heap.grows_internId h text
  generalize (k.internId text).1 = i, (k.internId text).2 = k' at *
  generalize (h.internId text).1 = j, (h.internId text).2 = h' at *
  refine ⟨Λ.link k'.next i j False, ⟨grows_link hNow.bound fun hFalse => hFalse.elim,
    hNow.link (hNow.first.below _ _ hFirst) (hNow.second.below _ _ hSecond)
      (fun hOld => (hNow.lone _ hOld).2.2 text hFirst) (fun j' hSame => ?_)
      (fun i' hSame => ?_) (fun t => ?_) fun hFalse => hFalse.elim, hk, hh⟩, .inr ⟨rfl, rfl⟩,
    fun _ => ⟨hNow.first.below _ _ hFirst, ?_⟩⟩
  · have hLookup := (hNow.interned i j' hSame text).mp hFirst
    rw [hSecond] at hLookup
    exact (Option.some.inj hLookup).symm
  · have hLookup := (hNow.interned i' j hSame text).mpr hSecond
    rw [hFirst] at hLookup
    exact (Option.some.inj hLookup).symm
  · constructor
    · intro ht
      rwa [hNow.first.distinct t text i ht hFirst]
    · intro ht
      rwa [hNow.second.distinct t text j ht hSecond]
  · rintro (hOld | ⟨hFalse, _⟩)
    · exact (hNow.changing i hOld).2 text hFirst
    · exact hFalse

theorem Bond.literal (hBond : Λ.Bond k h) (l : Literal) :
    ∃ Λ', Λ.Advances k h Λ' (k.literal l).2 (h.literal l).2 ∧
      Value.Stands Λ' (k.literal l).1 (h.literal l).1 := by
  cases l with
  | string text =>
      obtain ⟨Λ', hΛ, hFixed⟩ := hBond.internId text
      exact ⟨Λ', hΛ, .string text hFixed⟩
  | null => exact ⟨Λ, .refl hBond, .null _ _⟩
  | _ => exact ⟨Λ, .refl hBond, .atom rfl⟩

theorem Bond.literals (hBond : Λ.Bond k h) (ls : List Literal) :
    ∃ Λ', Λ.Advances k h Λ' (k.literals ls).2 (h.literals ls).2 ∧
      List.Forall₂ (Value.Stands Λ') (k.literals ls).1 (h.literals ls).1 := by
  induction ls generalizing Λ k h with
  | nil => exact ⟨Λ, .refl hBond, .nil⟩
  | cons l ls ih =>
      obtain ⟨Λ₁, hΛ₁, hFirst⟩ := hBond.literal l
      obtain ⟨Λ₂, hΛ₂, hRest⟩ := ih hΛ₁.bond
      exact ⟨Λ₂, hΛ₁.trans hΛ₂, .cons (hFirst.grow hΛ₂.grows) hRest⟩

/-- What literals load stands for nothing that changes. -/
theorem Bond.hidden_literal (hBond : Λ.Bond k h) (l : Literal) :
    (k.literal l).1.Hidden (Λ.raise (k.literal l).2.next) := by
  cases l with
  | string text =>
      refine ⟨fun id hid => ?_, by simp [Heap.literal, Heap.intern, Value.stores]⟩
      obtain rfl : id = (k.internId text).1 := by simpa [Heap.literal, Heap.intern, Value.ids] using hid
      have hNow := hBond.grow (Heap.grows_internId k text) (Heap.Grows.refl h)
      have hLookup := Heap.lookup_internId k text
      exact ⟨hNow.first.below _ _ hLookup, fun hOld => (hNow.changing _ hOld).2 text hLookup⟩
  | null => exact Value.hidden_null _
  | _ => exact Value.hidden_of_isAtom rfl

theorem Bond.hidden_literals (hBond : Λ.Bond k h) (ls : List Literal) :
    ∀ w ∈ (k.literals ls).1, w.Hidden (Λ.raise (k.literals ls).2.next) := by
  induction ls generalizing k with
  | nil => simp [Heap.literals]
  | cons l ls ih =>
      have hNow := hBond.grow (Heap.grows_literal k l) (Heap.Grows.refl h)
      have hNext := (Heap.grows_literals (k.literal l).2 ls).next
      have hRaise : (Λ.raise (k.literal l).2.next).Grows (Λ.raise (k.literals (l :: ls)).2.next) :=
        ⟨Iff.rfl, fun _ _ h => h, fun _ h => h, fun _ h => h, fun _ h => .inl h, hNext⟩
      intro w hw
      rcases List.mem_cons.mp hw with rfl | hw
      · exact (hBond.hidden_literal l).grow hRaise
      · exact ih hNow w hw

end Links

end Dalvik
