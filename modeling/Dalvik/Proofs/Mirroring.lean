import Dalvik.Proofs.Bonds
import Dalvik.Proofs.Renaming
import Dalvik.Proofs.Tracking

/-!
Runs that differ in what their instances are called only. Two such runs with the same budget succeed or
fail together, and end with results that differ in that only, too; calls of local methods are no
exception.
-/

namespace Dalvik

namespace Links

variable {Λ Λ' : Links} {f : Nat → Nat} {k h : Heap}

/-- A renaming by which the instances of the first run are called what they are called in the second. -/
structure Spans (Λ : Links) (f : Nat → Nat) : Prop where
  injective : Function.Injective f
  same : ∀ i j, Λ.same i j → f i = j

theorem Spans.of_grows (h : Λ'.Spans f) (hΛ : Λ.Grows Λ') : Λ.Spans f :=
  ⟨h.injective, fun i j hSame => h.same i j (hΛ.same i j hSame)⟩

/-- Something of the first run is what it is in the second but for the names of instances. `ren` says what it
is with instances renamed. -/
def Renames {α β : Type} (Λ : Links) (ren : (Nat → Nat) → α → β) (w : α) (v : β) : Prop :=
  ∀ f, Λ.Spans f → ren f w = v

theorem Renames.grow {α β : Type} {ren : (Nat → Nat) → α → β} {w : α} {v : β} (h : Λ.Renames ren w v)
    (hΛ : Λ.Grows Λ') : Λ'.Renames ren w v :=
  fun f hf => h f (hf.of_grows hΛ)

/-- What is linked can be renamed: everything else gets names beyond those of the second run. -/
theorem Bond.exists_spans (hBond : Λ.Bond k h) : ∃ f, Λ.Spans f := by
  classical
  let f (i : Nat) : Nat := if hi : ∃ j, Λ.same i j then hi.choose else h.next + i
  have hLinked {i j : Nat} (hSame : Λ.same i j) : f i = j := by
    have hi : ∃ j, Λ.same i j := ⟨j, hSame⟩
    simp only [f, dif_pos hi]
    exact hBond.injective.left _ _ _ hi.choose_spec hSame
  have hOther {i : Nat} (hi : ¬ ∃ j, Λ.same i j) : f i = h.next + i := dif_neg hi
  refine ⟨f, fun i i' (hf : f i = f i') => ?_, fun i j hSame => hLinked hSame⟩
  by_cases hi : ∃ j, Λ.same i j <;> by_cases hi' : ∃ j, Λ.same i' j
  · obtain ⟨j, hj⟩ := hi
    obtain ⟨j', hj'⟩ := hi'
    rw [hLinked hj, hLinked hj'] at hf
    exact hBond.injective.right _ _ _ hj (hf ▸ hj')
  · obtain ⟨j, hj⟩ := hi
    have hLess := (hBond.below i j hj).2
    rw [hLinked hj, hOther hi'] at hf
    omega
  · obtain ⟨j', hj'⟩ := hi'
    have hLess := (hBond.below i' j' hj').2
    rw [hOther hi, hLinked hj'] at hf
    omega
  · rw [hOther hi, hOther hi'] at hf
    omega

/-- The instances that the heaps hand out next get linked. -/
theorem Bond.exists_alloc (hBond : Λ.Bond k h) :
    ∃ Λ', Λ.Advances k h Λ' k.alloc.2 h.alloc.2 ∧ Λ'.same k.next h.next :=
  ⟨_, hBond.alloc False, .inr ⟨rfl, rfl⟩⟩

theorem Bond.literal_renames (hBond : Λ.Bond k h) (l : Literal) :
    ∃ Λ', Λ.Advances k h Λ' (k.literal l).2 (h.literal l).2 ∧
      Λ'.Renames Value.rename (k.literal l).1 (h.literal l).1 := by
  cases l with
  | string text =>
      obtain ⟨Λ', hΛ, hSame, _⟩ := hBond.internId text
      refine ⟨Λ', hΛ, fun f hf => ?_⟩
      simp [Heap.literal, Heap.intern, hf.same _ _ hSame]
  | _ => exact ⟨Λ, .refl hBond, fun f hf => rfl⟩

theorem Bond.literals_rename (hBond : Λ.Bond k h) (ls : List Literal) :
    ∃ Λ', Λ.Advances k h Λ' (k.literals ls).2 (h.literals ls).2 ∧
      Λ'.Renames (fun f => List.map (Value.rename f)) (k.literals ls).1 (h.literals ls).1 := by
  induction ls generalizing Λ k h with
  | nil => exact ⟨Λ, .refl hBond, fun f hf => rfl⟩
  | cons l ls ih =>
      obtain ⟨Λ₁, hΛ₁, hFirst⟩ := hBond.literal_renames l
      obtain ⟨Λ₂, hΛ₂, hRest⟩ := ih hΛ₁.bond
      refine ⟨Λ₂, hΛ₁.trans hΛ₂, fun f hf => ?_⟩
      have hHead := hFirst.grow hΛ₂.grows f hf
      have hTail := hRest f hf
      simp only [Heap.literals, List.map_cons, hHead, hTail]

end Links

/-- Two computations that succeed with related results, or fail alike. -/
inductive Concur {α β : Type} (Q : α → β → Prop) : Except Error α → Except Error β → Prop
  | ok {w : α} {v : β} : Q w v → Concur Q (.ok w) (.ok v)
  | error (e : Error) : Concur Q (.error e) (.error e)

theorem Concur.imp {α β : Type} {Q Q' : α → β → Prop} {x : Except Error α} {y : Except Error β}
    (h : Concur Q x y) (hImp : ∀ w v, Q w v → Q' w v) : Concur Q' x y := by
  cases h with
  | ok hw => exact .ok (hImp _ _ hw)
  | error e => exact .error e

theorem Concur.bind {α β γ δ : Type} {P : α → β → Prop} {Q : γ → δ → Prop} {x : Except Error α}
    {y : Except Error β} {f : α → Except Error γ} {g : β → Except Error δ} (h : Concur P x y)
    (hNext : ∀ w v, P w v → Concur Q (f w) (g v)) : Concur Q (x >>= f) (y >>= g) := by
  cases h with
  | ok hw => exact hNext _ _ hw
  | error e => exact .error e

/-- What depends on something that is renamed alone concurs up to names. -/
theorem Concur.of_map {α β : Type} {Λ : Links} {k h : Heap} (hBond : Λ.Bond k h)
    {ren : (Nat → Nat) → α → β} {x : Except Error α} {y : Except Error β}
    (hMap : Λ.Renames (fun f => Except.map (ren f)) x y) : Concur (Λ.Renames ren) x y := by
  obtain ⟨f, hf⟩ := hBond.exists_spans
  have hSame := hMap f hf
  cases x with
  | error e =>
      obtain rfl : .error e = y := hSame
      exact .error e
  | ok w =>
      obtain rfl : .ok (ren f w) = y := hSame
      exact .ok fun g hg => Except.ok.inj (hMap g hg)

namespace Run

variable {α β γ δ : Type} {Λ : Links} {s t : Supply} {r : Run α} {q : Run β}
  {Q : Links → α → β → Prop}

/-- Two computations on linked heaps and the same budget end alike, with the heaps linked and the same
budget left. -/
def Mirrors (Λ : Links) (r : Run α) (q : Run β) (s t : Supply) (Q : Links → α → β → Prop) : Prop :=
  ∃ Λ', Λ.Advances s.heap t.heap Λ' (r s).2.heap (q t).2.heap ∧
    (r s).2.budget = (q t).2.budget ∧ Concur (Q Λ') (r s).1 (q t).1

theorem Mirrors.bind {f : α → Run γ} {g : β → Run δ} {P : Links → α → β → Prop}
    {Q : Links → γ → δ → Prop} (h : Mirrors Λ r q s t P)
    (hNext : ∀ Λ' s' t' w v, Λ.Advances s.heap t.heap Λ' s'.heap t'.heap → s'.budget = t'.budget →
      P Λ' w v → Mirrors Λ' (f w) (g v) s' t' Q) : Mirrors Λ (r >>= f) (q >>= g) s t Q := by
  obtain ⟨Λ', hΛ, hBudget, hResult⟩ := h
  unfold Mirrors
  rw [stateful_bind_apply, stateful_bind_apply]
  generalize r s = x, q t = y at hΛ hBudget hResult ⊢
  obtain ⟨x, s'⟩ := x
  obtain ⟨y, t'⟩ := y
  dsimp only at hΛ hBudget hResult
  cases hResult with
  | ok hw =>
      obtain ⟨Λ'', hΛ', hBudget', hResult'⟩ := hNext Λ' s' t' _ _ hΛ hBudget hw
      exact ⟨Λ'', hΛ.trans hΛ', hBudget', hResult'⟩
  | error e => exact ⟨Λ', hΛ, hBudget, .error e⟩

theorem mirrors_pure (hBond : Λ.Bond s.heap t.heap) (hBudget : s.budget = t.budget) {w : α} {v : β}
    (h : Q Λ w v) : Mirrors Λ (pure w) (pure v) s t Q :=
  ⟨Λ, .refl hBond, hBudget, .ok h⟩

theorem mirrors_throw (hBond : Λ.Bond s.heap t.heap) (hBudget : s.budget = t.budget) (e : Error) :
    Mirrors Λ (throw e : Run α) (throw e : Run β) s t Q :=
  ⟨Λ, .refl hBond, hBudget, .error e⟩

/-- What depends on the state alone gives the same up to names. -/
theorem mirrors_ofExcept (hBond : Λ.Bond s.heap t.heap) (hBudget : s.budget = t.budget)
    {x : Except Error α} {y : Except Error β} {ren : (Nat → Nat) → α → β}
    (h : Λ.Renames (fun f => Except.map (ren f)) x y) :
    Mirrors Λ (ofExcept x) (ofExcept y) s t fun Λ' => Λ'.Renames ren :=
  ⟨Λ, .refl hBond, hBudget, .of_map hBond h⟩

/-- Both runs draw on their heaps. -/
theorem mirrors_onHeap {f : Heap → α × Heap} {g : Heap → β × Heap} (hBudget : s.budget = t.budget)
    (h : ∃ Λ', Λ.Advances s.heap t.heap Λ' (f s.heap).2 (g t.heap).2 ∧ Q Λ' (f s.heap).1 (g t.heap).1) :
    Mirrors Λ (onHeap f) (onHeap g) s t Q := by
  obtain ⟨Λ', hΛ, hw⟩ := h
  exact ⟨Λ', hΛ, hBudget, .ok hw⟩

/-- Both runs draw on their heaps, unless that fails in both. -/
theorem mirrors_onHeap? {f : Heap → Except Error (α × Heap)} {g : Heap → Except Error (β × Heap)}
    (hBond : Λ.Bond s.heap t.heap) (hBudget : s.budget = t.budget)
    (h : Concur (fun p q => ∃ Λ', Λ.Advances s.heap t.heap Λ' p.2 q.2 ∧ Q Λ' p.1 q.1)
      (f s.heap) (g t.heap)) : Mirrors Λ (onHeap? f) (onHeap? g) s t Q := by
  unfold Mirrors onHeap?
  generalize f s.heap = x, g t.heap = y at h
  cases h with
  | ok hBoth =>
      obtain ⟨Λ', hΛ, hw⟩ := hBoth
      exact ⟨Λ', hΛ, hBudget, .ok hw⟩
  | error e => exact ⟨Λ, .refl hBond, hBudget, .error e⟩

theorem Mirrors.attempt (h : Mirrors Λ r q s t Q) :
    Mirrors Λ (attempt r) (attempt q) s t fun Λ' => Concur (Q Λ') := by
  obtain ⟨Λ', hΛ, hBudget, hResult⟩ := h
  exact ⟨Λ', hΛ, hBudget, .ok hResult⟩

end Run

end Dalvik
