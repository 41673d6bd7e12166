import Mathlib.Data.List.Forall2

/-!
Lists whose elements correspond one by one.
-/

namespace Dalvik

variable {α β : Type} {R S : α → β → Prop} {as : List α} {bs : List β}

theorem forall₂_of_mem (h : List.Forall₂ R as bs) (hImp : ∀ b ∈ bs, ∀ a, R a b → S a b) : List.Forall₂ S as bs := by
  induction h with
  | nil => exact .nil
  | cons hHead _ ih =>
      exact .cons (hImp _ (.head _) _ hHead) (ih fun b hb => hImp b (.tail _ hb))

theorem exists_of_forall₂ (h : List.Forall₂ R as bs) {a : α} (ha : a ∈ as) : ∃ b ∈ bs, R a b := by
  induction h with
  | nil => cases ha
  | cons hHead _ ih =>
      rcases List.mem_cons.mp ha with rfl | ha
      · exact ⟨_, .head _, hHead⟩
      · obtain ⟨b, hb, hRel⟩ := ih ha
        exact ⟨b, .tail _ hb, hRel⟩

theorem exists_forall₂ (h : ∀ a ∈ as, ∃ b, R a b) : ∃ bs, List.Forall₂ R as bs := by
  induction as with
  | nil => exact ⟨[], .nil⟩
  | cons a as ih =>
      obtain ⟨b, hb⟩ := h a (.head _)
      obtain ⟨bs, hbs⟩ := ih fun a ha => h a (.tail _ ha)
      exact ⟨b :: bs, .cons hb hbs⟩

theorem mapM_of_forall₂ {ε : Type} {f : α → Except ε β} (h : List.Forall₂ (fun a b => f a = .ok b) as bs) :
    as.mapM f = .ok bs := by
  induction h with
  | nil => rfl
  | cons hHead _ ih =>
      rw [List.mapM_cons, hHead, ih]
      rfl

theorem forall₂_of_mapM_eq_ok {ε : Type} {f : α → Except ε β} (h : as.mapM f = .ok bs) :
    List.Forall₂ (fun a b => f a = .ok b) as bs := by
  induction as generalizing bs with
  | nil =>
      obtain rfl := Except.ok.inj h
      exact .nil
  | cons a as ih =>
      rw [List.mapM_cons] at h
      cases hFirst : f a with
      | error e =>
          rw [hFirst] at h
          cases h
      | ok b =>
          cases hRest : as.mapM f with
          | error e =>
              rw [hFirst, hRest] at h
              cases h
          | ok bs =>
              rw [hFirst, hRest] at h
              obtain rfl := Except.ok.inj h
              exact .cons hFirst (ih hRest)

theorem pairwise_of_forall₂ {P : α → α → Prop} {Q : β → β → Prop} (h : List.Forall₂ R as bs) (hAs : as.Pairwise P)
    (hApart : ∀ a a' b b', R a b → R a' b' → P a a' → Q b b') : bs.Pairwise Q := by
  induction h with
  | nil => exact .nil
  | cons hHead hTail ih =>
      obtain ⟨hFirst, hRest⟩ := List.pairwise_cons.mp hAs
      refine List.pairwise_cons.mpr ⟨fun b hb => ?_, ih hRest⟩
      obtain ⟨a, ha, hab⟩ := exists_of_forall₂ hTail.flip hb
      exact hApart _ _ _ _ hHead hab (hFirst a ha)

end Dalvik
