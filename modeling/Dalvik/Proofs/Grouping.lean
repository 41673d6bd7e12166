import Dalvik.Draft
import Dalvik.Listing.Reader
import Mathlib.Data.List.Nodup

/-!
The handlers of a listing, collected range by range. A handler goes to the first block with its range, past the blocks
that have been begun since. No handler is lost so, and none comes before another one that may catch the same
exceptions, unless a range comes back after a different one that overlaps it.
-/

namespace Dalvik

/-- The two ends of a range of addresses. -/
abbrev Extent := Address × Address

namespace Extent

/-- Whether an address is in a range. -/
def covers (x : Extent) (a : Address) : Bool := x.1 ≤ a && a < x.2

/-- No address is in both ranges. -/
def Apart (x y : Extent) : Prop := min x.2 y.2 ≤ max x.1 y.1

instance (x y : Extent) : Decidable (x.Apart y) := by
  unfold Apart
  infer_instance

theorem Apart.covers_eq_false {x y : Extent} {a : Address} (h : x.Apart y) (hy : y.covers a = true) :
    x.covers a = false := by
  refine Bool.eq_false_iff.mpr fun hx => ?_
  simp only [covers, Bool.and_eq_true, decide_eq_true_eq] at hx hy
  have hInside : a < a := calc
    a < min x.2 y.2 := Nat.lt_min.mpr ⟨hx.2, hy.2⟩
    _ ≤ max x.1 y.1 := h
    _ ≤ a := Nat.max_le.mpr ⟨hx.1, hy.1⟩
  exact Nat.lt_irrefl a hInside

/-- Where a range comes back, no different one that overlaps it stands between. -/
def Settled (xs : List Extent) : Prop :=
  ∀ x ∈ xs, ∀ y ∈ xs, [x, y, x].Sublist xs → y = x ∨ y.Apart x

instance (xs : List Extent) : Decidable (Settled xs) := by
  unfold Settled
  infer_instance

theorem Settled.sublist {xs ys : List Extent} (h : Settled ys) (hSub : xs.Sublist ys) : Settled xs :=
  fun x hx y hy hBetween => h x (hSub.subset hx) y (hSub.subset hy) (hBetween.trans hSub)

end Extent

/-- A handler with the range in which it catches exceptions. -/
abbrev RangedHandler := Extent × Handler

namespace TryBlock

/-- The range of a block. -/
def extent (b : TryBlock) : Extent := (b.start, b.stop)

/-- The handlers of a block with its range. -/
def ranged (b : TryBlock) : List RangedHandler := b.handlers.map (b.extent, ·)

/-- The handlers of blocks that may catch an exception of the instruction at an address. -/
def catching (bs : List TryBlock) (a : Address) : List Handler :=
  (bs.filter fun b => b.covers a).flatMap handlers

/-- Of handlers with their ranges, those that may catch an exception of the instruction at an address. -/
def selected (es : List RangedHandler) (a : Address) : List Handler :=
  (es.filter fun e => e.1.covers a).map Prod.snd

variable {bs : List TryBlock} {b : TryBlock} {a : Address}

theorem catching_append (cs : List TryBlock) : catching (bs ++ cs) a = catching bs a ++ catching cs a := by
  simp [catching]

theorem catching_cons : catching (b :: bs) a = (if b.extent.covers a then b.handlers else []) ++ catching bs a := by
  have hCovers : b.covers a = b.extent.covers a := rfl
  unfold catching
  rw [List.filter_cons, hCovers]
  split <;> simp

theorem selected_ranged : selected b.ranged a = if b.extent.covers a then b.handlers else [] := by
  unfold selected ranged
  rw [List.filter_map]
  split <;> simp_all [Function.comp_def]

theorem selected_append (es fs : List RangedHandler) : selected (es ++ fs) a = selected es a ++ selected fs a := by
  simp [selected]

theorem selected_flatMap_ranged : selected (bs.flatMap ranged) a = catching bs a := by
  induction bs with
  | nil => rfl
  | cons b bs ih => rw [List.flatMap_cons, selected_append, selected_ranged, ih, catching_cons]

/-- The handlers of the blocks with a range. -/
def within (bs : List TryBlock) (x : Extent) : List Handler := (bs.filter fun b => b.extent = x).flatMap handlers

theorem within_append (bs cs : List TryBlock) (x : Extent) : within (bs ++ cs) x = within bs x ++ within cs x := by
  simp [within]

theorem within_cons (b : TryBlock) (bs : List TryBlock) (x : Extent) :
    within (b :: bs) x = (if b.extent = x then b.handlers else []) ++ within bs x := by
  unfold within
  rw [List.filter_cons]
  split <;> simp_all

theorem within_eq_nil {bs : List TryBlock} {x : Extent} (h : x ∉ bs.map extent) : within bs x = [] := by
  unfold within
  rw [List.filter_eq_nil_iff.mpr, List.flatMap_nil]
  exact fun b hb hx => h (List.mem_map.mpr ⟨b, hb, of_decide_eq_true hx⟩)

/-- A block with a range of its own has all handlers of the range. -/
theorem within_of_mem {bs : List TryBlock} {b : TryBlock} (hDistinct : (bs.map extent).Nodup) (hb : b ∈ bs) :
    within bs b.extent = b.handlers := by
  induction bs with
  | nil => cases hb
  | cons c bs ih =>
      obtain ⟨hNew, hRest⟩ := List.nodup_cons.mp hDistinct
      rw [within_cons]
      rcases List.mem_cons.mp hb with rfl | hb
      · rw [if_pos rfl, within_eq_nil hNew, List.append_nil]
      · have hOther : c.extent ≠ b.extent := fun hSame => hNew (hSame ▸ List.mem_map_of_mem hb)
        rw [if_neg hOther, ih hRest hb, List.nil_append]

end TryBlock

namespace Listing.OpenMethod

open TryBlock

/-- The blocks that handlers are collected in one after another. -/
def gather (bs : List TryBlock) (es : List RangedHandler) : List TryBlock :=
  es.foldl (fun bs e => addHandler bs e.1.1 e.1.2 e.2) bs

/-- The handlers of a listing are collected with the ranges that their labels stand for. -/
theorem foldl_addHandler (f : String → Address) (catches : List CatchLine) (bs : List TryBlock) :
    catches.foldl (fun bs c => addHandler bs (f c.start) (f c.stop) ⟨c.type, f c.handler⟩) bs =
      gather bs (catches.map fun c => ((f c.start, f c.stop), ⟨c.type, f c.handler⟩)) := by
  rw [gather, List.foldl_map]

variable {bs : List TryBlock} {x y : Extent} {h : Handler} {a : Address}

/-- Where a handler goes: to the first block with its range, or to a new one behind all others. -/
theorem addHandler_cases (bs : List TryBlock) (x : Extent) (h : Handler) :
    (∃ ls b rs, bs = ls ++ b :: rs ∧ b.extent = x ∧
      addHandler bs x.1 x.2 h = ls ++ { b with handlers := b.handlers ++ [h] } :: rs) ∨
    (x ∉ bs.map extent ∧ addHandler bs x.1 x.2 h = bs ++ [⟨x.1, x.2, [h]⟩]) := by
  induction bs with
  | nil => exact .inr ⟨by simp, rfl⟩
  | cons b bs ih =>
      unfold addHandler
      split
      · rename_i hHere
        exact .inl ⟨[], b, bs, rfl, Prod.ext hHere.1 hHere.2, rfl⟩
      · rename_i hElsewhere
        have hOther : x ≠ b.extent := fun hSame => hElsewhere (by rw [hSame]; exact ⟨rfl, rfl⟩)
        rcases ih with ⟨ls, c, rs, rfl, hc, hAdded⟩ | ⟨hNew, hAdded⟩
        · exact .inl ⟨b :: ls, c, rs, rfl, hc, by rw [hAdded]; rfl⟩
        · exact .inr ⟨by simpa [hOther] using hNew, by rw [hAdded]; rfl⟩

/-- A handler is added to those of its range, and to no others. -/
theorem catching_addHandler_perm :
    (catching (addHandler bs x.1 x.2 h) a).Perm (catching bs a ++ selected [(x, h)] a) := by
  rcases addHandler_cases bs x h with ⟨ls, b, rs, rfl, rfl, hAdded⟩ | ⟨_, hAdded⟩
  · rw [hAdded, catching_append, catching_append, catching_cons, catching_cons, List.append_assoc]
    refine List.Perm.append_left _ ?_
    have hSame : ({ b with handlers := b.handlers ++ [h] } : TryBlock).extent = b.extent := rfl
    rw [hSame]
    by_cases hCovers : b.extent.covers a = true
    · simp only [selected, hCovers, if_true, List.filter_cons_of_pos, List.filter_nil, List.map_cons, List.map_nil,
        List.append_assoc]
      exact List.Perm.append_left _ List.perm_append_comm
    · simp [selected, hCovers]
  · rw [hAdded, catching_append]
    have hNew : catching [⟨x.1, x.2, [h]⟩] a = selected [(x, h)] a := selected_flatMap_ranged.symm
    rw [hNew]

theorem catching_gather_perm (es : List RangedHandler) :
    (catching (gather bs es) a).Perm (catching bs a ++ selected es a) := by
  induction es generalizing bs with
  | nil => simp [gather, selected]
  | cons e es ih =>
      have hGather : gather bs (e :: es) = gather (addHandler bs e.1.1 e.1.2 e.2) es := rfl
      rw [hGather]
      refine ih.trans ?_
      rw [← List.singleton_append, selected_append, ← List.append_assoc]
      exact catching_addHandler_perm.append_right _

/-- There are no handlers but those that have been collected. -/
theorem mem_handlers_gather {es : List RangedHandler} {k : Handler} (hk : k ∈ (gather bs es).flatMap handlers) :
    k ∈ bs.flatMap handlers ∨ ∃ e ∈ es, e.2 = k := by
  induction es generalizing bs with
  | nil => exact .inl hk
  | cons e es ih =>
      have hRest : k ∈ (gather (addHandler bs e.1.1 e.1.2 e.2) es).flatMap handlers := hk
      rcases ih hRest with hAdded | ⟨f, hf, rfl⟩
      · rcases addHandler_cases bs e.1 e.2 with ⟨ls, b, rs, rfl, _, hSame⟩ | ⟨_, hSame⟩ <;>
          simp only [hSame, List.flatMap_append, List.flatMap_cons, List.mem_append, List.mem_singleton,
            List.flatMap_nil, List.not_mem_nil, or_false] at hAdded ⊢
        · rcases hAdded with hLeft | (hHere | rfl) | hRight
          · exact .inl (.inl hLeft)
          · exact .inl (.inr (.inl hHere))
          · exact .inr ⟨e, .head _, rfl⟩
          · exact .inl (.inr (.inr hRight))
        · rcases hAdded with hOld | rfl
          · exact .inl hOld
          · exact .inr ⟨e, .head _, rfl⟩
      · exact .inr ⟨f, .tail _ hf, rfl⟩

/-- Which ranges there are, and which one more handler may add. -/
theorem extents_addHandler :
    (addHandler bs x.1 x.2 h).map extent = bs.map extent ∨
      x ∉ bs.map extent ∧ (addHandler bs x.1 x.2 h).map extent = bs.map extent ++ [x] := by
  rcases addHandler_cases bs x h with ⟨ls, b, rs, rfl, _, hAdded⟩ | ⟨hNew, hAdded⟩
  · rw [hAdded]
    exact .inl (by simp [extent])
  · exact .inr ⟨hNew, by simp [hAdded, extent]⟩

/-- Ranges stay apart. -/
theorem nodup_addHandler (hDistinct : (bs.map extent).Nodup) : ((addHandler bs x.1 x.2 h).map extent).Nodup := by
  rcases @extents_addHandler bs x h with hOld | ⟨hNew, hAdded⟩
  · exact hOld ▸ hDistinct
  · rw [hAdded, ← List.concat_eq_append]
    exact List.Nodup.concat hNew hDistinct

/-- A handler comes after all that may catch the same exceptions, if the blocks after the first one with its range do
not overlap it. -/
theorem catching_addHandler (hDistinct : (bs.map extent).Nodup) (hSettled : Extent.Settled (bs.map extent ++ [x])) :
    catching (addHandler bs x.1 x.2 h) a = catching bs a ++ selected [(x, h)] a := by
  rcases addHandler_cases bs x h with ⟨ls, b, rs, rfl, rfl, hAdded⟩ | ⟨_, hAdded⟩
  · have hSame : ({ b with handlers := b.handlers ++ [h] } : TryBlock).extent = b.extent := rfl
    rw [hAdded, catching_append, catching_append, catching_cons, catching_cons, hSame]
    by_cases hCovers : b.extent.covers a = true
    · have hRest : catching rs a = [] := by
        unfold catching
        rw [List.filter_eq_nil_iff.mpr, List.flatMap_nil]
        intro c hc
        have hBetween : [b.extent, c.extent, b.extent].Sublist ((ls ++ b :: rs).map extent ++ [b.extent]) := by
          have hAfter : [c.extent].Sublist (rs.map extent) := List.singleton_sublist.mpr (List.mem_map_of_mem hc)
          simpa using ((hAfter.cons_cons b.extent).trans (List.sublist_append_right (ls.map extent) _)).append
            (List.Sublist.refl [b.extent])
        have hOther : c.extent ≠ b.extent := by
          rintro hEq
          simp only [List.map_append, List.map_cons, List.nodup_append, List.nodup_cons] at hDistinct
          exact hDistinct.2.1.1 (hEq ▸ List.mem_map_of_mem hc)
        have hMem {y : Extent} (hy : y ∈ [b.extent, c.extent, b.extent]) := hBetween.subset hy
        have hApart := (hSettled _ (hMem (by simp)) _ (hMem (by simp)) hBetween).resolve_left hOther
        exact Bool.eq_false_iff.mp (hApart.covers_eq_false hCovers)
      simp [selected, hCovers, hRest]
    · simp [selected, hCovers]
  · rw [hAdded, catching_append]
    exact congrArg _ selected_flatMap_ranged.symm

/-- Handlers keep their order. -/
theorem catching_gather_of_settled {es : List RangedHandler} (hDistinct : (bs.map extent).Nodup)
    (hSettled : Extent.Settled (bs.map extent ++ es.map Prod.fst)) :
    catching (gather bs es) a = catching bs a ++ selected es a := by
  induction es generalizing bs with
  | nil => simp [gather, selected]
  | cons e es ih =>
      have hFirst := catching_addHandler (h := e.2) (a := a) hDistinct
        (hSettled.sublist ((List.singleton_sublist.mpr (.head _)).append_left _))
      have hRest : Extent.Settled ((addHandler bs e.1.1 e.1.2 e.2).map extent ++ es.map Prod.fst) := by
        rcases @extents_addHandler bs e.1 e.2 with hOld | ⟨_, hAdded⟩
        · rw [hOld]
          exact hSettled.sublist (List.Sublist.append_left (List.sublist_cons_self _ _) _)
        · rw [hAdded, List.append_assoc]
          exact hSettled
      have hGather : gather bs (e :: es) = gather (addHandler bs e.1.1 e.1.2 e.2) es := rfl
      rw [hGather, ih (nodup_addHandler hDistinct) hRest, hFirst, List.append_assoc, ← selected_append,
        List.singleton_append]

/-- A handler comes last of those of its range. -/
theorem within_addHandler (hDistinct : (bs.map extent).Nodup) :
    within (addHandler bs x.1 x.2 h) y = within bs y ++ if x = y then [h] else [] := by
  rcases addHandler_cases bs x h with ⟨ls, b, rs, rfl, rfl, hAdded⟩ | ⟨_, hAdded⟩
  · have hSame : ({ b with handlers := b.handlers ++ [h] } : TryBlock).extent = b.extent := rfl
    rw [hAdded, within_append, within_append, within_cons, within_cons, hSame]
    by_cases hHere : b.extent = y
    · subst hHere
      have hRest : b.extent ∉ rs.map extent := by
        rw [List.map_append, List.map_cons] at hDistinct
        exact (List.nodup_cons.mp (List.nodup_append.mp hDistinct).2.1).1
      simp [within_eq_nil hRest]
    · simp [hHere]
  · rw [hAdded, within_append, within_cons, show within [] y = [] from rfl, List.append_nil]
    rfl

/-- Each range gets one block, which has the handlers of the range in their order. -/
theorem gather_distinct (es : List RangedHandler) (hDistinct : (bs.map extent).Nodup) :
    ((gather bs es).map extent).Nodup ∧
      (∀ x ∈ (gather bs es).map extent, x ∈ bs.map extent ∨ x ∈ es.map Prod.fst) ∧
      ∀ y, within (gather bs es) y = within bs y ++ (es.filter fun e => e.1 = y).map Prod.snd := by
  induction es generalizing bs with
  | nil => exact ⟨hDistinct, fun x hx => .inl hx, fun y => (List.append_nil _).symm⟩
  | cons e es ih =>
      obtain ⟨hApart, hExtents, hWithin⟩ := ih (nodup_addHandler hDistinct)
      refine ⟨hApart, fun x hx => ?_, fun y => (hWithin y).trans ?_⟩
      · rcases @extents_addHandler bs e.1 e.2 with hOld | ⟨_, hAdded⟩
        · exact (hOld ▸ hExtents x hx).imp_right fun h => .tail _ h
        · rcases hAdded ▸ hExtents x hx with hBefore | hLater
          · exact (List.mem_append.mp hBefore).imp_right fun h => List.mem_cons.mpr (.inl (List.mem_singleton.mp h))
          · exact .inr (.tail _ hLater)
      · rw [within_addHandler hDistinct, List.append_assoc, List.filter_cons]
        by_cases hHere : e.1 = y <;> simp [hHere]

/-- A handler passes blocks with other ranges. -/
theorem addHandler_append {ls rs : List TryBlock} (hNew : x ∉ ls.map extent) :
    addHandler (ls ++ rs) x.1 x.2 h = ls ++ addHandler rs x.1 x.2 h := by
  induction ls with
  | nil => rfl
  | cons b ls ih =>
      rw [List.map_cons, List.mem_cons, not_or] at hNew
      have hOther : ¬ (b.start = x.1 ∧ b.stop = x.2) := fun hSame => hNew.1 (Prod.ext hSame.1.symm hSame.2.symm)
      rw [List.cons_append, addHandler, if_neg hOther, ih hNew.2, List.cons_append]

/-- The handlers of one more range are collected in one more block. -/
theorem gather_ranged {b : TryBlock} (hNew : b.extent ∉ bs.map extent) (hSome : b.handlers ≠ []) :
    gather bs b.ranged = bs ++ [b] := by
  have hMore (ks hs : List Handler) : gather (bs ++ [⟨b.start, b.stop, ks⟩]) (hs.map (b.extent, ·)) =
      bs ++ [⟨b.start, b.stop, ks ++ hs⟩] := by
    induction hs generalizing ks with
    | nil => simp [gather]
    | cons k hs ih =>
        have hAdded : addHandler (bs ++ [⟨b.start, b.stop, ks⟩]) b.extent.1 b.extent.2 k =
            bs ++ [⟨b.start, b.stop, ks ++ [k]⟩] := by
          rw [addHandler_append hNew]
          simp [addHandler, extent]
        rw [List.map_cons, gather, List.foldl_cons, hAdded]
        simpa [gather] using ih (ks ++ [k])
  obtain ⟨k, hs, hHandlers⟩ := List.exists_cons_of_ne_nil hSome
  have hFirst : addHandler bs b.extent.1 b.extent.2 k = bs ++ [⟨b.start, b.stop, [k]⟩] := by
    simpa [addHandler, extent] using (addHandler_append hNew : addHandler (bs ++ []) b.extent.1 b.extent.2 k = _)
  rw [ranged, hHandlers, List.map_cons, gather, List.foldl_cons, hFirst]
  refine (hMore [k] hs).trans ?_
  rw [List.singleton_append, ← hHandlers]

/-- Blocks with handlers, each with a range of its own, are made up again from their handlers. -/
theorem gather_flatMap_ranged {cs : List TryBlock} (hDistinct : ((bs ++ cs).map extent).Nodup)
    (hSome : ∀ c ∈ cs, c.handlers ≠ []) : gather bs (cs.flatMap ranged) = bs ++ cs := by
  induction cs generalizing bs with
  | nil => simp [gather]
  | cons c cs ih =>
      have hNew : c.extent ∉ bs.map extent := by
        rw [List.map_append, List.map_cons] at hDistinct
        exact fun hMem => (List.nodup_append.mp hDistinct).2.2 _ hMem _ (.head _) rfl
      have hFirst := gather_ranged hNew (hSome c (.head _))
      unfold gather at hFirst ⊢
      rw [List.flatMap_cons, List.foldl_append, hFirst]
      simpa [gather] using @ih (bs ++ [c]) (by simpa using hDistinct) fun d hd => hSome d (.tail _ hd)

end Listing.OpenMethod

end Dalvik
