import Dalvik.Proofs.Covering

/-!
What two runs do with arrays. Of an array of the second run the first may know more, as long as nothing in
it stands for an instance that changes.
-/

namespace Dalvik

namespace Semantics

open Value (Stands)

/-- Where an index points to in the array of one run and in that of another, which have the lengths `m`
and `n`. -/
inductive Slot.Stands (Λ : Links) (m n : Option Nat) : Slot → Slot → Prop
  | outside : Slot.Stands Λ m n .outside .outside
  | tracked {ws vs : List Value} (i : Int32) : m = n → List.Forall₂ (Value.Stands Λ) ws vs →
      (Λ.loose → ∀ w ∈ ws, w.Hidden Λ) → Slot.Stands Λ m n (.tracked i ws) (.tracked i vs)
  | untracked : m = n → Slot.Stands Λ m n .untracked .untracked
  | hidden {s : Slot} : Λ.loose → (n = none ∨ n = m) →
      (∀ i ws, s = .tracked i ws → ∀ w ∈ ws, w.Hidden Λ) → Slot.Stands Λ m n s .untracked

section

variable {Λ : Links} {x y : Option Int32} {i j : Nat} {d e : Descriptor} {m n : Option Nat}
  {es es' : Option (List Value)}

theorem hidden_set {ws : List Value} {w : Value} (hws : ∀ u ∈ ws, u.Hidden Λ) (hw : w.Hidden Λ)
    (p : Nat) : ∀ u ∈ ws.set p w, u.Hidden Λ := by
  intro u hu
  rcases List.mem_or_eq_of_mem_set hu with hOld | rfl
  · exact hws u hOld
  · exact hw

theorem slot_hidden (hes : ∀ ws, es = some ws → ∀ w ∈ ws, w.Hidden Λ) (k : Int32) (ws : List Value)
    (h : slot x m es = .tracked k ws) : ∀ w ∈ ws, w.Hidden Λ := by
  unfold slot at h
  split at h
  · cases h
  · split at h
    · cases h
    · split at h
      · cases h
        exact hes _ rfl
      · cases h

theorem slot_stands (hIndex : Value.Sharper Λ x y)
    (h : Value.Stands Λ (.array i d m es) (.array j e n es')) :
    Slot.Stands Λ m n (slot x m es) (slot y n es') := by
  cases h with
  | atom h => cases es <;> cases h
  | @array _ _ ws vs _ _ _ hvs hFree =>
      rcases hIndex with rfl | ⟨hl, rfl⟩
      · cases x with
        | none => exact .untracked rfl
        | some k =>
            unfold slot
            dsimp only
            split
            · exact .outside
            · exact .tracked k rfl hvs hFree
      · refine .hidden hl (.inr rfl) (slot_hidden fun us hus => ?_)
        cases hus
        exact hFree hl
  | untracked =>
      rcases hIndex with rfl | ⟨hl, rfl⟩
      · cases x with
        | none => exact .untracked rfl
        | some k =>
            unfold slot
            dsimp only
            split
            · exact .outside
            · exact .untracked rfl
      · refine .hidden hl (.inr rfl) (slot_hidden fun us hus => ?_)
        cases hus
  | tracked _ _ _ _ hl hn hes =>
      have hFree := slot_hidden (x := x) (m := m) hes
      rcases hIndex with rfl | ⟨_, rfl⟩
      · cases x with
        | none => exact .hidden hl hn hFree
        | some k =>
            rcases hn with rfl | rfl
            · exact .hidden hl (.inl rfl) hFree
            · by_cases hOutside : (n.map (isOutside k)).getD false = true
              · simp only [slot, hOutside, if_true]
                exact .outside
              · simp only [slot, hOutside]
                exact .hidden hl (.inr rfl) (by simpa [slot, hOutside] using hFree)
      · exact .hidden hl hn hFree

end

section

variable {Λ : Links} {f : Address → Address} {hs : List Handler} {pre pre' post post' : State}
  (hPre : pre.Stands Λ pre') (hPost : post.Rests Λ post')

include hPre

theorem readInt_tracks (r : Register) :
    Tracks Λ (readInt pre r) (readInt pre' r) (Value.Sharper Λ) :=
  ((hPre.read r).imp fun _ _ hv => (hv.coerce .int).int32?).map

omit hPre in
theorem position_tracks {ws vs : List Value} (hvs : List.Forall₂ (Stands Λ) ws vs) (k : Int32) :
    Tracks Λ (position k ws) (position k vs) Eq := by
  unfold position
  rw [hvs.length_eq]
  split
  · rintro _ ⟨⟩
  · exact tracks_pure rfl

omit hPre in
theorem stands_getD {ws vs : List Value} (hvs : List.Forall₂ (Stands Λ) ws vs) (n : Nat)
    (d : Descriptor) : Stands Λ (ws[n]?.getD (.unknown d)) (vs[n]?.getD (.unknown d)) := by
  induction hvs generalizing n with
  | nil => exact .unknown d
  | cons hHead _ ih =>
      cases n with
      | zero => exact hHead
      | succ n => exact ih n

include hPost

/-- The length of an array that is not known in the second run may be so in the first. -/
theorem arrayLength_tracks (dst array : Register) :
    Tracks Λ (arrayLength pre post dst array) (arrayLength pre' post' dst array)
      (Outcome.Covers Λ f hs) := by
  refine (hPre.read array).bind fun w v hv => ?_
  have hSome {x y : Option Value} (hx : Lessens Λ hs x y) :
      Tracks Λ (Outcome.assign post dst (.unknown .int) x)
        (Outcome.assign post' dst (.unknown .int) y) (Outcome.Covers Λ f hs) :=
    tracks_assign hPost (.unknown .int) hx dst
  have hLength (n : Nat) :
      Tracks Λ (Outcome.assign post dst (.int (Int32.ofNat n)) none)
        (Outcome.assign post' dst (.int (Int32.ofNat n)) none) (Outcome.Covers Λ f hs) :=
    tracks_assign hPost (.atom rfl) lessens_none dst
  cases hv with
  | unknown d => exact hSome (lessens_someException _)
  | hidden d hl hw =>
      split
      · exact tracks_raise_assign hPost (fun t ht => .raises hl (.inl rfl) ht) rfl dst
      · exact tracks_assign hPost (.hidden .int hl (Value.hidden_of_isAtom rfl)) (.inr ⟨hl, rfl⟩) dst
      · split
        · exact hSome (.inr ⟨hl, rfl⟩)
        · exact hSome (lessens_someException _)
  | null d e => exact tracks_pure (covers_raise hPost _)
  | atom h => cases w <;> first | (cases h; done) | exact hSome lessens_none
  | array d n _ _ _ =>
      cases n with
      | none => exact hSome lessens_none
      | some n => exact hLength n
  | untracked d n _ =>
      cases n with
      | none => exact hSome lessens_none
      | some n => exact hLength n
  | tracked d m n _ hl hn _ =>
      cases n with
      | none =>
          cases m with
          | none => exact hSome lessens_none
          | some m =>
              exact tracks_assign hPost (.hidden .int hl (Value.hidden_of_isAtom rfl)) lessens_none dst
      | some n =>
          obtain rfl := hn.resolve_left (by simp)
          exact hLength n
  | _ => exact hSome lessens_none

omit hPre in
/-- An element of an array in which nothing stands for an instance that changes. -/
theorem hidden_getD_tracks {es : List Value} (hl : Λ.loose) (hes : ∀ u ∈ es, u.Hidden Λ) (n : Nat)
    (dst : Register) {d e : Descriptor} {z : Option Value} :
    Tracks Λ (Outcome.assign post dst (es[n]?.getD (.unknown d)) none)
      (Outcome.assign post' dst (.unknown e) z) (Outcome.Covers Λ f hs) := by
  refine tracks_assign hPost (.hidden e hl ?_) (.inr ⟨hl, rfl⟩) dst
  cases hElement : es[n]? with
  | none => exact Value.hidden_unknown d
  | some u => exact hes u (List.mem_of_getElem? hElement)

omit hPre in
/-- What is read where the first run has an array of which it may know more. -/
theorem getSlot_tracks {m n : Option Nat} {p q : Slot} (hSlot : p.Stands Λ m n q) (dst : Register)
    (d : Descriptor) :
    Tracks Λ
      (match p with
        | .outside => pure (Outcome.raise post .indexException)
        | .tracked i es => position i es >>= fun n =>
            Outcome.assign post dst (es[n]?.getD (.unknown d)) none
        | .untracked => Outcome.assign post dst (.unknown d) (someException .indexException))
      (match q with
        | .outside => pure (Outcome.raise post' .indexException)
        | .tracked i es => position i es >>= fun n =>
            Outcome.assign post' dst (es[n]?.getD (.unknown d)) none
        | .untracked => Outcome.assign post' dst (.unknown d) (someException .indexException))
      (Outcome.Covers Λ f hs) := by
  cases hSlot with
  | outside => exact tracks_pure (covers_raise hPost _)
  | tracked k _ hvs hFree =>
      refine (position_tracks hvs k).bind fun n n' hn => ?_
      subst hn
      exact tracks_assign hPost (stands_getD hvs n d) lessens_none dst
  | untracked _ => exact tracks_assign hPost (.unknown _) (lessens_someException _) dst
  | hidden hl _ hFree =>
      split
      · exact tracks_raise_assign hPost (fun t ht => .raises hl (.inl rfl) ht) rfl dst
      · exact .bind_first hl fun k _ => hidden_getD_tracks hPost hl (hFree _ _ rfl) k dst
      · exact tracks_assign hPost (.unknown _) (lessens_someException _) dst

/-- Where there are handlers it has to be known from which array is read: of an array that is not known
the second run expects that it is null, but not that the index is none of its. -/
theorem arrayGet_tracks (dst array index : Register)
    (hCandid : Λ.loose → hs = [] ∨ pre'.Knows array) :
    Tracks Λ (arrayGet pre post dst array index) (arrayGet pre' post' dst array index)
      (Outcome.Covers Λ f hs) := by
  refine (readInt_tracks hPre index).bind fun x y hIndex =>
    (hPre.read array).noting.bind fun w v ⟨hv, hFirst, hRead⟩ => ?_
  have hSome (d : Descriptor) :
      Tracks Λ (Outcome.assign post dst (.unknown d) (someException .nullPointerException))
        (Outcome.assign post' dst (.unknown d) (someException .nullPointerException))
        (Outcome.Covers Λ f hs) :=
    tracks_assign hPost (.unknown d) (lessens_someException _) dst
  cases hv with
  | unknown d => exact hSome _
  | hidden d hl hw =>
      have hNone : hs = [] := (hCandid hl).resolve_right fun hKnown => by cases hKnown _ hRead
      have hRaise (e : Descriptor) :
          Tracks Λ (pure (Outcome.raise post e))
            (Outcome.assign post' dst (.unknown d.elementOrObject) (someException .nullPointerException))
            (Outcome.Covers Λ f hs) :=
        tracks_raise_assign hPost (fun t ht => .silent hl hNone ht) rfl dst
      have hOther (e : Descriptor) (z : Descriptor) :
          Tracks Λ (Outcome.assign post dst (.unknown e) (someException z))
            (Outcome.assign post' dst (.unknown d.elementOrObject) (someException .nullPointerException))
            (Outcome.Covers Λ f hs) :=
        tracks_assign hPost (.hidden _ hl (Value.hidden_unknown e)) (.inl (.some (.inl hNone))) dst
      split
      · exact hRaise _
      · rename_i i e m es _
        have hFree := slot_hidden (x := x) (m := m) hw.array.2.2
        split
        · exact hRaise _
        · rename_i k ws hSlot
          exact .bind_first hl fun n _ => hidden_getD_tracks hPost hl (hFree k ws hSlot) n dst
        · exact hOther _ _
      · exact hOther _ _
  | null d e => exact tracks_pure (covers_raise hPost _)
  | atom h => cases w <;> first | (cases h; done) | exact hSome _
  | array d n hLink hvs hFree =>
      exact getSlot_tracks hPost (slot_stands hIndex (.array d n hLink hvs hFree)) dst _
  | untracked d n hLink =>
      exact getSlot_tracks hPost (slot_stands hIndex (.untracked d n hLink)) dst _
  | tracked d m n hLink hl hn hes =>
      exact getSlot_tracks hPost (slot_stands hIndex (.tracked d m n hLink hl hn hes)) dst _
  | _ => exact hSome _

omit hPre in
/-- What is written where the first run has an array of which it may know more. In an array that the
second run has lost track of, the first goes on writing. -/
theorem putSlot_tracks (hΛ : Λ.Injective) {u u' : Value} (hu : u.Stands Λ u')
    (hPlain : Λ.loose → ∀ d, (u.coerce d).Hidden Λ) {i j : Nat} {d : Descriptor} {m n : Option Nat}
    (hLink : Λ.Changes i j) {p q : Slot} (hSlot : p.Stands Λ m n q) :
    Tracks Λ
      (match p with
        | .outside => pure (Outcome.raise post .indexException)
        | .tracked k es => position k es >>= fun p =>
            pure (.next (post.updateInstance i
              (.array i d m (some (es.set p (u.coerce d.elementOrObject))))))
        | .untracked => pure (.nextOr (post.updateInstance i (.array i d m none))
            (someException .indexException)))
      (match q with
        | .outside => pure (Outcome.raise post' .indexException)
        | .tracked k es => position k es >>= fun p =>
            pure (.next (post'.updateInstance j
              (.array j d n (some (es.set p (u'.coerce d.elementOrObject))))))
        | .untracked => pure (.nextOr (post'.updateInstance j (.array j d n none))
            (someException .indexException)))
      (Outcome.Covers Λ f hs) := by
  have hLost (hl : Λ.loose) (hn : n = none ∨ n = m) {us : Option (List Value)}
      (hus : ∀ ws, us = some ws → ∀ w ∈ ws, w.Hidden Λ) :
      (post.updateInstance i (.array i d m us)).Passes Λ
        (post'.updateInstance j (.array j d n none)) :=
    (hPost.updateInstance hΛ hLink (.tracked d m n hLink hl hn hus)).passes
  cases hSlot with
  | outside => exact tracks_pure (covers_raise hPost _)
  | tracked k hmn hvs hFree =>
      subst hmn
      refine (position_tracks hvs k).bind fun p p' hp => ?_
      subst hp
      refine tracks_pure (covers_next (hPost.updateInstance hΛ hLink (.array d m hLink
        (State.forall₂_set hvs (hu.coerce _) p) fun hl => hidden_set (hFree hl) (hPlain hl _) p)))
  | untracked hmn =>
      subst hmn
      exact tracks_pure (Lessens.covers (lessens_someException _)
        (hPost.updateInstance hΛ hLink (.untracked d m hLink)).passes)
  | hidden hl hn hFree =>
      split
      · exact tracks_pure (.raises hl (.inl rfl) (hPost.stands.shows.updateInstance rfl))
      · refine .bind_first hl fun p _ => tracks_pure (.certain hl (hLost hl hn fun ws hws => ?_))
        cases hws
        exact hidden_set (hFree _ _ rfl) (hPlain hl _) p
      · exact tracks_pure (Lessens.covers (lessens_someException _) (hLost hl hn (by simp)))

/-- Besides, what is written must not be an array or an object of which the second run knows: in the first
run it could be changed behind an array that the second knows nothing of. -/
theorem arrayPut_tracks (hΛ : Λ.Injective) (hLone : ∀ i, Λ.lone i → ∀ j, ¬ Λ.same i j)
    (src array index : Register)
    (hCandid : Λ.loose → hs = [] ∨ pre'.Knows array)
    (hFlat : Λ.loose → ∀ v, pre'.read src = .ok v → v.isMutable = false) :
    Tracks Λ (arrayPut pre post src array index) (arrayPut pre' post' src array index)
      (Outcome.Covers Λ f hs) := by
  refine (hPre.read src).noting.bind fun u u' ⟨hu, _, hSource⟩ =>
    (readInt_tracks hPre index).bind fun x y hIndex =>
      (hPre.read array).noting.bind fun w v ⟨hv, hFirst, hRead⟩ => ?_
  have hPlain (hl : Λ.loose) (d : Descriptor) : (u.coerce d).Hidden Λ :=
    (hu.hides hl (hFlat hl _ hSource)).coerce d
  have hOther : Tracks Λ (pure (.nextOr post (someException .nullPointerException)))
      (pure (.nextOr post' (someException .nullPointerException))) (Outcome.Covers Λ f hs) :=
    tracks_pure (Lessens.covers (lessens_someException _) hPost.passes)
  cases hv with
  | unknown d => exact hOther
  | hidden d hl hw =>
      have hNone : hs = [] := (hCandid hl).resolve_right fun hKnown => by cases hKnown _ hRead
      have hRaise (e : Descriptor) :
          Tracks Λ (pure (Outcome.raise post e))
            (pure (.nextOr post' (someException .nullPointerException)))
            (Outcome.Covers Λ f hs) :=
        tracks_pure (.silent hl hNone hPost.stands.shows)
      split
      · exact hRaise _
      · rename_i i e m es _
        obtain ⟨hFree, hAlone, hes⟩ := hw.array
        have hOwn {us : Option (List Value)} (hus : ∀ ws, us = some ws → ∀ w ∈ ws, w.Hidden Λ) :
            (post.updateInstance i (.array i e m us)).Passes Λ post' :=
          (hPost.updateInstance_first hl (hLone i hAlone) (Value.hidden_array hFree hAlone hus)).passes
        have hSlot := slot_hidden (x := x) (m := m) hes
        split
        · exact hRaise _
        · rename_i k ws hHere
          refine .bind_first hl fun p _ => tracks_pure (.certain hl (hOwn fun us hus => ?_))
          cases hus
          exact hidden_set (hSlot k ws hHere) (hPlain hl _) p
        · exact tracks_pure (Lessens.covers (.inl (.some (.inl hNone))) (hOwn (by simp)))
      · exact hOther
  | null d e => exact tracks_pure (covers_raise hPost _)
  | atom h => cases w <;> first | (cases h; done) | exact hOther
  | array d n hLink hvs hFree =>
      exact putSlot_tracks hPost hΛ hu hPlain hLink (slot_stands hIndex (.array d n hLink hvs hFree))
  | untracked d n hLink =>
      exact putSlot_tracks hPost hΛ hu hPlain hLink (slot_stands hIndex (.untracked d n hLink))
  | tracked d m n hLink hl hn hes =>
      exact putSlot_tracks hPost hΛ hu hPlain hLink
        (slot_stands hIndex (.tracked d m n hLink hl hn hes))
  | _ => exact hOther

omit hPre in
/-- Both runs create an array. -/
theorem alloc_tracks {s t : Supply} (hBond : Λ.Bond s.heap t.heap) {type : Descriptor}
    {m n : Option Nat} {es es' : Option (List Value)} {x y : Option Value}
    (hArray : ∀ (Λ' : Links) (i j : Nat), (Λ'.loose ↔ Λ.loose) → Λ'.Changes i j →
      Stands Λ' (.array i type m es) (.array j type n es'))
    (hx : Lessens Λ hs x y) (dst : Register) :
    Run.Tracks Λ
      (Run.onHeap (fun h => h.newArray type m es) >>= fun v =>
        Run.ofExcept (Outcome.assign post dst v x))
      (Run.onHeap (fun h => h.newArray type n es') >>= fun v =>
        Run.ofExcept (Outcome.assign post' dst v y)) s t
      fun Λ' => Outcome.Covers Λ' f hs := by
  have hAlloc := hBond.alloc True
  have hNew := hArray _ _ _ hAlloc.grows.loose (Links.link_changes (Λ := Λ))
  refine Run.Tracks.bind (P := fun Λ' w v => Stands Λ' w v) (Run.tracks_onHeap ⟨_, hAlloc, hNew⟩) ?_
  intro Λ' s' t' w v hΛ hv
  exact Run.tracks_ofExcept hΛ.bond
    (tracks_assign (hPost.grow hΛ.grows) hv (hx.grow hΛ.grows) dst)

/-- The size of a new array that is not known in the second run may be so in the first. -/
theorem newArray_tracks {s t : Supply} (hBond : Λ.Bond s.heap t.heap) (dst size : Register)
    (type : Descriptor) :
    Run.Tracks Λ (newArray pre post dst size type) (newArray pre' post' dst size type) s t
      fun Λ' => Outcome.Covers Λ' f hs := by
  refine Run.tracks_ofExcept_bind (readInt_tracks hPre size) fun x y hSize => ?_
  have hUnsized : Run.Tracks Λ
      (Run.onHeap (fun h => h.newArray type none none) >>= fun v =>
        Run.ofExcept (Outcome.assign post dst v (someException .negativeSizeException)))
      (Run.onHeap (fun h => h.newArray type none none) >>= fun v =>
        Run.ofExcept (Outcome.assign post' dst v (someException .negativeSizeException))) s t
      fun Λ' => Outcome.Covers Λ' f hs :=
    alloc_tracks hPost hBond (fun Λ' i j _ hLink => .untracked type none hLink)
      (lessens_someException .negativeSizeException) dst
  rcases hSize with rfl | ⟨hl, rfl⟩
  · cases x with
    | none => exact hUnsized
    | some n =>
        dsimp only
        split
        · exact Run.tracks_pure hBond (covers_raise hPost _)
        · refine alloc_tracks hPost hBond (fun Λ' i j _ hLink => ?_) lessens_none dst
          split
          · refine .array type _ hLink ?_ fun _ w hw => ?_
            · exact List.forall₂_same.mpr fun w hw => List.eq_of_mem_replicate hw ▸ Value.stands_zero _
            · exact List.eq_of_mem_replicate hw ▸ Value.hidden_zero _
          · exact .untracked type _ hLink
  · cases x with
    | none => exact hUnsized
    | some n =>
        dsimp only
        split
        · refine Run.tracks_onHeap_second hBond (Heap.grows_alloc _) ?_
          have hRaised := hPost.grow (Links.grows_raise (Λ := Λ) hBond.bound)
          exact Run.tracks_ofExcept (hBond.grow (.refl _) (Heap.grows_alloc _)).raise
            (tracks_raise_assign hRaised (fun t ht => .raises hl (.inl rfl) ht) rfl dst)
        · refine alloc_tracks hPost hBond (fun Λ' i j hLoose hLink => ?_) (.inr ⟨hl, rfl⟩) dst
          refine .tracked type _ none hLink (hLoose.mpr hl) (.inl rfl) fun ws hws w hw => ?_
          split at hws
          · cases hws
            exact List.eq_of_mem_replicate hw ▸ Value.hidden_zero _
          · cases hws

/-- What can be filled: an array of which all elements are known, or none ever are. -/
def Fillable (v : Value) : Prop :=
  match v with
  | .array _ _ length elements => ∃ n, length = some n ∧ (elements.isSome ∨ maxTracked < n)
  | _ => True

omit hPre hPost in
theorem mem_overwrite {elements new : List Value} {w : Value} (h : w ∈ overwrite elements new) :
    w ∈ elements ∨ w ∈ new := by
  rcases List.mem_append.mp h with hNew | hOld
  · exact .inr (List.mem_of_mem_take hNew)
  · exact .inl (List.mem_of_mem_drop hOld)

omit hPre hPost in
theorem stands_overwrite {ws vs new new' : List Value} (hvs : List.Forall₂ (Stands Λ) ws vs)
    (hNew : List.Forall₂ (Stands Λ) new new') (d : Descriptor) :
    List.Forall₂ (Stands Λ) (overwrite ws (new.map fun w => w.coerce d))
      (overwrite vs (new'.map fun v => v.coerce d)) := by
  have hCoerce : List.Forall₂ (Stands Λ) (new.map fun w => w.coerce d)
      (new'.map fun v => v.coerce d) := by
    rw [List.forall₂_map_left_iff, List.forall₂_map_right_iff]
    exact hNew.imp fun _ _ hv => hv.coerce d
  unfold overwrite
  rw [hvs.length_eq, hCoerce.length_eq]
  exact List.rel_append (List.forall₂_take _ hCoerce) (List.forall₂_drop _ hvs)

omit hPre hPost in
theorem isMutable_literals (h : Heap) (ls : List Literal) :
    ∀ v ∈ (h.literals ls).1, v.isMutable = false := by
  induction ls generalizing h with
  | nil => simp [Heap.literals]
  | cons l ls ih =>
      intro v hv
      rcases List.mem_cons.mp hv with rfl | hv
      · cases l <;> rfl
      · exact ih _ v hv

omit hPre in
/-- Both runs fill an array whose elements they know. -/
theorem fill_tracks {s t : Supply} (hBond : Λ.Bond s.heap t.heap) {i j : Nat} {ws vs : List Value}
    (hLink : Λ.Changes i j) (hvs : List.Forall₂ (Stands Λ) ws vs)
    (hFree : Λ.loose → ∀ w ∈ ws, w.Hidden Λ) (d : Descriptor) (n : Option Nat)
    (data : List Literal) :
    Run.Tracks Λ
      (Run.onHeap (fun h => h.literals (data.take ws.length)) >>= fun new =>
        pure (.next (post.updateInstance i (.array i d n
          (some (overwrite ws (new.map fun v => v.coerce d.elementOrObject)))))))
      (Run.onHeap (fun h => h.literals (data.take vs.length)) >>= fun new =>
        pure (.next (post'.updateInstance j (.array j d n
          (some (overwrite vs (new.map fun v => v.coerce d.elementOrObject)))))))
      s t fun Λ' => Outcome.Covers Λ' f hs := by
  rw [← hvs.length_eq]
  obtain ⟨Λ₁, hΛ₁, hNew⟩ := hBond.literals (data.take ws.length)
  have hMutable := isMutable_literals t.heap (data.take ws.length)
  refine Run.Tracks.bind (P := fun Λ' new new' => List.Forall₂ (Stands Λ') new new' ∧
    ∀ v ∈ new', v.isMutable = false) (Run.tracks_onHeap ⟨Λ₁, hΛ₁, hNew, hMutable⟩) ?_
  rintro Λ' s' t' new new' hΛ ⟨hNew, hMutable⟩
  have hOld : List.Forall₂ (Stands Λ') ws vs := hvs.imp fun _ _ hv => hv.grow hΛ.grows
  refine Run.tracks_pure hΛ.bond (covers_next ((hPost.grow hΛ.grows).updateInstance
    hΛ.bond.injective (hLink.grow hΛ.grows) (.array d n (hLink.grow hΛ.grows)
      (stands_overwrite hOld hNew _) fun hl w hw => ?_)))
  rcases mem_overwrite hw with hw | hw
  · exact (hFree (hΛ.grows.loose.mp hl) w hw).grow hΛ.grows
  · obtain ⟨u, hu, rfl⟩ := List.mem_map.mp hw
    obtain ⟨v, hv, hStands⟩ := exists_of_forall₂ hNew hu
    exact (hStands.hides hl (hMutable v hv)).coerce _

omit hPre in
/-- The first run fills an array of which the second knows nothing. -/
theorem fill_first_tracks {s t : Supply} (hBond : Λ.Bond s.heap t.heap) (hl : Λ.loose) {i : Nat}
    {ws : List Value} (hFree : Λ.Free i) (hLone : Λ.lone i) (hws : ∀ w ∈ ws, w.Hidden Λ)
    (d : Descriptor) (n : Option Nat) (data : List Literal) {y : Option Value} :
    Run.Tracks Λ
      (Run.onHeap (fun h => h.literals (data.take ws.length)) >>= fun new =>
        pure (.next (post.updateInstance i (.array i d n
          (some (overwrite ws (new.map fun v => v.coerce d.elementOrObject)))))))
      (pure (.nextOr post' y)) s t fun Λ' => Outcome.Covers Λ' f hs := by
  have hGrows := Heap.grows_literals s.heap (data.take ws.length)
  have hNew := hBond.hidden_literals (data.take ws.length)
  have hNow := hBond.advances hGrows (.refl t.heap)
  refine Run.tracks_onHeap_first hBond hGrows (Run.tracks_pure hNow.bond (.certain hl
    ((hPost.grow hNow.grows).updateInstance_first hl (hBond.lone i hLone).2.1
      (Value.hidden_array (hFree.grow hNow.grows) hLone ?_)).passes))
  rintro us hus w hw
  cases hus
  rcases mem_overwrite hw with hOld | hw
  · exact (hws w hOld).grow hNow.grows
  · obtain ⟨u, hu, rfl⟩ := List.mem_map.mp hw
    exact (hNew u hu).coerce _

/-- Of an array with lost contents the second run takes it that the other elements are those of a new
one. The first run may know better, so that such an array must not be filled. -/
theorem fillArray_tracks {s t : Supply} (hBond : Λ.Bond s.heap t.heap) (array : Register)
    (data : List Literal)
    (hCandid : Λ.loose → hs = [] ∨ pre'.Knows array)
    (hFillable : Λ.loose → ∀ v, pre'.read array = .ok v → Fillable v) :
    Run.Tracks Λ (fillArray pre post array data) (fillArray pre' post' array data) s t
      fun Λ' => Outcome.Covers Λ' f hs := by
  refine Run.tracks_ofExcept_bind (hPre.read array).noting fun w v ⟨hv, _, hRead⟩ => ?_
  have hOther {d : Descriptor} : Run.Tracks Λ (pure (.nextOr post (someException d)))
      (pure (.nextOr post' (someException d))) s t fun Λ' => Outcome.Covers Λ' f hs :=
    Run.tracks_pure hBond (Lessens.covers (lessens_someException _) hPost.passes)
  cases hv with
  | unknown d => exact hOther
  | hidden d hl hw =>
      have hNone : hs = [] := (hCandid hl).resolve_right fun hKnown => by cases hKnown _ hRead
      have hRaise (e : Descriptor) : Run.Tracks Λ (pure (Outcome.raise post e))
          (pure (.nextOr post' (someException .nullPointerException))) s t
          fun Λ' => Outcome.Covers Λ' f hs :=
        Run.tracks_pure hBond (.silent hl hNone hPost.stands.shows)
      have hNext (e : Descriptor) : Run.Tracks Λ (pure (.nextOr post (someException e)))
          (pure (.nextOr post' (someException .nullPointerException))) s t
          fun Λ' => Outcome.Covers Λ' f hs :=
        Run.tracks_pure hBond (Lessens.covers (.inl (.some (.inl hNone))) hPost.passes)
      split
      · exact hRaise _
      · rename_i i e n es _ _
        split
        · exact hRaise _
        · split
          · obtain ⟨hFree, hAlone, hes⟩ := hw.array
            refine fill_first_tracks hPost hBond hl hFree hAlone (fun w hw => ?_) e (some n) data
            cases es with
            | none => exact List.eq_of_mem_replicate hw ▸ Value.hidden_zero _
            | some ws => exact hes ws rfl w hw
          · exact hNext _
      · exact hNext _
      · exact hOther
  | null d e => exact Run.tracks_pure hBond (covers_raise hPost _)
  | atom h => cases w <;> first | (cases h; done) | exact hOther
  | array d n hLink hvs hFree =>
      cases n with
      | none => exact hOther
      | some n =>
          dsimp only
          split
          · exact Run.tracks_pure hBond (covers_raise hPost _)
          · split
            · exact fill_tracks hPost hBond hLink hvs hFree d (some n) data
            · exact hOther
  | untracked d n hLink =>
      cases n with
      | none => exact hOther
      | some n =>
          dsimp only
          split
          · exact Run.tracks_pure hBond (covers_raise hPost _)
          · split
            · refine fill_tracks hPost hBond hLink ?_ (fun _ w hw => ?_) d (some n) data
              · exact List.forall₂_same.mpr fun w hw =>
                  List.eq_of_mem_replicate hw ▸ Value.stands_zero _
              · exact List.eq_of_mem_replicate hw ▸ Value.hidden_zero _
            · exact hOther
  | tracked d m n hLink hl hn hes =>
      obtain ⟨k, rfl, hFill⟩ := hFillable hl _ hRead
      obtain rfl := hn.resolve_left (by simp)
      have hLarge : maxTracked < k := hFill.resolve_left (by simp)
      dsimp only
      rw [if_neg (Nat.not_le_of_lt hLarge), if_neg (Nat.not_le_of_lt hLarge)]
      split
      · exact Run.tracks_pure hBond (covers_raise hPost _)
      · exact hOther
  | _ => exact hOther

end

end Semantics

end Dalvik
