import Dalvik.Comparison
import Dalvik.Proofs.Pairing
import Dalvik.Semantics.Number
import Mathlib.Tactic.Common

/-!
Values of one run that stand for values of another. The runs name instances differently, and of a value
that is unknown in the second run more may be known in the first. What is decided by the values of the
second run is decided alike by those of the first.
-/

namespace Dalvik

/-- How the instances of a run correspond to those of another one. If the first run is loose, more may
be known of its values. `changing` are the instances of the first run that stand for arrays and objects
of the second, and `lone` are its arrays and objects that stand for none; all that it has made are below
`bound`. -/
structure Links where
  loose : Prop
  same : Nat → Nat → Prop
  changing : Nat → Prop
  lone : Nat → Prop
  bound : Nat

namespace Links

/-- Links to which new instances have been added. -/
structure Grows (Λ Λ' : Links) : Prop where
  loose : Λ'.loose ↔ Λ.loose
  same : ∀ i j, Λ.same i j → Λ'.same i j
  changing : ∀ i, Λ.changing i → Λ'.changing i
  lone : ∀ i, Λ.lone i → Λ'.lone i
  fresh : ∀ i, Λ'.changing i → Λ.changing i ∨ Λ.bound ≤ i
  bound : Λ.bound ≤ Λ'.bound

variable {Λ Λ' Λ'' : Links}

theorem Grows.refl (Λ : Links) : Λ.Grows Λ :=
  ⟨Iff.rfl, fun _ _ h => h, fun _ h => h, fun _ h => h, fun _ h => .inl h, Nat.le_refl _⟩

theorem Grows.trans (h : Λ.Grows Λ') (h' : Λ'.Grows Λ'') : Λ.Grows Λ'' where
  loose := h'.loose.trans h.loose
  same i j hSame := h'.same i j (h.same i j hSame)
  changing i hi := h'.changing i (h.changing i hi)
  lone i hi := h'.lone i (h.lone i hi)
  fresh i hi := (h'.fresh i hi).elim (h.fresh i) fun hNew => .inr (Nat.le_trans h.bound hNew)
  bound := Nat.le_trans h.bound h'.bound

/-- An instance of the first run that has been made and stands for none that changes. -/
def Free (Λ : Links) (id : Nat) : Prop := id < Λ.bound ∧ ¬ Λ.changing id

theorem Free.grow {id : Nat} (h : Λ.Free id) (hΛ : Λ.Grows Λ') : Λ'.Free id := by
  refine ⟨Nat.lt_of_lt_of_le h.1 hΛ.bound, fun hChanging => ?_⟩
  rcases hΛ.fresh id hChanging with hOld | hNew
  · exact h.2 hOld
  · exact Nat.not_le_of_lt h.1 hNew

/-- An instance that never changes stands for another one. -/
def Fixed (Λ : Links) (i j : Nat) : Prop := Λ.same i j ∧ (Λ.loose → Λ.Free i)

/-- An instance that may change stands for another one. -/
def Changes (Λ : Links) (i j : Nat) : Prop := Λ.same i j ∧ (Λ.loose → Λ.changing i)

theorem Fixed.grow {i j : Nat} (h : Λ.Fixed i j) (hΛ : Λ.Grows Λ') : Λ'.Fixed i j :=
  ⟨hΛ.same i j h.1, fun hLoose => (h.2 (hΛ.loose.mp hLoose)).grow hΛ⟩

theorem Changes.grow {i j : Nat} (h : Λ.Changes i j) (hΛ : Λ.Grows Λ') : Λ'.Changes i j :=
  ⟨hΛ.same i j h.1, fun hLoose => hΛ.changing i (h.2 (hΛ.loose.mp hLoose))⟩

/-- No instance stands for two, and no two stand for one. -/
structure Injective (Λ : Links) : Prop where
  left : ∀ i j j', Λ.same i j → Λ.same i j' → j = j'
  right : ∀ i i' j, Λ.same i j → Λ.same i' j → i = i'

theorem Injective.eq_iff (h : Λ.Injective) {i i' j j' : Nat} (hi : Λ.same i j) (hi' : Λ.same i' j') :
    i = i' ↔ j = j' := by
  constructor
  · rintro rfl
    exact h.left _ _ _ hi hi'
  · rintro rfl
    exact h.right _ _ _ hi hi'

end Links

namespace Value

mutual

/-- The instances in a value, at every depth. -/
def ids : Value → List Nat
  | string id _ => [id]
  | boxed id _ v => id :: ids v
  | method id _ _ => [id]
  | object id _ => [id]
  | array id _ _ none => [id]
  | array id _ _ (some vs) => id :: allIds vs
  | _ => []

/-- The instances in the values of a list. -/
def allIds : List Value → List Nat
  | [] => []
  | v :: vs => ids v ++ allIds vs

end

mutual

/-- The arrays and objects in a value, at every depth. -/
def stores : Value → List Nat
  | boxed _ _ v => stores v
  | object id _ => [id]
  | array id _ _ none => [id]
  | array id _ _ (some vs) => id :: allStores vs
  | _ => []

/-- The arrays and objects in the values of a list. -/
def allStores : List Value → List Nat
  | [] => []
  | v :: vs => stores v ++ allStores vs

end

theorem mem_allIds {vs : List Value} {id : Nat} : id ∈ allIds vs ↔ ∃ v ∈ vs, id ∈ v.ids := by
  induction vs with
  | nil => simp [allIds]
  | cons v vs ih => simp [allIds, ih]

theorem mem_allStores {vs : List Value} {id : Nat} :
    id ∈ allStores vs ↔ ∃ v ∈ vs, id ∈ v.stores := by
  induction vs with
  | nil => simp [allStores]
  | cons v vs ih => simp [allStores, ih]

/-- A value in which nothing stands for an array or an object of the second run. -/
structure Hidden (Λ : Links) (v : Value) : Prop where
  free : ∀ id ∈ v.ids, Λ.Free id
  lone : ∀ id ∈ v.stores, Λ.lone id

variable {Λ Λ' : Links} {w w' v v' : Value}

theorem Hidden.grow (h : w.Hidden Λ) (hΛ : Λ.Grows Λ') : w.Hidden Λ' :=
  ⟨fun id hid => (h.free id hid).grow hΛ, fun id hid => hΛ.lone id (h.lone id hid)⟩

theorem hidden_unknown (d : Descriptor) : (unknown d).Hidden Λ := ⟨by simp [ids], by simp [stores]⟩

theorem hidden_null (d : Descriptor) : (null d).Hidden Λ := ⟨by simp [ids], by simp [stores]⟩

theorem hidden_array {i : Nat} {d : Descriptor} {n : Option Nat} {es : Option (List Value)}
    (hFree : Λ.Free i) (hLone : Λ.lone i) (hes : ∀ ws, es = some ws → ∀ w ∈ ws, w.Hidden Λ) :
    (array i d n es).Hidden Λ := by
  cases es with
  | none => exact ⟨by simpa [ids] using hFree, by simpa [stores] using hLone⟩
  | some ws =>
      refine ⟨fun id hid => ?_, fun id hid => ?_⟩
      · rcases List.mem_cons.mp hid with rfl | hid
        · exact hFree
        · obtain ⟨w, hw, hid⟩ := mem_allIds.mp hid
          exact (hes ws rfl w hw).free id hid
      · rcases List.mem_cons.mp hid with rfl | hid
        · exact hLone
        · obtain ⟨w, hw, hid⟩ := mem_allStores.mp hid
          exact (hes ws rfl w hw).lone id hid

theorem Hidden.array {i : Nat} {d : Descriptor} {n : Option Nat} {es : Option (List Value)}
    (h : (array i d n es).Hidden Λ) :
    Λ.Free i ∧ Λ.lone i ∧ ∀ ws, es = some ws → ∀ w ∈ ws, w.Hidden Λ := by
  refine ⟨h.free i ?_, h.lone i ?_, ?_⟩
  · cases es <;> simp [ids]
  · cases es <;> simp [stores]
  · rintro ws rfl w hw
    exact ⟨fun id hid => h.free id (.tail _ (mem_allIds.mpr ⟨w, hw, hid⟩)),
      fun id hid => h.lone id (.tail _ (mem_allStores.mpr ⟨w, hw, hid⟩))⟩

/-- Values that are no instances, no references that are null and not unknown. -/
def isAtom : Value → Bool
  | int _ | long _ | float _ | double _ | boolean _ | char _ | short _ | byte _ | type _
  | uninit _ => true
  | _ => false

theorem hidden_of_isAtom (h : v.isAtom = true) : v.Hidden Λ := by
  cases v <;> first | (cases h; done) | (constructor <;> simp [ids, stores])

/-- A value of the first run stands for one of the second. Of null it does not matter of which type it
is. What is hidden behind an unknown value must not stand for an instance that changes, nor may what
is in an array. -/
inductive Stands (Λ : Links) : Value → Value → Prop
  | unknown (d : Descriptor) : Stands Λ (.unknown d) (.unknown d)
  | hidden {w : Value} (d : Descriptor) : Λ.loose → w.Hidden Λ → Stands Λ w (.unknown d)
  | null (d e : Descriptor) : Stands Λ (.null d) (.null e)
  | atom {v : Value} : v.isAtom = true → Stands Λ v v
  | string {i j : Nat} (s : String) : Λ.Fixed i j → Stands Λ (.string i s) (.string j s)
  | boxed {i j : Nat} {w v : Value} (d : Descriptor) : Λ.Fixed i j → Stands Λ w v →
      (Λ.loose → w.Hidden Λ) → Stands Λ (.boxed i d w) (.boxed j d v)
  | method {i j : Nat} (d : Descriptor) (m : MethodReference) : Λ.Fixed i j →
      Stands Λ (.method i d m) (.method j d m)
  | object {i j : Nat} (d : Descriptor) : Λ.Changes i j → Stands Λ (.object i d) (.object j d)
  | array {i j : Nat} {ws vs : List Value} (d : Descriptor) (n : Option Nat) : Λ.Changes i j →
      List.Forall₂ (Stands Λ) ws vs → (Λ.loose → ∀ w ∈ ws, w.Hidden Λ) →
      Stands Λ (.array i d n (some ws)) (.array j d n (some vs))
  | untracked {i j : Nat} (d : Descriptor) (n : Option Nat) : Λ.Changes i j →
      Stands Λ (.array i d n none) (.array j d n none)
  /-- Where the second run has lost track of an array, the first need not. -/
  | tracked {i j : Nat} (d : Descriptor) (m n : Option Nat) {es : Option (List Value)} :
      Λ.Changes i j → Λ.loose → (n = none ∨ n = m) → (∀ ws, es = some ws → ∀ w ∈ ws, w.Hidden Λ) →
      Stands Λ (.array i d m es) (.array j d n none)

mutual

/-- Values by the values in them. -/
theorem nested {P : Value → Prop} (hBoxed : ∀ id d v, P v → P (.boxed id d v))
    (hArray : ∀ id d n vs, (∀ v ∈ vs, P v) → P (.array id d n (some vs)))
    (hOther : ∀ v, (∀ id d u, v ≠ .boxed id d u) → (∀ id d n vs, v ≠ .array id d n (some vs)) → P v) :
    ∀ v, P v
  | boxed id d v => hBoxed id d v (nested hBoxed hArray hOther v)
  | array id d n (some vs) => hArray id d n vs (nestedAll hBoxed hArray hOther vs)
  | int _ | long _ | float _ | double _ | boolean _ | char _ | short _ | byte _ | null _ | type _
  | uninit _ | unknown _ | string _ _ | method _ _ _ | object _ _ | array _ _ _ none =>
    hOther _ (by simp) (by simp)

theorem nestedAll {P : Value → Prop} (hBoxed : ∀ id d v, P v → P (.boxed id d v))
    (hArray : ∀ id d n vs, (∀ v ∈ vs, P v) → P (.array id d n (some vs)))
    (hOther : ∀ v, (∀ id d u, v ≠ .boxed id d u) → (∀ id d n vs, v ≠ .array id d n (some vs)) → P v) :
    ∀ vs : List Value, ∀ v ∈ vs, P v
  | [] => by simp
  | v :: vs => List.forall_mem_cons.mpr
      ⟨nested hBoxed hArray hOther v, nestedAll hBoxed hArray hOther vs⟩

end

theorem Stands.grow (h : Stands Λ w v) (hΛ : Λ.Grows Λ') : Stands Λ' w v := by
  have hLoose := hΛ.loose.mp
  have hHidden {ws : List Value} (h : ∀ w ∈ ws, w.Hidden Λ) : ∀ w ∈ ws, w.Hidden Λ' :=
    fun w hw => (h w hw).grow hΛ
  induction v using nested generalizing w with
  | hBoxed id d v ih =>
      cases h with
      | atom h => simp [isAtom] at h
      | boxed d hLink hv hFree => exact .boxed d (hLink.grow hΛ) (ih hv) fun hl => (hFree (hLoose hl)).grow hΛ
  | hArray id d n vs ih =>
      cases h with
      | atom h => simp [isAtom] at h
      | array d n hLink hvs hFree =>
          exact .array d n (hLink.grow hΛ) (forall₂_of_mem hvs fun v hv w hw => ih v hv hw)
            fun hl => hHidden (hFree (hLoose hl))
  | hOther v hBoxed hArray =>
      cases h with
      | unknown d => exact .unknown d
      | hidden d hl hFree => exact .hidden d (hΛ.loose.mpr hl) (hFree.grow hΛ)
      | null d e => exact .null d e
      | atom h => exact .atom h
      | string s hLink => exact .string s (hLink.grow hΛ)
      | boxed d _ _ _ => exact absurd rfl (hBoxed _ _ _)
      | method d m hLink => exact .method d m (hLink.grow hΛ)
      | object d hLink => exact .object d (hLink.grow hΛ)
      | array d n _ _ _ => exact absurd rfl (hArray _ _ _ _)
      | untracked d n hLink => exact .untracked d n (hLink.grow hΛ)
      | tracked d m n hLink hl hn hes =>
          exact .tracked d m n (hLink.grow hΛ) (hΛ.loose.mpr hl) hn fun ws hws => hHidden (hes ws hws)

/-- What is certain in the second run is the same in the first. What is not certain there may be so in
the first run only if that is loose. -/
def Sharper {β : Type} (Λ : Links) (x y : Option β) : Prop := x = y ∨ Λ.loose ∧ y = none

@[elab_as_elim]
theorem Sharper.elim {β : Type} {motive : Option β → Option β → Prop} {x y : Option β}
    (h : Sharper Λ x y) (none : motive none none) (both : ∀ b, motive (some b) (some b))
    (first : Λ.loose → ∀ b, motive (some b) .none) : motive x y := by
  rcases h with rfl | ⟨hl, rfl⟩
  · cases x with
    | none => exact none
    | some b => exact both b
  · cases x with
    | none => exact none
    | some b => exact first hl b

theorem Stands.known_or (h : Stands Λ w v) :
    v.isKnown = true ∨ ∃ d, v = .unknown d ∧ (w = .unknown d ∨ Λ.loose) := by
  cases h with
  | unknown d => exact .inr ⟨d, rfl, .inl rfl⟩
  | hidden d hl _ => exact .inr ⟨d, rfl, .inr hl⟩
  | atom h => cases w <;> first | exact .inl rfl | cases h
  | _ => exact .inl rfl

theorem Stands.isKnown (h : Stands Λ w v) (hv : v.isKnown = true) : w.isKnown = true := by
  cases h <;> first | rfl | exact hv | cases hv

theorem isKnown_of_ne (h : ∀ d, v ≠ .unknown d) : v.isKnown = true := by
  cases v <;> first | rfl | exact absurd rfl (h _)

/-- Where nothing is decided by an unknown value, the run that has the sharper values decides more. -/
theorem Stands.sharper {β : Type} {f : Value → Option β} (h : Stands Λ w v)
    (hUnknown : ∀ d, f (.unknown d) = none) (hKnown : v.isKnown = true → f w = f v) :
    Sharper Λ (f w) (f v) := by
  rcases h.known_or with hv | ⟨d, rfl, rfl | hl⟩
  · exact .inl (hKnown hv)
  · exact .inl rfl
  · exact .inr ⟨hl, hUnknown d⟩

theorem Stands.sharper₂ {β : Type} {f : Value → Value → Option β} (h : Stands Λ w v)
    (h' : Stands Λ w' v') (hLeft : ∀ d u, f (.unknown d) u = none)
    (hRight : ∀ d u, f u (.unknown d) = none)
    (hKnown : v.isKnown = true → v'.isKnown = true → f w w' = f v v') :
    Sharper Λ (f w w') (f v v') := by
  rcases h.known_or with hv | ⟨d, rfl, rfl | hl⟩
  · rcases h'.known_or with hv' | ⟨d, rfl, rfl | hl⟩
    · exact .inl (hKnown hv hv')
    · exact .inl (by rw [hRight, hRight])
    · exact .inr ⟨hl, hRight d v⟩
  · exact .inl (by rw [hLeft, hLeft])
  · exact .inr ⟨hl, hLeft d v'⟩

/-- Two values that are the same number, or none. -/
structure SameNumber (w v : Value) : Prop where
  int32 : w.int32? = v.int32?
  int64 : w.int64? = v.int64?
  single : w.single? = v.single?
  double : w.double? = v.double?
  boolean : w.isBoolean = v.isBoolean

theorem Stands.sameNumber (h : Stands Λ w v) (hv : v.isKnown = true) : SameNumber w v := by
  cases h <;> first | exact ⟨rfl, rfl, rfl, rfl, rfl⟩ | cases hv

theorem SameNumber.number? (h : SameNumber w v) : w.number? = v.number? := by
  have hParts (v : Value) : v.number? =
      (v.int64?.map Number.long <|> v.single?.map Number.float <|> v.double?.map Number.double <|>
        v.int32?.map Number.int) := by
    cases v <;> rfl
  rw [hParts, hParts, h.int32, h.int64, h.single, h.double]

theorem Stands.int32? (h : Stands Λ w v) : Sharper Λ w.int32? v.int32? :=
  h.sharper (fun _ => rfl) fun hv => (h.sameNumber hv).int32

theorem Stands.text? (h : Stands Λ w v) : Sharper Λ w.text? v.text? := by
  refine h.sharper (fun _ => rfl) fun hv => ?_
  cases h <;> first | rfl | cases hv

theorem Stands.unary? (h : Stands Λ w v) (op : UnaryOp) :
    Sharper Λ (Value.unary? op w) (Value.unary? op v) := by
  refine h.sharper (fun d => by cases op <;> rfl) fun hv => ?_
  have hSame := h.sameNumber hv
  unfold Value.unary?
  rw [hSame.int32, hSame.int64, hSame.single, hSame.double]

theorem Stands.binary? (h : Stands Λ w v) (h' : Stands Λ w' v') (op : BinaryOp) (type : NumberType) :
    Sharper Λ (Value.binary? op type w w') (Value.binary? op type v v') := by
  refine h.sharper₂ h' (fun d u => by cases type <;> rfl) (fun d u => ?_) fun hv hv' => ?_
  · unfold Value.binary?
    cases type with
    | int => cases u.int32? <;> rfl
    | long =>
        cases u.int64? with
        | none => rfl
        | some a => by_cases hShift : op.isShift = true <;> simp [hShift, Value.int32?, Value.int64?]
    | float => cases u.single? <;> rfl
    | double => cases u.double? <;> rfl
  · have hSame := h.sameNumber hv
    have hSame' := h'.sameNumber hv'
    unfold Value.binary?
    rw [hSame.int32, hSame.int64, hSame.single, hSame.double, hSame'.int32, hSame'.int64,
      hSame'.single, hSame'.double]

theorem Stands.isZero? (h : Stands Λ w v) : Sharper Λ w.isZero? v.isZero? := by
  refine h.sharper (fun _ => rfl) fun hv => ?_
  have hSame := h.sameNumber hv
  unfold Value.isZero?
  rw [hSame.int32, hSame.int64]

theorem Stands.threeWay? (h : Stands Λ w v) (h' : Stands Λ w' v') (bias : Int32) :
    Sharper Λ (Value.threeWay? bias w w') (Value.threeWay? bias v v') := by
  refine h.sharper₂ h' (fun d u => rfl) (fun d u => ?_) fun hv hv' => ?_
  · unfold Value.threeWay?
    cases u.number? <;> rfl
  · unfold Value.threeWay?
    rw [(h.sameNumber hv).number?, (h'.sameNumber hv').number?]

/-- What two references point to, as far as comparisons can tell. -/
inductive TargetStands (Λ : Links) : Target → Target → Prop
  | nothing : TargetStands Λ .nothing .nothing
  | identity {i j : Nat} : Λ.same i j → TargetStands Λ (.identity i) (.identity j)
  | type (d : Descriptor) : TargetStands Λ (.type d) (.type d)
  | uninit : TargetStands Λ .uninit .uninit

theorem Stands.target? (h : Stands Λ w v) (hv : v.isKnown = true) :
    Option.Rel (TargetStands Λ) w.target? v.target? := by
  cases h with
  | unknown d => cases hv
  | hidden d _ _ => cases hv
  | null d e => exact .some .nothing
  | atom h =>
      cases w <;> first
        | exact .none
        | exact .some (.type _)
        | exact .some .uninit
        | cases h
  | string s hLink => exact .some (.identity hLink.1)
  | boxed d hLink _ _ => exact .some (.identity hLink.1)
  | method d m hLink => exact .some (.identity hLink.1)
  | object d hLink => exact .some (.identity hLink.1)
  | array d n hLink _ _ => exact .some (.identity hLink.1)
  | untracked d n hLink => exact .some (.identity hLink.1)
  | tracked d m n hLink _ _ _ => exact .some (.identity hLink.1)

theorem TargetStands.same? {s s' t t' : Target} (hΛ : Λ.Injective) (h : TargetStands Λ s t)
    (h' : TargetStands Λ s' t') : s.same? s' = t.same? t' := by
  cases h with
  | identity hLink =>
      cases h' with
      | identity hLink' =>
          have hIff := hΛ.eq_iff hLink hLink'
          simp only [Target.same?, hIff]
      | _ => rfl
  | _ => cases h' <;> rfl

theorem TargetStands.sameAsNumber? {s t : Target} (h : TargetStands Λ s t) (hSame : SameNumber w v) :
    Value.sameAsNumber? s w = Value.sameAsNumber? t v := by
  unfold Value.sameAsNumber?
  rw [hSame.int32]
  cases h <;> rfl

/-- A condition that is certain in the second run is so in the first, with the same outcome. -/
theorem Stands.compare? (hΛ : Λ.Injective) (h : Stands Λ w v) (h' : Stands Λ w' v')
    (c : Comparison) : Sharper Λ (Value.compare? c w w') (Value.compare? c v v') := by
  refine h.sharper₂ h' (fun d u => rfl) (fun d u => ?_) fun hv hv' => ?_
  · unfold Value.compare?
    rw [if_neg (by simp [Value.isKnown])]
  · have hSame := h.sameNumber hv
    have hSame' := h'.sameNumber hv'
    have hNumbers : Value.compareNumbers? c w w' = Value.compareNumbers? c v v' := by
      unfold Value.compareNumbers?
      rw [hSame.boolean, hSame'.boolean, hSame.number?, hSame'.number?]
    unfold Value.compare?
    rw [h.isKnown hv, h'.isKnown hv', hv, hv']
    simp only [Bool.and_self, if_true]
    have hTarget := h.target? hv
    have hTarget' := h'.target? hv'
    generalize w.target? = s, v.target? = t at hTarget
    generalize w'.target? = s', v'.target? = t' at hTarget'
    cases hTarget with
    | some hPoints =>
        cases hTarget' with
        | some hPoints' => simp only [hPoints.same? hΛ hPoints']
        | none => simp only [hPoints.sameAsNumber? hSame']
    | none =>
        cases hTarget' with
        | some hPoints' => simp only [hPoints'.sameAsNumber? hSame]
        | none => exact hNumbers

theorem ofInt32?_isAtom {d : Descriptor} {n : Int32} (h : ofInt32? d n = some v) :
    v.isAtom = true := by
  unfold ofInt32? at h
  repeat' split at h
  all_goals first | (obtain rfl := Option.some.inj h; rfl) | cases h

/-- What an instruction reads of a value is the value itself, or no instance. -/
theorem coerce_cases (v : Value) (d : Descriptor) :
    v.coerce d = v ∨ v.coerce d = .unknown d ∨ (v.coerce d).isAtom = true ∨ v.coerce d = .null d := by
  unfold Value.coerce
  split
  · exact .inr (.inl rfl)
  · split
    · exact .inr (.inr (.inl rfl))
    · exact .inl rfl
  · split
    · exact .inr (.inr (.inl rfl))
    · exact .inl rfl
  · split
    · rename_i hNarrow
      obtain ⟨n, _, hn⟩ := Option.bind_eq_some_iff.mp hNarrow
      exact .inr (.inr (.inl (ofInt32?_isAtom hn)))
    · split
      · exact .inr (.inr (.inr rfl))
      · exact .inl rfl

theorem Hidden.coerce (h : w.Hidden Λ) (d : Descriptor) : (w.coerce d).Hidden Λ := by
  rcases coerce_cases w d with hSame | hSame | hAtom | hSame
  · rwa [hSame]
  · rw [hSame]
    exact hidden_unknown d
  · exact hidden_of_isAtom hAtom
  · rw [hSame]
    exact hidden_null d

theorem Stands.coerce (h : Stands Λ w v) (d : Descriptor) : Stands Λ (w.coerce d) (v.coerce d) := by
  cases h with
  | unknown e => exact .unknown d
  | hidden e hl hw => exact .hidden d hl (hw.coerce d)
  | null e e' => exact .null e e'
  | @atom w h =>
      rcases coerce_cases w d with hSame | hSame | hAtom | hSame
      · rw [hSame]
        exact .atom h
      · rw [hSame]
        exact .unknown d
      · exact .atom hAtom
      · rw [hSame]
        exact .null d d
  | string s hLink => exact .string s hLink
  | boxed e hLink hv hFree => exact .boxed e hLink hv hFree
  | method e m hLink => exact .method e m hLink
  | object e hLink => exact .object e hLink
  | array e n hLink hvs hFree => exact .array e n hLink hvs hFree
  | untracked e n hLink => exact .untracked e n hLink
  | @tracked i j e m n es hLink hl hn hes =>
      have hSame : (Value.array i e m es).coerce d = .array i e m es := by cases es <;> rfl
      rw [hSame]
      exact .tracked e m n hLink hl hn hes

/-- A number that has been computed, or some number of its type. -/
theorem Sharper.stands {x y : Option Value} (h : Sharper Λ x y)
    (hAtom : ∀ r, x = some r → r.isAtom = true) (d : Descriptor) :
    Stands Λ (x.getD (.unknown d)) (y.getD (.unknown d)) := by
  rcases h with rfl | ⟨hl, rfl⟩
  · cases x with
    | none => exact .unknown d
    | some r => exact .atom (hAtom r rfl)
  · refine .hidden d hl ?_
    cases x with
    | none => exact hidden_unknown d
    | some r => exact hidden_of_isAtom (hAtom r rfl)

theorem Sharper.map {β γ : Type} {x y : Option β} (h : Sharper Λ x y) (f : β → γ) :
    Sharper Λ (x.map f) (y.map f) := by
  rcases h with rfl | ⟨hl, rfl⟩
  · exact .inl rfl
  · exact .inr ⟨hl, rfl⟩

theorem unary?_isAtom {op : UnaryOp} (h : Value.unary? op w = some v) : v.isAtom = true := by
  cases op <;> (obtain ⟨n, _, rfl⟩ := Option.map_eq_some_iff.mp h; rfl)

theorem binary?_isAtom {op : BinaryOp} {type : NumberType} (h : Value.binary? op type w w' = some v) :
    v.isAtom = true := by
  cases type with
  | long =>
      obtain ⟨a, _, h⟩ := Option.bind_eq_some_iff.mp h
      dsimp only at h
      split at h <;>
        (obtain ⟨r, _, h⟩ := Option.bind_eq_some_iff.mp h
         obtain rfl := Option.some.inj h
         rfl)
  | _ =>
      obtain ⟨a, _, h⟩ := Option.bind_eq_some_iff.mp h
      obtain ⟨b, _, h⟩ := Option.bind_eq_some_iff.mp h
      obtain ⟨r, _, h⟩ := Option.bind_eq_some_iff.mp h
      obtain rfl := Option.some.inj h
      rfl

/-- Only arrays and objects stand for instances that change. -/
theorem Stands.hides (h : Stands Λ w v) (hl : Λ.loose) (hv : v.isMutable = false) :
    w.Hidden Λ := by
  cases h with
  | unknown d => exact hidden_unknown d
  | hidden d _ hw => exact hw
  | null d e => exact hidden_null d
  | atom h => exact hidden_of_isAtom h
  | string s hLink => exact ⟨by simpa [ids] using hLink.2 hl, by simp [stores]⟩
  | boxed d hLink _ hFree =>
      refine ⟨fun id hid => ?_, (hFree hl).lone⟩
      rcases List.mem_cons.mp hid with rfl | hid
      · exact hLink.2 hl
      · exact (hFree hl).free id hid
  | method d m hLink => exact ⟨by simpa [ids] using hLink.2 hl, by simp [stores]⟩
  | object d _ => cases hv
  | array d n _ _ _ => cases hv
  | untracked d n _ => cases hv
  | tracked d m n _ _ _ _ => cases hv

theorem zero_cases (d : Descriptor) : (zero d).isAtom = true ∨ zero d = .null d := by
  unfold zero
  repeat' split
  all_goals first | exact .inl rfl | exact .inr rfl

theorem stands_zero (d : Descriptor) : Stands Λ (zero d) (zero d) := by
  rcases zero_cases d with h | h
  · exact .atom h
  · rw [h]
    exact .null d d

theorem hidden_zero (d : Descriptor) : (zero d).Hidden Λ := by
  rcases zero_cases d with h | h
  · exact hidden_of_isAtom h
  · rw [h]
    exact hidden_null d

end Value

end Dalvik
