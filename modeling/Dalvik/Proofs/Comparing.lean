import Dalvik.Comparison
import Mathlib.Algebra.Ring.Nat

/-!
Comparisons of values agree with each other: the conditions among themselves, a condition with its converse on swapped
operands, and all of them with the order of two numbers. Only an operand that is no number is not ordered, whatever
types the two are brought to.
-/

namespace Dalvik

namespace Floating

variable {f g : Format} {x y : Floating f} {n : Nat}

theorem magnitude_ofMagnitude (negative : Bool) (n : Nat) :
    (ofMagnitude negative n : Floating f).magnitude = n % 2 ^ f.magnitudeWidth := by
  have hSign : 1 <<< f.magnitudeWidth = 2 ^ f.magnitudeWidth := by rw [Nat.shiftLeft_eq, Nat.one_mul]
  have hWidth : 2 ^ f.magnitudeWidth ∣ 2 ^ f.width := Nat.pow_dvd_pow 2 (Nat.le_add_left _ 1)
  simp only [magnitude, ofMagnitude, BitVec.toNat_setWidth, BitVec.toNat_ofNat, Nat.mod_mod_of_dvd _ hWidth, hSign]
  cases negative <;> simp

theorem infinity_lt (f : Format) : f.infinity < 2 ^ f.magnitudeWidth := by
  have hOne : 1 ≤ 2 ^ f.exponent := Nat.one_le_two_pow
  rw [Format.infinity, Nat.shiftLeft_eq, Nat.shiftLeft_eq, Nat.one_mul, Nat.pow_add]
  exact Nat.mul_lt_mul_of_pos_right (Nat.sub_lt hOne Nat.one_pos) (Nat.two_pow_pos _)

/-- Patterns up to the one of infinity stand for numbers. -/
theorem isNaN_ofMagnitude (negative : Bool) (h : n ≤ f.infinity) : (ofMagnitude negative n : Floating f).isNaN = false := by
  rw [isNaN, magnitude_ofMagnitude, Nat.mod_eq_of_lt (Nat.lt_of_le_of_lt h (infinity_lt f))]
  exact decide_eq_false (Nat.not_lt_of_le h)

/-- What is rounded is a number. -/
theorem isNaN_ofRatio (negative : Bool) (num den : Nat) : (ofRatio negative num den : Floating f).isNaN = false := by
  unfold ofRatio
  split
  · exact isNaN_ofMagnitude negative (Nat.zero_le _)
  · exact isNaN_ofMagnitude negative (Nat.min_le_right _ _)

theorem isNaN_ofInt (v : Int) : (ofInt v : Floating f).isNaN = false := isNaN_ofRatio _ _ _

theorem view_eq_nan_iff : x.view = .nan ↔ x.isNaN = true := by
  unfold view isNaN
  by_cases hAbove : f.infinity < x.magnitude
  · simp [hAbove]
  · simp only [hAbove, if_false, decide_false, Bool.false_eq_true, iff_false]
    split
    · nofun
    · split <;> nofun

/-- A number stays one in another format. -/
theorem isNaN_of_convert (h : (x.convert : Floating g).isNaN = true) : x.isNaN = true := by
  unfold convert at h
  split at h
  · rename_i hView
    exact view_eq_nan_iff.mp hView
  · rw [infinity, isNaN_ofMagnitude _ (Nat.le_refl _)] at h
    cases h
  · rw [ofScaled, isNaN_ofRatio] at h
    cases h

/-- Only what is no number is not ordered. -/
theorem isNaN_of_compare? (h : x.compare? y = none) : x.isNaN = true ∨ y.isNaN = true := by
  unfold compare? at h
  split at h
  · rename_i hView
    exact .inl (view_eq_nan_iff.mp hView)
  · rename_i hView _
    exact .inr (view_eq_nan_iff.mp hView)
  all_goals cases h

theorem compare?_swap (x y : Floating f) : y.compare? x = (x.compare? y).map Ordering.swap := by
  unfold compare?
  cases x.view with
  | nan => cases y.view <;> rfl
  | infinite s =>
      cases y.view with
      | nan => rfl
      | infinite t => exact congrArg some (Nat.compare_swap _ _).symm
      | finite t n r => cases s <;> rfl
  | finite s m q =>
      cases y.view with
      | nan => rfl
      | infinite t => cases t <;> rfl
      | finite t n r =>
          simp only [Option.map_some, Int.min_comm r q, Int.compare_swap]

end Floating

namespace Comparison

/-- The condition that holds of two operands if this one holds of them in the other order. -/
def converse : Comparison → Comparison
  | eq => eq
  | ne => ne
  | lt => gt
  | ge => le
  | gt => lt
  | le => ge

theorem holds_swap (c : Comparison) (o : Ordering) : c.converse.holds o.swap = c.holds o := by
  cases c <;> cases o <;> rfl

theorem isOrdering_converse (c : Comparison) : c.converse.isOrdering = c.isOrdering := by cases c <;> rfl

/-- The outcome of a condition on operands in a given order, or on ones that are not ordered. -/
def decide (c : Comparison) : Option Ordering → Bool
  | some o => c.holds o
  | none => c = .ne

theorem decide_swap (c : Comparison) (o : Option Ordering) : c.converse.decide (o.map Ordering.swap) = c.decide o := by
  cases o with
  | none => cases c <;> rfl
  | some o => exact holds_swap c o

end Comparison

namespace Number

variable {a b : Number}

/-- Whether the number is a pattern that stands for none. -/
def isNaN : Number → Bool
  | float x => x.isNaN
  | double x => x.isNaN
  | _ => false

theorem isNaN_toSingle (h : a.toSingle.isNaN = true) : a.isNaN = true := by
  cases a with
  | int v | long v =>
      rw [toSingle, Floating.isNaN_ofInt] at h
      cases h
  | float x => exact h
  | double x => exact Floating.isNaN_of_convert h

theorem isNaN_toDouble (h : a.toDouble.isNaN = true) : a.isNaN = true := by
  cases a with
  | int v | long v =>
      rw [toDouble, Floating.isNaN_ofInt] at h
      cases h
  | float x => exact Floating.isNaN_of_convert h
  | double x => exact h

/-- Numbers are compared in 32-bit floating point, in 64-bit floating point or as integers. -/
theorem compare?_cases (a b : Number) :
    (a.compare? b = a.toSingle.compare? b.toSingle ∧ b.compare? a = b.toSingle.compare? a.toSingle) ∨
    (a.compare? b = a.toDouble.compare? b.toDouble ∧ b.compare? a = b.toDouble.compare? a.toDouble) ∨
    ∃ m n : Int, a.compare? b = some (compare m n) ∧ b.compare? a = some (compare n m) := by
  cases a with
  | float x => cases b <;> exact .inl ⟨rfl, rfl⟩
  | double x =>
      cases b with
      | float y => exact .inl ⟨rfl, rfl⟩
      | _ => exact .inr (.inl ⟨rfl, rfl⟩)
  | int m | long m =>
      cases b with
      | float y => exact .inl ⟨rfl, rfl⟩
      | double y => exact .inr (.inl ⟨rfl, rfl⟩)
      | int n | long n => exact .inr (.inr ⟨m.toInt, n.toInt, rfl, rfl⟩)

theorem compare?_swap (a b : Number) : b.compare? a = (a.compare? b).map Ordering.swap := by
  rcases compare?_cases a b with ⟨hLeft, hRight⟩ | ⟨hLeft, hRight⟩ | ⟨m, n, hLeft, hRight⟩ <;> rw [hLeft, hRight]
  · exact Floating.compare?_swap _ _
  · exact Floating.compare?_swap _ _
  · rw [Option.map_some, Int.compare_swap]

theorem isNaN_of_compare? (h : a.compare? b = none) : a.isNaN = true ∨ b.isNaN = true := by
  rcases compare?_cases a b with ⟨hLeft, _⟩ | ⟨hLeft, _⟩ | ⟨m, n, hLeft, _⟩ <;> rw [hLeft] at h
  · exact (Floating.isNaN_of_compare? h).imp isNaN_toSingle isNaN_toSingle
  · exact (Floating.isNaN_of_compare? h).imp isNaN_toDouble isNaN_toDouble
  · cases h

end Number

theorem Target.same?_comm (s t : Target) : s.same? t = t.same? s := by
  cases s <;> cases t <;> simp [same?, eq_comm]

namespace Value

variable {v w : Value}

/-- Whether the value is a pattern that stands for no number. -/
def isNaN : Value → Bool
  | float x => x.isNaN
  | double x => x.isNaN
  | _ => false

theorem isNaN_of_number? {a : Number} (h : v.number? = some a) (ha : a.isNaN = true) : v.isNaN = true := by
  cases v with
  | float x | double x =>
      obtain rfl := Option.some.inj h
      exact ha
  | long n =>
      obtain rfl := Option.some.inj h
      cases ha
  | _ =>
      simp only [number?, Option.map_eq_some_iff] at h
      obtain ⟨n, _, rfl⟩ := h
      cases ha

/-- Two values are compared by what they point to, or as numbers. -/
theorem compare?_cases (v w : Value) :
    (∃ same, ∀ c, compare? c v w = compareSame? c same ∧ compare? c w v = compareSame? c same) ∨
    ∀ c, compare? c v w = compareNumbers? c v w ∧ compare? c w v = compareNumbers? c w v := by
  unfold compare?
  cases hKnown : v.isKnown && w.isKnown with
  | false =>
      have hOther : (w.isKnown && v.isKnown) = false := by rwa [Bool.and_comm]
      exact .inl ⟨none, fun c => by simp [hOther, compareSame?]⟩
  | true =>
      have hOther : (w.isKnown && v.isKnown) = true := by rwa [Bool.and_comm]
      simp only [hOther, if_true]
      cases v.target? with
      | some s =>
          cases w.target? with
          | some t => exact .inl ⟨s.same? t, fun c => ⟨rfl, by rw [Target.same?_comm]⟩⟩
          | none => exact .inl ⟨sameAsNumber? s w, fun c => ⟨rfl, rfl⟩⟩
      | none =>
          cases w.target? with
          | some t => exact .inl ⟨sameAsNumber? t v, fun c => ⟨rfl, rfl⟩⟩
          | none => exact .inr fun c => ⟨rfl, rfl⟩

/-- Truth values are not put in order. The order of two other numbers decides every condition. -/
theorem compareNumbers?_eq {a b : Number} (hv : v.number? = some a) (hw : w.number? = some b) (c : Comparison) :
    compareNumbers? c v w =
      if c.isOrdering && (v.isBoolean || w.isBoolean) then none else some (c.decide (a.compare? b)) := by
  unfold compareNumbers?
  rw [hv, hw]
  split
  · rfl
  · cases hOrder : a.compare? b <;> simp [hOrder, Comparison.decide]

theorem compareNumbers?_of_none (h : v.number? = none ∨ w.number? = none) (c : Comparison) :
    compareNumbers? c v w = none := by
  unfold compareNumbers?
  split
  · rfl
  · rcases h with h | h
    · rw [h]
    · rw [h]
      cases v.number? <;> rfl

/-- Comparing two values one way and the other, by every condition and by their order. -/
structure Coheres (v w : Value) : Prop where
  converse (c : Comparison) : compare? c v w = compare? c.converse w v
  equal (x : Bool) : compare? .eq v w = some x ↔ compare? .ne v w = some (!x)
  opposite : ∀ p ∈ [(Comparison.lt, Comparison.ge), (.gt, .le)],
    (compare? p.1 v w = none ∧ compare? p.2 v w = none) ∨
    (∃ x, compare? p.1 v w = some x ∧ compare? p.2 v w = some (!x)) ∨
    (compare? p.1 v w = some false ∧ compare? p.2 v w = some false ∧ (v.isNaN = true ∨ w.isNaN = true))
  ordered : (compare? .lt v w).isSome → v.isNaN = false → w.isNaN = false →
    (compare? .lt v w = some true ∧ compare? .eq v w = some false ∧ compare? .gt v w = some false ∧
      ∀ bias, threeWay? bias v w = some (-1)) ∨
    (compare? .lt v w = some false ∧ compare? .eq v w = some true ∧ compare? .gt v w = some false ∧
      ∀ bias, threeWay? bias v w = some 0) ∨
    (compare? .lt v w = some false ∧ compare? .eq v w = some false ∧ compare? .gt v w = some true ∧
      ∀ bias, threeWay? bias v w = some 1)

/-- References and what is not known cohere, since they are never ordered. -/
theorem coheres_of_same {same : Option Bool}
    (h : ∀ c, compare? c v w = compareSame? c same ∧ compare? c w v = compareSame? c same) : Coheres v w where
  converse c := by
    rw [(h c).1, (h c.converse).2]
    cases c <;> rfl
  equal x := by
    rw [(h .eq).1, (h .ne).1]
    rcases same with _ | _ | _ <;> cases x <;> simp [compareSame?, Comparison.isOrdering]
  opposite p hp := by
    have hNone : compareSame? p.1 same = none ∧ compareSame? p.2 same = none := by
      simp only [List.mem_cons, List.not_mem_nil, or_false] at hp
      rcases hp with rfl | rfl <;> exact ⟨rfl, rfl⟩
    exact .inl ⟨(h p.1).1.trans hNone.1, (h p.2).1.trans hNone.2⟩
  ordered hSome := by
    rw [(h .lt).1] at hSome
    cases hSome

/-- Two numbers cohere, since one order decides every condition. -/
theorem coheres_of_numbers (h : ∀ c, compare? c v w = compareNumbers? c v w ∧ compare? c w v = compareNumbers? c w v)
    {a b : Number} (hv : v.number? = some a) (hw : w.number? = some b) : Coheres v w := by
  have hDecided (c : Comparison) : compare? c v w =
      if c.isOrdering && (v.isBoolean || w.isBoolean) then none else some (c.decide (a.compare? b)) :=
    (h c).1.trans (compareNumbers?_eq hv hw c)
  have hEither (hNone : a.compare? b = none) : v.isNaN = true ∨ w.isNaN = true :=
    (Number.isNaN_of_compare? hNone).imp (isNaN_of_number? hv) (isNaN_of_number? hw)
  refine ⟨fun c => ?_, fun x => ?_, fun p hp => ?_, fun hSome hLeft hRight => ?_⟩
  · rw [hDecided c, (h c.converse).2, compareNumbers?_eq hw hv, Comparison.isOrdering_converse, Bool.or_comm v.isBoolean,
      Number.compare?_swap a b, Comparison.decide_swap]
  · have hEqual : compare? .eq v w = some (Comparison.eq.decide (a.compare? b)) := hDecided .eq
    have hOther : compare? .ne v w = some (Comparison.ne.decide (a.compare? b)) := hDecided .ne
    rw [hEqual, hOther]
    rcases a.compare? b with _ | _ | _ | _ <;> cases x <;> decide
  · have hPair : p.1.isOrdering = true ∧ p.2.isOrdering = true := by
      simp only [List.mem_cons, List.not_mem_nil, or_false] at hp
      rcases hp with rfl | rfl <;> exact ⟨rfl, rfl⟩
    rw [hDecided p.1, hDecided p.2, hPair.1, hPair.2, Bool.true_and]
    split
    · exact .inl ⟨rfl, rfl⟩
    simp only [List.mem_cons, List.not_mem_nil, or_false] at hp
    cases hOrder : a.compare? b with
    | none => exact .inr (.inr (by rcases hp with rfl | rfl <;> exact ⟨rfl, rfl, hEither hOrder⟩))
    | some o => exact .inr (.inl (by rcases hp with rfl | rfl <;> cases o <;> exact ⟨_, rfl, rfl⟩))
  · have hPlain : (v.isBoolean || w.isBoolean) = false := by
      rw [hDecided .lt] at hSome
      cases hBoolean : v.isBoolean || w.isBoolean with
      | false => rfl
      | true =>
          rw [hBoolean] at hSome
          cases hSome
    have hAll (c : Comparison) : compare? c v w = some (c.decide (a.compare? b)) := by
      rw [hDecided c, hPlain, Bool.and_false]
      rfl
    cases hOrder : a.compare? b with
    | none => rcases hEither hOrder with hNaN | hNaN <;> simp [hNaN] at hLeft hRight
    | some o =>
        simp only [hAll, hOrder, threeWay?, hv, hw]
        cases o with
        | lt => exact .inl ⟨rfl, rfl, rfl, fun _ => rfl⟩
        | eq => exact .inr (.inl ⟨rfl, rfl, rfl, fun _ => rfl⟩)
        | gt => exact .inr (.inr ⟨rfl, rfl, rfl, fun _ => rfl⟩)

/-- Two values of which one is no number cohere, as they are not compared as numbers. -/
theorem coheres_of_no_number (h : ∀ c, compare? c v w = compareNumbers? c v w ∧ compare? c w v = compareNumbers? c w v)
    (hNone : v.number? = none ∨ w.number? = none) : Coheres v w := by
  refine @coheres_of_same _ _ none fun c => ?_
  have hSame : compareSame? c none = none := by cases c <;> rfl
  rw [(h c).1, (h c).2, compareNumbers?_of_none hNone, compareNumbers?_of_none hNone.symm, hSame]
  exact ⟨rfl, rfl⟩

/-- Every two values are compared coherently, numbers of any types, references and what is not known. -/
theorem compare?_coheres (v w : Value) : Coheres v w := by
  rcases compare?_cases v w with ⟨_, hSame⟩ | hNumbers
  · exact coheres_of_same hSame
  · cases hv : v.number? with
    | none => exact coheres_of_no_number hNumbers (.inl hv)
    | some a =>
        cases hw : w.number? with
        | none => exact coheres_of_no_number hNumbers (.inr hw)
        | some b => exact coheres_of_numbers hNumbers hv hw

/-- A `long` beside a `float` is rounded to single precision, where these two are the same number: both have the pattern of
2 ^ 24. -/
theorem compare?_coheres_rounded :
    (compare? .lt (long 16777217) (float ⟨0x4b800000#32⟩)).isSome ∧ (long 16777217).isNaN = false ∧
      (float ⟨0x4b800000#32⟩).isNaN = false ∧ compare? .eq (long 16777217) (float ⟨0x4b800000#32⟩) = some true ∧
      ∀ bias, threeWay? bias (long 16777217) (float ⟨0x4b800000#32⟩) = some 0 := by
  have hSome : (compare? .lt (long 16777217) (float ⟨0x4b800000#32⟩)).isSome := by decide
  have hRight : (float ⟨0x4b800000#32⟩).isNaN = false := by decide
  have hEqual : compare? .eq (long 16777217) (float ⟨0x4b800000#32⟩) = some true := by decide
  rcases (compare?_coheres (long 16777217) (float ⟨0x4b800000#32⟩)).ordered hSome rfl hRight with
    ⟨_, hOther, _⟩ | ⟨_, _, _, hThree⟩ | ⟨_, hOther, _⟩
  · exact absurd (hEqual.symm.trans hOther) (by decide)
  · exact ⟨hSome, rfl, hRight, hEqual, hThree⟩
  · exact absurd (hEqual.symm.trans hOther) (by decide)

end Value

end Dalvik
