import Dalvik.Proofs.Tracking

/-!
Outcomes of one instruction in two runs. The first run may do less than the second: what may happen in
the second for want of knowledge need not happen in the first, but nothing happens there that the second
leaves out.
-/

namespace Dalvik

open Value (Stands)

/-- How an exception of the first run stands for one of the second. Where there are no handlers it does
not matter which one is thrown. -/
def Throws (Λ : Links) (hs : List Handler) (w v : Value) : Prop :=
  hs = [] ∨ Value.Stands Λ w v ∧ w.descriptor = v.descriptor

/-- The same flow of control in two runs. `f` says where the places of the second are in the first. -/
inductive Flow.Stands (Λ : Links) (f : Address → Address) (hs : List Handler) : Flow → Flow → Prop
  | next : Flow.Stands Λ f hs .next .next
  | jump (targets : List Address) : Flow.Stands Λ f hs (.jump (targets.map f)) (.jump targets)
  | stop : Flow.Stands Λ f hs .stop .stop
  | raise {w v : Value} : Throws Λ hs w v → Flow.Stands Λ f hs (.raise w) (.raise v)

/-- The states after an instruction, of which at most a result passes to the next one. -/
structure State.Passes (Λ : Links) (s t : State) : Prop where
  stands : s.Stands Λ t
  result : Value.Stands Λ (s.result.getD (.unknown .object)) (t.result.getD (.unknown .object))
  exception : s.exception = none ∧ t.exception = none

/-- The state knows the value of a register. -/
def State.Knows (t : State) (r : Register) : Prop := ∀ v, t.read r = .ok v → v.isKnown = true

theorem State.Rests.passes {Λ : Links} {s t : State} (h : s.Rests Λ t) : s.Passes Λ t :=
  ⟨h.stands, h.follows.result, h.first.2, h.second.2⟩

/-- An outcome in the first run is one that the second allows for. Only a loose run does less than the
second: no exception is raised after all, or it is raised for certain, or fewer places are jumped to. -/
inductive Outcome.Covers (Λ : Links) (f : Address → Address) (hs : List Handler) :
    Outcome → Outcome → Prop
  | alike {flow flow' : Flow} {s t : State} : Flow.Stands Λ f hs flow flow' → s.Passes Λ t →
      Covers Λ f hs ⟨flow, s, none⟩ ⟨flow', t, none⟩
  | hazards {s t : State} {x y : Value} : Throws Λ hs x y → s.Passes Λ t →
      Covers Λ f hs ⟨.next, s, some x⟩ ⟨.next, t, some y⟩
  | certain {s t : State} {y : Option Value} : Λ.loose → s.Passes Λ t →
      Covers Λ f hs ⟨.next, s, none⟩ ⟨.next, t, y⟩
  | raises {s t : State} {d e : Descriptor} : Λ.loose → d = e ∨ e = .throwable → s.Shows t →
      Covers Λ f hs ⟨.raise (.unknown d), s, none⟩ ⟨.next, t, some (.unknown e)⟩
  | silent {s : State} {w : Value} {o : Outcome} : Λ.loose → hs = [] → s.Shows o.post →
      Covers Λ f hs ⟨.raise w, s, none⟩ o
  | narrows {s t : State} {us ts : List Address} : Λ.loose → us ⊆ ts.map f → s.Passes Λ t →
      Covers Λ f hs ⟨.jump us, s, none⟩ ⟨.jump ts, t, none⟩

/-- The exceptions that may be raised besides: the same in both runs, or none in a loose one. -/
def Lessens (Λ : Links) (hs : List Handler) (x y : Option Value) : Prop :=
  Option.Rel (Throws Λ hs) x y ∨ Λ.loose ∧ x = none

theorem Throws.grow {Λ Λ' : Links} {hs : List Handler} {w v : Value} (h : Throws Λ hs w v)
    (hΛ : Λ.Grows Λ') : Throws Λ' hs w v :=
  h.imp id fun hStands => ⟨hStands.1.grow hΛ, hStands.2⟩

theorem Lessens.grow {Λ Λ' : Links} {hs : List Handler} {x y : Option Value} (h : Lessens Λ hs x y)
    (hΛ : Λ.Grows Λ') : Lessens Λ' hs x y := by
  rcases h with hSame | ⟨hl, rfl⟩
  · refine .inl ?_
    cases hSame with
    | none => exact .none
    | some hThrows => exact .some (hThrows.grow hΛ)
  · exact .inr ⟨hΛ.loose.mpr hl, rfl⟩

section

variable {Λ : Links} {f : Address → Address} {hs : List Handler} {pre pre' post post' : State}
  {w v : Value} {x y : Option Value}

theorem throws_unknown (d : Descriptor) : Throws Λ hs (.unknown d) (.unknown d) :=
  .inr ⟨.unknown d, rfl⟩

theorem rel_someException (d : Descriptor) :
    Option.Rel (Throws Λ hs) (someException d) (someException d) :=
  .some (throws_unknown d)

theorem lessens_none : Lessens Λ hs none none := .inl .none

theorem lessens_someException (d : Descriptor) :
    Lessens Λ hs (someException d) (someException d) := .inl (rel_someException d)

theorem Lessens.covers (h : Lessens Λ hs x y) (hPost : post.Passes Λ post') :
    Outcome.Covers Λ f hs (.nextOr post x) (.nextOr post' y) := by
  rcases h with hSame | ⟨hl, rfl⟩
  · cases hSame with
    | none => exact .alike .next hPost
    | some hThrows => exact .hazards hThrows hPost
  · exact .certain hl hPost

theorem covers_raise (hPost : post.Rests Λ post') (d : Descriptor) :
    Outcome.Covers Λ f hs (.raise post d) (.raise post' d) :=
  .alike (.raise (throws_unknown d)) hPost.passes

theorem covers_next (hPost : post.Rests Λ post') :
    Outcome.Covers Λ f hs (.next post) (.next post') :=
  .alike .next hPost.passes

theorem tracks_assign (hPost : post.Rests Λ post') (hv : Value.Stands Λ w v) (hx : Lessens Λ hs x y)
    (dst : Register) :
    Tracks Λ (Outcome.assign post dst w x) (Outcome.assign post' dst v y)
      (Outcome.Covers Λ f hs) :=
  ((hPost.assign hv dst).imp fun _ _ hNow => hx.covers hNow.passes).map

theorem assign_eq_ok {r : Register} {o : Outcome} :
    Outcome.assign post r w x = .ok o ↔
      ∃ s, post.assign r w = .ok s ∧ o = Outcome.nextOr s x := by
  unfold Outcome.assign
  cases post.assign r w with
  | error e => simp [Except.map]
  | ok s => simp [Except.map, Outcome.nextOr, eq_comm]

/-- An exception that is raised for certain where an assignment might have been. -/
theorem tracks_raise_assign (hPost : post.Rests Λ post') {d : Descriptor}
    (hCovers : ∀ t, post.Shows t → Outcome.Covers Λ f hs (.raise post d) (.nextOr t y))
    (hv : v.isAtom = false) (dst : Register) :
    Tracks Λ (pure (Outcome.raise post d)) (Outcome.assign post' dst v y)
      (Outcome.Covers Λ f hs) := by
  intro o ho
  obtain ⟨t, ht, rfl⟩ := assign_eq_ok.mp ho
  exact hCovers t (hPost.stands.shows.of_assign hv ht)

end

namespace Semantics

section

variable {Λ : Links} {f : Address → Address} {hs : List Handler} {pre pre' post post' : State}
  (hPre : pre.Stands Λ pre') (hPost : post.Rests Λ post')

include hPre hPost

theorem returnValue_tracks (src : Register) :
    Tracks Λ (returnValue pre post src) (returnValue pre' post' src) (Outcome.Covers Λ f hs) :=
  (hPre.read src).bind fun _ _ _ => tracks_pure (.alike .stop hPost.passes)

/-- Where there are handlers it has to be known what is thrown. -/
theorem throwValue_tracks (src : Register)
    (hCandid : Λ.loose → hs = [] ∨ pre'.Knows src) :
    Tracks Λ (throwValue pre post src) (throwValue pre' post' src) (Outcome.Covers Λ f hs) := by
  refine (hPre.read src).noting.bind fun w v ⟨hv, _, hRead⟩ => ?_
  have hRaise (hThrows : Throws Λ hs w v) :
      Tracks Λ (pure ⟨.raise w, post, none⟩) (pure ⟨.raise v, post', none⟩)
        (Outcome.Covers Λ f hs) := tracks_pure (.alike (.raise hThrows) hPost.passes)
  have hStands := hv
  cases hv with
  | unknown d => exact hRaise (throws_unknown d)
  | hidden d hl _ =>
      have hNone : hs = [] := (hCandid hl).resolve_right fun hKnown => by cases hKnown _ hRead
      split
      · exact tracks_pure (.alike (.raise (.inl hNone)) hPost.passes)
      · exact hRaise (.inl hNone)
  | null d e => exact tracks_pure (covers_raise hPost _)
  | atom h => cases w <;> first | (cases h; done) | exact hRaise (.inr ⟨hStands, rfl⟩)
  | _ => exact hRaise (.inr ⟨hStands, rfl⟩)

omit hPre hPost in
theorem decided_map (target next : Address) (b : Option Bool) :
    decided (f target) (f next) b = (decided target next b).map f := by
  rcases b with _ | _ | _ <;> rfl

omit hPre hPost in
theorem switchTarget_map (cases : List (Int32 × Address)) (next : Address) (key : Int32) :
    switchTarget (cases.map fun c => (c.1, f c.2)) (f next) key = f (switchTarget cases next key) := by
  unfold switchTarget
  induction cases with
  | nil => rfl
  | cons c cases ih =>
      obtain ⟨k, target⟩ := c
      by_cases hKey : key = k
      · simp [hKey]
      · simpa [List.lookup_cons, beq_false_of_ne hKey] using ih

omit hPre hPost in
theorem selected_map (cases : List (Int32 × Address)) (next : Address) (key : Option Int32) :
    selected (cases.map fun c => (c.1, f c.2)) (f next) key = (selected cases next key).map f := by
  cases key with
  | none => simp [selected]
  | some key => exact congrArg (fun t => [t]) (switchTarget_map cases next key)

/-- A condition that is not certain in the second run may be so in the first. -/
theorem branch_tracks (hΛ : Λ.Injective) {next next' : Except Error Address}
    (hNext : Tracks Λ next next' fun n n' => n = f n') (c : Comparison) (lhs : Register)
    (rhs : Option Register) (target : Address) :
    Tracks Λ (branch pre post next c lhs rhs (f target)) (branch pre' post' next' c lhs rhs target)
      (Outcome.Covers Λ f hs) := by
  have hOperand : Tracks Λ (rhs.elim (pure (.int 0)) pre.read) (rhs.elim (pure (.int 0)) pre'.read)
      (Value.Stands Λ) := by
    cases rhs with
    | none => exact tracks_pure (.atom rfl)
    | some r => exact hPre.read r
  rw [branch_eq, branch_eq]
  refine (hPre.read lhs).bind fun w v hv => hOperand.bind fun w' v' hv' => hNext.bind fun n n' hn => ?_
  subst hn
  rw [decided_map]
  rcases hv.compare? hΛ hv' c with hSame | ⟨hl, hNone⟩
  · rw [hSame]
    exact tracks_pure (.alike (.jump _) hPost.passes)
  · rw [hNone]
    exact tracks_pure (.narrows hl (List.map_subset f (decided_subset _ _ _)) hPost.passes)

/-- A key that is not known in the second run may be so in the first. -/
theorem switch_tracks {next next' : Except Error Address}
    (hNext : Tracks Λ next next' fun n n' => n = f n') (src : Register)
    (cases : List (Int32 × Address)) :
    Tracks Λ (switch pre post next src (cases.map fun c => (c.1, f c.2)))
      (switch pre' post' next' src cases) (Outcome.Covers Λ f hs) := by
  rw [switch_eq, switch_eq]
  refine hNext.bind fun n n' hn => (hPre.read src).bind fun w v hv => ?_
  subst hn
  rw [selected_map]
  rcases hv.int32? with hSame | ⟨hl, hNone⟩
  · rw [hSame]
    exact tracks_pure (.alike (.jump _) hPost.passes)
  · rw [hNone]
    exact tracks_pure (.narrows hl (List.map_subset f (selected_subset _ _ _)) hPost.passes)

theorem compare_tracks (kind : ThreeWay) (dst lhs rhs : Register) :
    Tracks Λ (compare pre post kind dst lhs rhs) (compare pre' post' kind dst lhs rhs)
      (Outcome.Covers Λ f hs) := by
  refine (hPre.read lhs).bind fun w v hv => (hPre.read rhs).bind fun w' v' hv' => ?_
  have hResult := ((hv.coerce kind.operand).threeWay? (hv'.coerce kind.operand) kind.bias).map
    Value.int
  refine tracks_assign hPost (hResult.stands (fun r hr => ?_) .int) lessens_none dst
  obtain ⟨n, _, rfl⟩ := Option.map_eq_some_iff.mp hr
  rfl

theorem unary_tracks (op : UnaryOp) (dst src : Register) :
    Tracks Λ (unary pre post op dst src) (unary pre' post' op dst src)
      (Outcome.Covers Λ f hs) := by
  refine (hPre.read src).bind fun w v hv => ?_
  have hResult := (hv.coerce op.source).unary? op
  exact tracks_assign hPost (hResult.stands (fun _ hr => Value.unary?_isAtom hr) op.target)
    lessens_none dst

omit hPost in
theorem readOperand_tracks (op : BinaryOp) (type : NumberType) (rhs : Operand) :
    Tracks Λ (readOperand pre op type rhs) (readOperand pre' op type rhs) (Value.Stands Λ) := by
  cases rhs with
  | literal n => exact tracks_pure (.atom rfl)
  | register r => exact ((hPre.read r).imp fun _ _ hv => hv.coerce _).map

omit hPre hPost in
/-- What is no known integer is not divided by. -/
theorem binary?_of_isZero? {op : BinaryOp} {type : NumberType} {w v : Value}
    (hDivision : (op.isDivision && type.isIntegral) = true) (hv : v.isZero? = none) :
    Value.binary? op type w v = none := by
  have hNumber : v.int32? = none ∧ v.int64? = none := by
    unfold Value.isZero? at hv
    split at hv <;> first | (cases hv; done) | exact ⟨‹_›, ‹_›⟩
  cases type with
  | int =>
      show (w.int32?.bind fun a => v.int32?.bind fun b => _) = none
      rw [hNumber.1]
      cases w.int32? <;> rfl
  | long =>
      show (w.int64?.bind fun a => _) = none
      rw [hNumber.1, hNumber.2]
      cases w.int64? with
      | none => rfl
      | some a => cases op <;> rfl
  | float => simp [NumberType.isIntegral] at hDivision
  | double => simp [NumberType.isIntegral] at hDivision

theorem binary_tracks (op : BinaryOp) (type : NumberType) (dst lhs : Register) (rhs : Operand) :
    Tracks Λ (binary pre post op type dst lhs rhs) (binary pre' post' op type dst lhs rhs)
      (Outcome.Covers Λ f hs) := by
  refine (hPre.read lhs).bind fun w v hv =>
    (readOperand_tracks hPre op type rhs).bind fun w' v' hv' => ?_
  have hResult := ((hv.coerce type.descriptor).binary? hv' op type).stands
    (fun _ hr => Value.binary?_isAtom hr) type.descriptor
  dsimp only
  split
  · rename_i hDivision
    rcases hv'.isZero? with hSame | ⟨hl, hNone⟩
    · rw [hSame]
      cases v'.isZero? with
      | none => exact tracks_assign hPost hResult (lessens_someException _) dst
      | some b =>
          cases b
          · exact tracks_assign hPost hResult lessens_none dst
          · exact tracks_pure (covers_raise hPost _)
    · rw [hNone]
      cases w'.isZero? with
      | none => exact tracks_assign hPost hResult (lessens_someException _) dst
      | some b =>
          cases b
          · exact tracks_assign hPost hResult (.inr ⟨hl, rfl⟩) dst
          · rw [binary?_of_isZero? hDivision hNone]
            exact tracks_raise_assign hPost (fun t ht => .raises hl (.inl rfl) ht) rfl dst
  · exact tracks_assign hPost hResult lessens_none dst

/-- A cast of what is not known may fail, and leaves what is known in the first run as it is. -/
theorem checkCast_tracks (hSame : post.registers = pre.registers) (reg : Register)
    (type : Descriptor) :
    Tracks Λ (checkCast pre post reg type) (checkCast pre' post' reg type)
      (Outcome.Covers Λ f hs) := by
  refine (hPre.read reg).noting.bind fun w v ⟨hv, hRead, _⟩ => ?_
  have hKnown (hType : w.descriptor = v.descriptor) :
      Tracks Λ
        (pure (.nextOr post (if certainlyIs w type then none else someException .classCastException)))
        (pure (.nextOr post' (if certainlyIs v type then none else someException .classCastException)))
        (Outcome.Covers Λ f hs) := by
    refine tracks_pure (Lessens.covers ?_ hPost.passes)
    unfold certainlyIs
    rw [hType]
    split
    · exact lessens_none
    · exact lessens_someException _
  cases hv with
  | unknown d => exact tracks_assign hPost (.unknown type) (lessens_someException _) reg
  | hidden d hl hw =>
      have hKept {x : Option Value} (hKnown : w.isKnown = true)
          (hx : Lessens Λ hs x (someException .classCastException)) :
          Tracks Λ (pure (.nextOr post x))
            (Outcome.assign post' reg (.unknown type) (someException .classCastException))
            (Outcome.Covers Λ f hs) := by
        intro o ho
        obtain ⟨t, ht, rfl⟩ := assign_eq_ok.mp ho
        have hPeek : post.peek? reg = some w := by
          rw [← State.peek?_of_read hRead hKnown]
          unfold State.peek?
          rw [hSame]
        exact hx.covers (hPost.assign_second hPeek (.hidden type hl hw) ht).passes
      split
      · exact hKept rfl (.inr ⟨hl, rfl⟩)
      · exact tracks_assign hPost (.unknown type) (lessens_someException _) reg
      · rename_i hOther
        refine hKept (Value.isKnown_of_ne hOther) ?_
        · split
          · exact .inr ⟨hl, rfl⟩
          · exact lessens_someException _
  | null d e => exact tracks_pure (covers_next hPost)
  | atom h => cases w <;> first | (cases h; done) | exact hKnown rfl
  | _ => exact hKnown rfl

/-- Nothing is certain of the type of what is not known. -/
theorem instanceOf_tracks (dst src : Register) (type : Descriptor) :
    Tracks Λ (instanceOf pre post dst src type) (instanceOf pre' post' dst src type)
      (Outcome.Covers Λ f hs) := by
  refine (hPre.read src).bind fun w v hv => ?_
  refine tracks_assign hPost ?_ lessens_none dst
  have hSame (b : Bool) : Value.Stands Λ (if b = true then .boolean true else .unknown .boolean)
      (if b = true then .boolean true else .unknown .boolean) := by
    cases b
    · exact .unknown _
    · exact .atom rfl
  cases hv with
  | hidden d hl hw =>
      refine .hidden _ hl ?_
      split
      · exact Value.hidden_of_isAtom rfl
      · exact Value.hidden_unknown _
      · exact Value.hidden_unknown _
      · split
        · exact Value.hidden_of_isAtom rfl
        · exact Value.hidden_unknown _
  | unknown d => exact .unknown _
  | null d e => exact .atom rfl
  | atom h =>
      split
      · exact .atom rfl
      · exact .unknown _
      · exact .unknown _
      · split
        · exact .atom rfl
        · exact .unknown _
  | _ =>
      simp only [certainlyIs, Value.descriptor]
      exact hSame _

omit hPost in
/-- An object that may be null in the second run may be so for certain in the first. -/
theorem useObject_tracks (hs : List Handler) (object : Option Register) :
    Tracks Λ (useObject pre object) (useObject pre' object) fun p q =>
      p.1 = q.1 ∧ Lessens Λ hs p.2 q.2 ∨
        Λ.loose ∧ p = (true, none) ∧ q = (false, someException .nullPointerException) := by
  cases object with
  | none => exact tracks_pure (.inl ⟨rfl, lessens_none⟩)
  | some r =>
      refine ((hPre.read r).imp fun w v hv => ?_).map
      cases hv with
      | unknown d => exact .inl ⟨rfl, lessens_someException _⟩
      | hidden d hl hw =>
          split
          · exact .inr ⟨hl, rfl, rfl⟩
          · exact .inl ⟨rfl, lessens_someException _⟩
          · exact .inl ⟨rfl, .inr ⟨hl, rfl⟩⟩
      | null d e => exact .inl ⟨rfl, lessens_none⟩
      | atom h => cases w <;> first | (cases h; done) | exact .inl ⟨rfl, lessens_none⟩
      | _ => exact .inl ⟨rfl, lessens_none⟩

theorem fieldGet_tracks (dst : Register) (object : Option Register) (field : FieldReference) :
    Tracks Λ (fieldGet pre post dst object field) (fieldGet pre' post' dst object field)
      (Outcome.Covers Λ f hs) := by
  refine (useObject_tracks hPre hs object).bind ?_
  rintro ⟨b, x⟩ ⟨b', y⟩ (⟨hSame, hx⟩ | ⟨hl, hFirst, hSecond⟩)
  · obtain rfl : b = b' := hSame
    cases b
    · exact tracks_assign hPost (.unknown _) hx dst
    · exact tracks_pure (covers_raise hPost _)
  · cases hFirst
    cases hSecond
    exact tracks_raise_assign hPost (fun t ht => .raises hl (.inl rfl) ht) rfl dst

theorem fieldPut_tracks (src : Register) (object : Option Register) :
    Tracks Λ (fieldPut pre post src object) (fieldPut pre' post' src object)
      (Outcome.Covers Λ f hs) := by
  refine (hPre.read src).bind fun _ _ _ => (useObject_tracks hPre hs object).bind ?_
  rintro ⟨b, x⟩ ⟨b', y⟩ (⟨hSame, hx⟩ | ⟨hl, hFirst, hSecond⟩)
  · obtain rfl : b = b' := hSame
    cases b
    · exact tracks_pure (hx.covers hPost.passes)
    · exact tracks_pure (covers_raise hPost _)
  · cases hFirst
    cases hSecond
    exact tracks_pure (.raises hl (.inl rfl) hPost.stands.shows)

end

end Semantics

end Dalvik
