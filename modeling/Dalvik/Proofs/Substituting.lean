import Dalvik.Proofs.Proceeding

/-!
Methods in which classes are loaded that had been looked up by name, and from which casts are gone that could not
fail. The edits load a class where it was looked up, and remove what took the result. A run cannot tell this from a
method in which nothing is looked up and the class is loaded where the result was taken.
-/

namespace Dalvik

namespace Code

variable {code : Code} {a b c : Address}

/-- The address of the instruction before another one. -/
def previous? (code : Code) (b : Address) : Option Address :=
  match code.indexOf? b with
  | some (p + 1) => some (code.addressAt p)
  | _ => none

theorem previous?_eq_some_iff : code.previous? b = some a ↔ code.next? a = some b := by
  rw [next?_eq_some_iff, previous?]
  constructor
  · intro h
    split at h
    · rename_i p hp
      obtain ⟨hBound, rfl⟩ := indexOf?_eq_some_iff.mp hp
      exact ⟨p, Option.some.inj h ▸ indexOf?_addressAt (Nat.lt_of_succ_lt hBound), hBound, rfl⟩
    · cases h
  · rintro ⟨p, hp, hBound, rfl⟩
    obtain ⟨_, rfl⟩ := indexOf?_eq_some_iff.mp hp
    rw [indexOf?_addressAt hBound]

/-- What is before an instruction is before no other one. -/
theorem next?_injective (ha : code.next? a = some c) (hb : code.next? b = some c) : a = b :=
  Option.some.inj ((previous?_eq_some_iff.mpr ha).symm.trans (previous?_eq_some_iff.mpr hb))

theorem previous?_zero : code.previous? 0 = none := by
  rw [previous?]
  split
  · rename_i p hp
    obtain ⟨hBound, hZero⟩ := indexOf?_eq_some_iff.mp hp
    have hLess := addressAt_lt (Nat.succ_pos p) (Nat.le_of_lt hBound)
    rw [hZero] at hLess
    exact absurd hLess (Nat.not_lt_zero _)
  · rfl

end Code

namespace Peephole

/-- What a plan puts in place of an instruction. -/
def Plan.insn? : Plan → Option (Instruction Address)
  | loadClass dst type => some (.const dst (.type type))
  | loadString receiver text => some (.const receiver (.string text))
  | dropCast => none

/-- Whether a plan loads a class. -/
def Plan.loadsClass : Plan → Bool
  | loadClass _ _ => true
  | _ => false

section

variable (code : Code) (σ : Address → Option Plan)

/-- Where the class is looked up that is taken at an address, if the plan for that is to load it. -/
def lookup? (a : Address) : Option Address :=
  (code.previous? a).filter fun b => (σ b).any Plan.loadsClass

/-- What the edits put in place of an instruction. -/
def standing (a : Address) : Option (Instruction Address) :=
  match σ a with
  | some plan => plan.insn?
  | none => if (lookup? code σ a).isSome then none else code.at? a

/-- Where what is executed at an address has come from. -/
def origin (a : Address) : Address := (lookup? code σ a).getD a

/-- What is executed in place of an instruction. -/
def executed (a : Address) : Option (Instruction Address) :=
  if (σ a).isSome then none else standing code σ (origin code σ a)

end

/-- Plans for instructions of a method, none of which makes a string. -/
structure Fits (m : Method) (σ : Address → Option Plan) : Prop where
  insn : ∀ a plan, σ a = some plan → ∃ i, m.code.at? a = some i ∧ i.takesResult = false
  result : ∀ a dst type, σ a = some (.loadClass dst type) →
    ∃ b, m.code.next? a = some b ∧ m.code.at? b = some (.moveResult dst)
  stringless : ∀ a receiver text, σ a ≠ some (.loadString receiver text)

section Retains

variable {m m' : Method} {σ : Address → Option Plan} {label : Address → Address} {a b : Address}
  {i j : Instruction Address}

theorem lookup?_eq_some_iff :
    lookup? m.code σ a = some b ↔ m.code.next? b = some a ∧ ∃ dst type, σ b = some (.loadClass dst type) := by
  rw [lookup?, Option.filter_eq_some_iff, Code.previous?_eq_some_iff]
  refine and_congr_right fun _ => ⟨fun h => ?_, ?_⟩
  · obtain ⟨plan, hPlan, hLoads⟩ := (Option.any_eq_true ..).mp h
    cases plan with
    | loadClass dst type => exact ⟨dst, type, hPlan⟩
    | _ => cases hLoads
  · rintro ⟨dst, type, hPlan⟩
    rw [hPlan]
    rfl

/-- The result of a look-up is taken by an instruction that nothing is planned for. -/
theorem Fits.of_lookup? (h : Fits m σ) (ha : lookup? m.code σ a = some b) :
    ∃ dst type, σ b = some (.loadClass dst type) ∧ m.code.at? a = some (.moveResult dst) ∧ σ a = none := by
  obtain ⟨hNext, dst, type, hPlan⟩ := lookup?_eq_some_iff.mp ha
  obtain ⟨a', hNext', hTakes⟩ := h.result b dst type hPlan
  obtain rfl := Option.some.inj (hNext'.symm.trans hNext)
  refine ⟨dst, type, hPlan, hTakes, ?_⟩
  cases hOwn : σ a' with
  | none => rfl
  | some plan =>
      obtain ⟨i, hi, hOther⟩ := h.insn a' plan hOwn
      obtain rfl := Option.some.inj (hTakes.symm.trans hi)
      cases hOther

theorem Fits.lookup?_eq_none (h : Fits m σ) (hTakes : (m.code.at? a).any Instruction.takesResult = false) :
    lookup? m.code σ a = none := by
  cases hFound : lookup? m.code σ a with
  | none => rfl
  | some b =>
      obtain ⟨dst, _, _, hi, _⟩ := h.of_lookup? hFound
      rw [hi] at hTakes
      cases hTakes

theorem Fits.lookup?_eq_none_of_planned (h : Fits m σ) {plan : Plan} (ha : σ a = some plan) :
    lookup? m.code σ a = none := by
  obtain ⟨i, hi, hTakes⟩ := h.insn a plan ha
  exact h.lookup?_eq_none (by rw [hi, Option.any_some, hTakes])

theorem origin_of_eq_none (h : lookup? m.code σ a = none) : origin m.code σ a = a := by
  rw [origin, h]
  rfl

theorem origin_of_lookup? (h : lookup? m.code σ a = some b) : origin m.code σ a = b := by
  rw [origin, h]
  rfl

theorem standing_of_planned {plan : Plan} (h : σ a = some plan) : standing m.code σ a = plan.insn? := by
  rw [standing, h]

/-- What stands where nothing is planned and no class is taken is the instruction itself. -/
theorem standing_of_eq_none (h : σ a = none) (hNone : lookup? m.code σ a = none) :
    standing m.code σ a = m.code.at? a := by
  rw [standing, h, hNone]
  rfl

/-- What is executed is a class that is loaded in place of its look-up, or the instruction that is there. -/
theorem Fits.executed_cases (h : Fits m σ) (hi : executed m.code σ a = some i) :
    σ a = none ∧
      ((∃ b dst type, lookup? m.code σ a = some b ∧ σ b = some (.loadClass dst type) ∧
          m.code.at? a = some (.moveResult dst) ∧ i = .const dst (.type type)) ∨
        lookup? m.code σ a = none ∧ m.code.at? a = some i) := by
  unfold executed at hi
  split at hi
  · cases hi
  · rename_i hNone
    have hNone : σ a = none := by simpa using hNone
    refine ⟨hNone, ?_⟩
    cases hFound : lookup? m.code σ a with
    | none =>
        rw [origin_of_eq_none hFound, standing_of_eq_none hNone hFound] at hi
        exact .inr ⟨rfl, hi⟩
    | some b =>
        obtain ⟨dst, type, hPlan, hTakes, _⟩ := h.of_lookup? hFound
        rw [origin_of_lookup? hFound, standing_of_planned hPlan] at hi
        exact .inl ⟨b, dst, type, rfl, hPlan, hTakes, (Option.some.inj hi).symm⟩

theorem standing_origin (hi : executed m.code σ a = some i) : standing m.code σ (origin m.code σ a) = some i := by
  unfold executed at hi
  split at hi
  · cases hi
  · exact hi

/-- Where nothing is executed something is planned. -/
theorem Fits.exists_plan (h : Fits m σ) (ha : m.code.HasAddress a) (hNone : executed m.code σ a = none) :
    ∃ plan, σ a = some plan := by
  cases hPlan : σ a with
  | some plan => exact ⟨plan, rfl⟩
  | none =>
      obtain ⟨i, hi⟩ := Code.exists_at? ha
      unfold executed at hNone
      rw [hPlan, if_neg (by simp)] at hNone
      cases hFound : lookup? m.code σ a with
      | none =>
          rw [origin_of_eq_none hFound, standing_of_eq_none hPlan hFound, hi] at hNone
          cases hNone
      | some b =>
          obtain ⟨dst, type, hLoads, _⟩ := h.of_lookup? hFound
          rw [origin_of_lookup? hFound, standing_of_planned hLoads] at hNone
          cases hNone

/-- Control is not sent to where a result is taken. -/
theorem Fits.origin_target (h : Fits m σ) (hWell : m.WellFormed) (hi : m.code.at? a = some i) {t : Address}
    (ht : t ∈ i.targets) : origin m.code σ t = t :=
  origin_of_eq_none (h.lookup?_eq_none (hWell.targets i (Code.mem_of_at? hi) t ht))

/-- No handler begins with taking a result. -/
theorem Fits.origin_handler (h : Fits m σ) (hWell : m.WellFormed) {k : Handler} (hk : k ∈ m.handlersAt a) :
    origin m.code σ k.target = k.target := by
  obtain ⟨b, hb, _, hMem⟩ := Method.mem_handlersAt.mp hk
  obtain ⟨dst, hTakes⟩ := hWell.exists_moveException (List.mem_flatMap.mpr ⟨b, hb, hMem⟩)
  exact origin_of_eq_none (h.lookup?_eq_none (by rw [hTakes]; rfl))

/-- A result is taken only behind a call, so that what follows anything else is where it was. -/
theorem origin_next? (hNext : m.code.next? a = some b)
    (hNone : ∀ dst type, σ a ≠ some (.loadClass dst type)) : origin m.code σ b = b := by
  cases hFound : lookup? m.code σ b with
  | none => exact origin_of_eq_none hFound
  | some c =>
      obtain ⟨hBefore, dst, type, hPlan⟩ := lookup?_eq_some_iff.mp hFound
      exact absurd (Code.next?_injective hBefore hNext ▸ hPlan) (hNone dst type)

/-- Where a class is looked up that is loaded later, nothing is executed. -/
theorem executed_of_lookup? (ha : lookup? m.code σ a = some b) : executed m.code σ b = none := by
  obtain ⟨_, dst, type, hPlan⟩ := lookup?_eq_some_iff.mp ha
  rw [executed, hPlan]
  rfl

theorem hasAddress_origin (ha : m.code.HasAddress a) : m.code.HasAddress (origin m.code σ a) := by
  rw [origin]
  cases hFound : lookup? m.code σ a with
  | none => exact ha
  | some b => exact (Code.hasAddress_of_next? (lookup?_eq_some_iff.mp hFound).1).1

/-- What is executed at different addresses has come from different ones. -/
theorem origin_injective (hi : executed m.code σ a = some i) (hj : executed m.code σ b = some j)
    (hSame : origin m.code σ a = origin m.code σ b) : a = b := by
  cases hFound : lookup? m.code σ a with
  | none =>
      rw [origin_of_eq_none hFound] at hSame
      cases hOther : lookup? m.code σ b with
      | none => rwa [origin_of_eq_none hOther] at hSame
      | some y =>
          rw [origin_of_lookup? hOther] at hSame
          rw [hSame, executed_of_lookup? hOther] at hi
          cases hi
  | some x =>
      rw [origin_of_lookup? hFound] at hSame
      cases hOther : lookup? m.code σ b with
      | none =>
          rw [origin_of_eq_none hOther] at hSame
          rw [← hSame, executed_of_lookup? hFound] at hj
          cases hj
      | some y =>
          rw [origin_of_lookup? hOther] at hSame
          have hNext := (lookup?_eq_some_iff.mp hFound).1
          rw [hSame, (lookup?_eq_some_iff.mp hOther).1] at hNext
          exact (Option.some.inj hNext).symm

/-- What is left of a method by the edits is left by what a run cannot tell from them. -/
theorem Fits.retains (h : Fits m σ) (hWell : m.WellFormed) (hMoved : m.Moved m' label (standing m.code σ)) :
    m.Retains m' (label ∘ origin m.code σ) (executed m.code σ) where
  insn a j ha hj := by
    have hOrigin := standing_origin hj
    rcases (h.executed_cases hj).2 with ⟨b, dst, type, hFound, hPlan, _, rfl⟩ | ⟨hFound, hi⟩
    · rw [origin_of_lookup? hFound] at hOrigin
      rw [Function.comp_apply, origin_of_lookup? hFound]
      exact hMoved.insn b _ (Code.hasAddress_of_next? (lookup?_eq_some_iff.mp hFound).1).1 hOrigin
    · rw [origin_of_eq_none hFound] at hOrigin
      rw [Function.comp_apply, origin_of_eq_none hFound, hMoved.insn a j ha hOrigin]
      exact congrArg some (Instruction.mapTargets_congr fun t ht => by
        rw [Function.comp_apply, h.origin_target hWell hi ht])
  next a b j hj hNext := by
    have hOrigin := standing_origin hj
    obtain ⟨hOwn, hCases⟩ := h.executed_cases hj
    have ha := (Code.hasAddress_of_next? hNext).1
    rw [Function.comp_apply, Function.comp_apply, origin_next? hNext (by simp [hOwn])]
    rcases hCases with ⟨c, dst, type, hFound, hPlan, hTakes, _⟩ | ⟨hFound, hi⟩
    · have hBefore := (lookup?_eq_some_iff.mp hFound).1
      have hGone : standing m.code σ a = none := by
        rw [standing, hOwn, hFound]
        rfl
      obtain ⟨b', hNext', hLabel⟩ := hMoved.gone a ha hGone
      obtain rfl := Option.some.inj (hNext'.symm.trans hNext)
      rw [origin_of_lookup? hFound] at hOrigin ⊢
      rw [hMoved.next c j (Code.hasAddress_of_next? hBefore).1 hOrigin, hBefore, hLabel]
      exact .inl rfl
    · rw [origin_of_eq_none hFound] at hOrigin ⊢
      rw [hMoved.next a j ha hOrigin, hNext]
      exact .inl rfl
  gone a b hNext hNone := by
    have ha := (Code.hasAddress_of_next? hNext).1
    obtain ⟨plan, hPlan⟩ := h.exists_plan ha hNone
    rw [Function.comp_apply, Function.comp_apply, origin_of_eq_none (h.lookup?_eq_none_of_planned hPlan)]
    cases plan with
    | loadClass dst type =>
        have hFound : lookup? m.code σ b = some a := lookup?_eq_some_iff.mpr ⟨hNext, dst, type, hPlan⟩
        rw [origin_of_lookup? hFound]
    | loadString receiver text => exact absurd hPlan (h.stringless a receiver text)
    | dropCast =>
        obtain ⟨b', hNext', hLabel⟩ := hMoved.gone a ha (standing_of_planned hPlan)
        obtain rfl := Option.some.inj (hNext'.symm.trans hNext)
        rw [origin_next? hNext (by simp [hPlan]), hLabel]
  injective a b i j ha hb hi hj hSame :=
    origin_injective hi hj (hMoved.injective (hasAddress_origin ha) (hasAddress_origin hb) (standing_origin hi)
      (standing_origin hj) hSame)
  zero := by
    have hStart : lookup? m.code σ 0 = none := by
      rw [lookup?, Code.previous?_zero]
      rfl
    rw [Function.comp_apply, origin_of_eq_none hStart, hMoved.zero]
  eq_nil := hMoved.eq_nil

/-- What is executed as before is handled as before. -/
theorem Fits.handlersAt (h : Fits m σ) (hWell : m.WellFormed) (hMoved : m.Moved m' label (standing m.code σ))
    (hi : m.code.at? a = some i) (hSame : executed m.code σ a = some i) :
    m'.handlersAt ((label ∘ origin m.code σ) a) =
      (m.handlersAt a).map (Handler.retarget (label ∘ origin m.code σ)) := by
  have hOrigin := standing_origin hSame
  rcases (h.executed_cases hSame).2 with ⟨b, dst, type, _, _, hTakes, rfl⟩ | ⟨hFound, _⟩
  · rw [hTakes] at hi
    cases hi
  · rw [origin_of_eq_none hFound] at hOrigin
    rw [Function.comp_apply, origin_of_eq_none hFound,
      hMoved.handlers a i (Code.hasAddress_of_at? hi) hOrigin]
    refine List.map_congr_left fun k hk => ?_
    rw [Handler.retarget, Handler.retarget, Function.comp_apply, h.origin_handler hWell hk]

/-- The last instruction is left, as what goes is followed by another one. -/
theorem Fits.exists_executed (h : Fits m σ) (hMoved : m.Moved m' label (standing m.code σ))
    (hb : m.code.HasAddress b) : ∃ x, m.code.HasAddress x ∧ b ≤ x ∧ executed m.code σ x ≠ none := by
  obtain ⟨n, hn, rfl⟩ := hb
  have hLast : m.code.length - 1 < m.code.length := by omega
  refine ⟨m.code.addressAt (m.code.length - 1), ⟨_, hLast, rfl⟩, ?_, fun hNone => ?_⟩
  · exact (Code.addressAt_le_iff (Nat.le_of_lt hn) (Nat.le_of_lt hLast)).mpr (Nat.le_sub_one_of_lt hn)
  · obtain ⟨plan, hPlan⟩ := h.exists_plan ⟨_, hLast, rfl⟩ hNone
    have hEnd : m.code.next? (m.code.addressAt (m.code.length - 1)) = none := Code.next?_addressAt_last (by omega)
    cases plan with
    | loadClass dst type =>
        obtain ⟨b, hNext, _⟩ := h.result _ dst type hPlan
        rw [hEnd] at hNext
        cases hNext
    | loadString receiver text => exact h.stringless _ receiver text hPlan
    | dropCast =>
        obtain ⟨b, hNext, _⟩ := hMoved.gone _ ⟨_, hLast, rfl⟩ (standing_of_planned hPlan)
        rw [hEnd] at hNext
        cases hNext

end Retains

/-- What is planned for an instruction of a graph. -/
def planAt? (g : Graph) (a : Address) : Option Plan :=
  if g.isReached a then (g.method.code.at? a).bind (plan? g a) else none

section Plans

variable {g : Graph} {a : Address} {plan : Plan} {p : Nat}

theorem planAt?_eq_some_iff : planAt? g a = some plan ↔
    g.isReached a = true ∧ ∃ i, g.method.code.at? a = some i ∧ plan? g a i = some plan :=
  Graph.plannedAt?_eq_some_iff

theorem mem_plans_iff : (a, plan) ∈ plans g ↔ planAt? g a = some plan := Graph.mem_planned_iff

theorem exists_suits (h : planAt? g a = some plan) :
    ∃ p i, a = g.method.code.addressAt p ∧ g.method.code[p]? = some i ∧ Suits g.method p plan i := by
  obtain ⟨p, i, hBound, rfl, hi, _, hPlan⟩ := Graph.exists_position_of_plannedAt? h
  exact ⟨p, i, rfl, hi, suits_of_plan? hBound hPlan⟩

theorem fits_planAt? (hStrings : ∀ a receiver text, planAt? g a ≠ some (.loadString receiver text)) :
    Fits g.method (planAt? g) where
  insn a plan hPlan := by
    obtain ⟨p, i, rfl, hi, hSuits⟩ := exists_suits hPlan
    refine ⟨i, Code.at?_addressAt hi, ?_⟩
    cases i with
    | moveResult dst => exact absurd rfl (hSuits.takesNoResult dst)
    | _ => rfl
  result a dst type hPlan := by
    obtain ⟨p, i, rfl, _, hSuits⟩ := exists_suits hPlan
    have hResult := hSuits.loadClass dst type rfl
    exact ⟨_, Code.next?_addressAt (List.getElem?_eq_some_iff.mp hResult).1, Code.at?_addressAt hResult⟩
  stringless := hStrings

end Plans

section Update

variable {m : Method} {σ τ : Address → Option Plan} {a b : Address}

theorem lookup?_congr (h : ∀ b, m.code.next? b = some a → (σ b).any Plan.loadsClass = (τ b).any Plan.loadsClass) :
    lookup? m.code σ a = lookup? m.code τ a := by
  unfold lookup?
  cases hBefore : m.code.previous? a with
  | none => rfl
  | some b => simp only [Option.filter, h b (Code.previous?_eq_some_iff.mp hBefore)]

/-- What a plan changes when it is carried out. -/
theorem standing_dropCast (ha : σ a = none) :
    standing m.code (Function.update σ a (some .dropCast)) = Function.update (standing m.code σ) a none := by
  funext x
  have hLookup : lookup? m.code (Function.update σ a (some .dropCast)) x = lookup? m.code σ x := by
    refine lookup?_congr fun b _ => ?_
    by_cases hHere : b = a
    · rw [hHere, Function.update_self, ha]
      rfl
    · rw [Function.update_of_ne hHere]
  by_cases hHere : x = a
  · rw [hHere, Function.update_self, standing_of_planned (Function.update_self ..)]
    rfl
  · rw [Function.update_of_ne hHere, standing, standing, Function.update_of_ne hHere, hLookup]

theorem standing_loadClass {dst : Register} {type : Descriptor} (hb : σ b = none) (hNext : m.code.next? a = some b) :
    standing m.code (Function.update σ a (some (.loadClass dst type))) =
      Function.update (Function.update (standing m.code σ) b none) a (some (.const dst (.type type))) := by
  funext x
  have hLess := (Code.hasAddress_of_next? hNext).2.2
  by_cases hHere : x = a
  · rw [hHere, Function.update_self, standing_of_planned (Function.update_self ..)]
    rfl
  rw [Function.update_of_ne hHere]
  by_cases hThere : x = b
  · have hFound : lookup? m.code (Function.update σ a (some (.loadClass dst type))) b = some a :=
      lookup?_eq_some_iff.mpr ⟨hNext, dst, type, Function.update_self ..⟩
    rw [hThere, Function.update_self, standing, Function.update_of_ne (Nat.ne_of_gt hLess), hb, hFound]
    rfl
  · have hLookup : lookup? m.code (Function.update σ a (some (.loadClass dst type))) x = lookup? m.code σ x := by
      refine lookup?_congr fun c hc => ?_
      by_cases hSame : c = a
      · rw [hSame] at hc
        exact absurd (Option.some.inj (hc.symm.trans hNext)) hThere
      · rw [Function.update_of_ne hSame]
    rw [Function.update_of_ne hThere, standing, standing, Function.update_of_ne hHere, hLookup]

end Update

end Peephole

end Dalvik
