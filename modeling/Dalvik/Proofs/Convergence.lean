import Dalvik.Proofs.Recording
import Dalvik.Proofs.Weights
import Dalvik.Proofs.Widening

/-!
Sweeps come to an end. Each change makes the method lighter: it has fewer reflective calls, or no more of
them and less work left. What takes the place of a reflective call is any number of instructions, but no
reflective call among them, as long as no local class stands for the class of reflected methods.
-/

namespace Dalvik

namespace Weight

/-- How much there is to be simplified: what constants and jumps stand for already counts least. -/
def work : Weight where
  of
    | .const _ _ | .goto _ => 1
    | _ => 2
  mapTargets _ i := by cases i <;> rfl
  mapRegisters _ i := by
    cases i with
    | binary op type dst lhs rhs => cases rhs <;> rfl
    | _ => rfl

/-- Whether a call is reflective. -/
def reflection : Weight where
  of
    | .invoke _ m _ => if m = Unreflection.reflectiveCall then 1 else 0
    | _ => 0
  mapTargets _ i := by cases i <;> rfl
  mapRegisters _ i := by
    cases i with
    | binary op type dst lhs rhs => cases rhs <;> rfl
    | _ => rfl

theorem reflection_of (i : Instruction Address) :
    reflection.of i =
      match i with
      | .invoke _ m _ => if m = Unreflection.reflectiveCall then 1 else 0
      | _ => 0 := rfl

theorem work_pos (i : Instruction Address) : 0 < work.of i := by
  unfold work
  dsimp only
  split <;> decide

theorem length_le_work (code : Code) : code.length ≤ work.total code := by
  induction code with
  | nil => exact Nat.le_refl _
  | cons i code ih =>
      have hFirst := work_pos i
      simp only [List.length_cons, total_cons]
      omega

end Weight

open Weight (work reflection)

namespace Code

variable {code code' code'' old new : Code}

/-- A body with no more reflective calls and no more work left than another one. -/
structure AtMost (code' code : Code) : Prop where
  reflection : reflection.total code' ≤ reflection.total code
  work : work.total code' ≤ work.total code

/-- A body with fewer reflective calls than another one, or no more of them and less work left. -/
def Lighter (code' code : Code) : Prop :=
  reflection.total code' < reflection.total code ∨
    reflection.total code' ≤ reflection.total code ∧ work.total code' < work.total code

theorem AtMost.refl (code : Code) : code.AtMost code := ⟨Nat.le_refl _, Nat.le_refl _⟩

theorem AtMost.trans (h : code''.AtMost code') (h' : code'.AtMost code) : code''.AtMost code :=
  ⟨Nat.le_trans h.reflection h'.reflection, Nat.le_trans h.work h'.work⟩

theorem AtMost.trans_lighter (h : code''.AtMost code') (h' : code'.Lighter code) : code''.Lighter code := by
  obtain ⟨hReflection, hWork⟩ := h
  unfold Lighter at h' ⊢
  omega

theorem Lighter.trans (h : code''.Lighter code') (h' : code'.Lighter code) : code''.Lighter code := by
  unfold Lighter at h h' ⊢
  omega

/-- No body can be made lighter again and again. -/
theorem lighter_wf : WellFounded Lighter := by
  refine Subrelation.wf (r := InvImage (Prod.Lex (· < ·) (· < ·)) fun code : Code =>
    (reflection.total code, work.total code)) ?_ (InvImage.wf _ (Prod.lex Nat.lt_wfRel Nat.lt_wfRel).wf)
  intro code' code h
  rw [InvImage, Prod.lex_def]
  unfold Lighter at h
  omega

/-- Taking instructions away makes a body lighter. -/
theorem Exchanges.lighter_of_nil (h : code.Exchanges old [] code') (hOld : old ≠ []) :
    code'.AtMost code ∧ code'.Lighter code := by
  have hLength := List.length_pos_iff.mpr hOld
  have hSome := Weight.length_le_work old
  have hReflection := h reflection
  have hWork := h work
  simp only [Weight.total_nil] at hReflection hWork
  exact ⟨⟨by omega, by omega⟩, .inr ⟨by omega, by omega⟩⟩

end Code

/-- One draft has no more to be simplified than another one. -/
abbrev Draft.AtMost (d' d : Draft) : Prop := d'.graph.method.code.AtMost d.graph.method.code

/-- One draft has less to be simplified than another one. -/
abbrev Draft.Lighter (d' d : Draft) : Prop := d'.graph.method.code.Lighter d.graph.method.code

namespace Edit

variable {d : Draft}

theorem remove_lighter (a : Address) :
    Leads (remove a) d fun _ d' => d'.AtMost d ∧ d'.Lighter d := by
  refine (removeAll_exchanges [a]).imp fun _ _ hAll => ?_
  obtain ⟨_, hOld, hExchanges⟩ := hAll
  exact hExchanges.lighter_of_nil (hOld (List.cons_ne_nil a []))

/-- A constant or a jump in place of an instruction adds nothing, and less is left if that was neither of
them. -/
theorem replace_atMost (a : Address) {new : Instruction Address} (hWork : work.of new = 1)
    (hReflection : reflection.of new = 0) :
    Leads (replace a new) d fun _ d' =>
      d'.AtMost d ∧ ((∀ i, d.graph.method.code.at? a = some i → work.of i = 2) → d'.Lighter d) := by
  refine (replaceMany_exchanges a [new]).imp fun _ d' hAll => ?_
  obtain ⟨i, hi, hExchanges⟩ := hAll
  have hPositive := Weight.work_pos i
  have hNewReflection := hExchanges reflection
  have hNewWork := hExchanges work
  simp only [Weight.total_cons, Weight.total_nil, hWork, hReflection] at hNewReflection hNewWork
  refine ⟨⟨by omega, by omega⟩, fun hOld => .inr ⟨by omega, ?_⟩⟩
  have hTwo := hOld i hi
  omega

end Edit

namespace Pass

variable {r : Revision}

/-- What each part of a pass keeps holds after all of them. -/
theorem leads_forM_keeps {β : Type} {S : Revision → Prop} {f : β → Pass Unit} {items : List β}
    (hStep : ∀ x ∈ items, ∀ r, S r → Leads (f x) r fun _ r' => S r') (hr : S r) :
    Leads (items.forM f) r fun _ r' => S r' := by
  induction items generalizing r with
  | nil => exact hr
  | cons x rest ih =>
      change Leads (f x >>= fun _ => rest.forM f) r _
      rw [leads_bind]
      exact (hStep x (.head _) r hr).imp fun _ r' hFirst => ih (fun y hy => hStep y (.tail _ hy)) hFirst

/-- What the first part of a pass brings about, and the others keep, holds after all of them. -/
theorem leads_forM_brings {β : Type} {S : Revision → Prop} {f : β → Pass Unit} {items : List β}
    (hItems : items ≠ []) (hFirst : ∀ x ∈ items, Leads (f x) r fun _ r' => S r')
    (hStep : ∀ x ∈ items, ∀ r, S r → Leads (f x) r fun _ r' => S r') :
    Leads (items.forM f) r fun _ r' => S r' := by
  cases items with
  | nil => exact absurd rfl hItems
  | cons x rest =>
      change Leads (f x >>= fun _ => rest.forM f) r _
      rw [leads_bind]
      exact (hFirst x (.head _)).imp fun _ r' h => leads_forM_keeps (fun y hy => hStep y (.tail _ hy)) h

end Pass

namespace Constants

theorem carryOut_atMost (a : Address) (plan : Plan) (d : Draft) :
    Leads (carryOut a plan) d fun r? d' =>
      d'.AtMost d ∧ ((∀ i, d.graph.method.code.at? a = some i → work.of i = 2) →
        r? ≠ none → d'.Lighter d) := by
  cases plan with
  | load dst l =>
      rw [carryOut, ← bind_pure_comp, leads_bind]
      exact (Edit.replace_atMost a rfl rfl).imp fun _ d' h => ⟨h.1, fun hOld _ => h.2 hOld⟩
  | jump t =>
      rw [carryOut, ← bind_pure_comp, leads_bind]
      exact (Edit.replace_atMost a rfl rfl).imp fun _ d' h => ⟨h.1, fun hOld _ => h.2 hOld⟩
  | drop =>
      have hRemove := Edit.remove_lighter a (d := d)
      unfold Leads at hRemove ⊢
      rw [carryOut_drop]
      rcases hRun : Edit.remove a d with ⟨e | r, d'⟩
      · cases e with
        | wouldDisconnect b =>
            obtain rfl := Edit.remove_of_wouldDisconnect hRun
            exact ⟨.refl _, fun _ hNone => absurd rfl hNone⟩
        | noInstruction b => trivial
        | execution b e => trivial
      · rw [hRun] at hRemove
        exact ⟨hRemove.1, fun _ _ => hRemove.2⟩

/-- The first plan that is carried out finds the instruction that it was made for. -/
theorem carryOutAll_atMost (label : Address → Address) (pending : List (Address × Plan × Category))
    (r : Revision) :
    Leads (carryOutAll label pending) r fun again r' =>
      r'.draft.AtMost r.draft ∧
        ((∀ x ∈ pending, ∀ i, r.draft.graph.method.code.at? x.1 = some i → work.of i = 2) →
          again = true → r'.draft.Lighter r.draft) := by
  induction pending generalizing label r with
  | nil => exact ⟨.refl _, fun _ hAgain => absurd hAgain Bool.false_ne_true⟩
  | cons x pending ih =>
      obtain ⟨a, plan, kind⟩ := x
      rw [carryOutAll, leads_bind, Pass.leads_edit]
      refine ((carryOut_still a _ r.draft).and (carryOut_atMost a _ r.draft)).imp ?_
      rintro r? d' ⟨hStill, hAtMost, hLighter⟩
      cases r? with
      | none =>
          obtain rfl := hStill rfl
          refine (ih label r).imp fun _ r' h => ⟨h.1, fun hOld => h.2 fun y hy => hOld y (.tail _ hy)⟩
      | some moved =>
          simp only [leads_bind, Pass.leads_count]
          refine (ih _ _).imp fun _ r' h => ⟨h.1.trans hAtMost, fun hOld _ => ?_⟩
          exact h.1.trans_lighter (hLighter (hOld _ (.head _)) (Option.some_ne_none _))

end Constants

namespace Constants

theorem work_of_plan? {plan : Plan} {i : Instruction Address} {g : Graph} {a : Address} {kind : Category}
    (h : plan? g a i = some (plan, kind)) : work.of i = 2 := by
  obtain ⟨next, _, ⟨target, hDecides, _⟩ | ⟨dst, l, hComputes, _⟩⟩ := plan?_cases h
  · cases hDecides <;> rfl
  · cases i <;> first | rfl | cases hComputes

theorem perform_lighter (r : Revision) :
    Leads perform r fun now r' => now ≠ .unchanged → r'.draft.Lighter r.draft := by
  rw [perform, leads_bind, Pass.leads_graph]
  split
  · simp
  · rw [leads_bind]
    refine (carryOutAll_atMost id _ r).imp fun again r' hAll => ?_
    obtain ⟨_, hLighter⟩ := hAll
    cases again with
    | false => simp
    | true =>
        refine fun _ => hLighter (fun x hx i hi => ?_) rfl
        obtain ⟨_, j, hj, hFound⟩ :=
          Graph.plannedAt?_eq_some_iff.mp (Graph.mem_planned_iff.mp (List.mem_reverse.mp hx))
        obtain rfl : j = i := Option.some.inj (hj.symm.trans hi)
        exact work_of_plan? hFound

end Constants

namespace DeadCode

theorem perform_lighter (weak : Bool) (r : Revision) :
    Leads (perform weak) r fun now r' => now ≠ .unchanged → r'.draft.Lighter r.draft := by
  rw [perform, leads_bind, Pass.leads_graph]
  dsimp only
  generalize removable r.draft.graph (candidates weak r.draft.graph) _ = found
  cases found with
  | nil => simp
  | cons x found =>
      rw [if_neg (by simp), leads_bind, Pass.leads_edit]
      refine (Edit.removeAll_exchanges _).imp fun _ d' hAll => ?_
      obtain ⟨old, hOld, hExchanges⟩ := hAll
      have hLighter := (hExchanges.lighter_of_nil (hOld (List.cons_ne_nil _ _))).2
      rw [leads_bind]
      exact (Pass.leads_forM_keeps (S := fun r' => r'.draft.Lighter r.draft)
        (fun _ _ _ h => Pass.leads_count.mpr h) hLighter).imp fun _ r' h _ => h

end DeadCode

namespace Peephole

theorem carryOut_atMost (m : Machine) (a : Address) (plan : Plan) (d : Draft) :
    Leads (carryOut m a plan) d fun _ d' =>
      d'.AtMost d ∧ ((∀ i, d.graph.method.code.at? a = some i → work.of i = 2) → d'.Lighter d) := by
  have hLoad (dst : Register) (l : Literal) (d : Draft) : Leads (load m a dst l) d fun _ d' =>
      d'.AtMost d ∧ ((∀ i, d.graph.method.code.at? a = some i → work.of i = 2) → d'.Lighter d) := by
    rw [load, leads_bind]
    refine (Edit.replace_atMost a rfl rfl).imp fun _ d' h => ?_
    refine (Edit.refresh_method m a).imp fun _ d'' hMethod => ?_
    unfold Draft.AtMost Draft.Lighter
    rw [hMethod]
    exact h
  cases plan with
  | loadClass dst type =>
      rw [carryOut, leads_bind, Edit.leads_method]
      split
      · trivial
      · rw [leads_bind]
        refine (Edit.remove_lighter _).imp fun _ d' hAll => ?_
        obtain ⟨hAtMost, hLighter⟩ := hAll
        exact (hLoad dst _ d').imp fun _ d'' h =>
          ⟨h.1.trans hAtMost, fun _ => h.1.trans_lighter hLighter⟩
  | loadString receiver text => exact hLoad receiver _ d
  | dropCast =>
      rw [carryOut, leads_bind]
      exact (Edit.remove_lighter a).imp fun _ d' h => ⟨h.1, fun _ => h.2⟩

theorem work_of_plan? {plan : Plan} {i : Instruction Address} {g : Graph} {a : Address}
    (h : plan? g a i = some plan) : work.of i = 2 := by
  cases planned_of_plan? h <;> rfl

theorem perform_lighter (m : Machine) (r : Revision) :
    Leads (perform m) r fun now r' => now ≠ .unchanged → r'.draft.Lighter r.draft := by
  rw [perform, leads_bind, Pass.leads_graph]
  dsimp only
  have hWork : ∀ x ∈ if r.draft.graph.isComplete then plans r.draft.graph else [],
      ∀ i, r.draft.graph.method.code.at? x.1 = some i → work.of i = 2 := by
    intro x hx i hi
    split at hx
    · obtain ⟨_, j, hj, hFound⟩ := Graph.plannedAt?_eq_some_iff.mp (Graph.mem_planned_iff.mp hx)
      obtain rfl : j = i := Option.some.inj (hj.symm.trans hi)
      exact work_of_plan? hFound
    · cases hx
  generalize (if r.draft.graph.isComplete then plans r.draft.graph else []) = found at hWork ⊢
  cases found with
  | nil => simp
  | cons x rest =>
      rw [leads_bind]
      refine (Pass.leads_forM_brings (S := fun r' => r'.draft.Lighter r.draft) (by simp) (fun y hy => ?_)
        fun y _ r' h => ?_).imp fun _ r' h _ => h
      · rw [leads_bind, Pass.leads_edit]
        refine (carryOut_atMost m y.1 y.2 r.draft).imp fun _ d' hStep => ?_
        exact Pass.leads_count.mpr (hStep.2 (hWork y (List.mem_reverse.mp hy)))
      · rw [leads_bind, Pass.leads_edit]
        refine (carryOut_atMost m y.1 y.2 r'.draft).imp fun _ d' hStep => ?_
        exact Pass.leads_count.mpr (hStep.1.trans_lighter h)

end Peephole

namespace Unreflection

variable {cs : Classes} {d : Draft}

/-- The class of reflected methods has no method that could be called by reflection. -/
theorem lookup?_ne_reflectiveCall (hClasses : cs.find? .reflectedMethod = none) {target : MethodReference}
    {found : MethodReference × AccessFlags}
    (h : cs.lookup? target.definer target.name target.params = some found) : target ≠ reflectiveCall := by
  rintro rfl
  have hNone : FrameworkMethod.lookup? reflectiveCall.definer reflectiveCall.name reflectiveCall.params =
      none := by decide
  rw [Classes.lookup?, show cs.find? reflectiveCall.definer = none from hClasses] at h
  simp [hNone] at h

/-- No box is the class of reflected methods. -/
theorem boxing?_ne_reflectedMethod {type : Descriptor} {box : Boxing} (h : type.boxing? = some box) :
    box.type ≠ .reflectedMethod := by
  unfold Descriptor.boxing? at h
  repeat' split at h
  all_goals cases h <;> decide

theorem reflection_unbox (r : Register) (type : Descriptor) : reflection.total (unbox r type) = 0 := by
  unfold unbox
  split
  · rfl
  · rename_i box hBox
    have hOther : (⟨box.type, box.getter, [], type⟩ : MethodReference) ≠ reflectiveCall := fun hSame =>
      boxing?_ne_reflectedMethod hBox (congrArg MethodReference.definer hSame)
    simp [Weight.reflection_of, hOther]

theorem reflection_rebox (r : Register) (type : Descriptor) : reflection.total (rebox r type) = 0 := by
  unfold rebox
  split
  · rfl
  · rename_i box hBox
    have hOther : (⟨box.type, "valueOf", [type], box.type⟩ : MethodReference) ≠ reflectiveCall :=
      fun hSame => boxing?_ne_reflectedMethod hBox (congrArg MethodReference.definer hSame)
    simp [Weight.reflection_of, hOther]

theorem reflection_fetch (argv index r : Register) (position : Nat) (type : Descriptor) :
    reflection.total (fetch argv index r position type) = 0 := by
  unfold fetch adapt
  split
  · simp [reflection_unbox, Weight.reflection_of]
  · split <;> simp [Weight.reflection_of]

/-- A direct call of a method that is not called by reflection itself brings no reflective call. -/
theorem reflection_lower {s : Site} (hTarget : s.target ≠ reflectiveCall) (receiver argv scratch : Register) :
    reflection.total (lower s receiver argv scratch) = 0 := by
  have hFetched (parts : List (Descriptor × Nat)) :
      reflection.total (parts.flatMap fun p => fetch argv scratch (scratch + 2 + p.2) p.2 p.1) = 0 := by
    induction parts with
    | nil => rfl
    | cons p parts ih => rw [List.flatMap_cons, Weight.total_append, reflection_fetch, ih]
  have hBind : reflection.total (if s.kind = .static then [] else
      [.move (scratch + 1) receiver, .checkCast (scratch + 1) s.target.definer]) = 0 := by
    split <;> rfl
  simp only [lower, Weight.total_append, hFetched, hBind, reflection_rebox, Weight.total_cons,
    Weight.total_nil]
  simp [Weight.reflection_of, hTarget]

/-- A site is a reflective call with an array of arguments, and its target is found and called as its flags say. -/
theorem site?_eq_some {g : Graph} {a : Address} {i : Instruction Address} {s : Site} (h : site? cs g a i = some s) :
    s.address = a ∧
      (∃ handle receiver argv args, i = .invoke .virtual reflectiveCall (handle :: receiver :: argv :: args)) ∧
      ∃ found, cs.lookup? s.target.definer s.target.name s.target.params = some found ∧ s.kind = kindOf found.2 := by
  unfold site? at h
  split at h
  · rename_i m args
    simp only [bind, Option.bind_eq_some_iff] at h
    obtain ⟨handle, hHandle, argv, hArgv, target, _, count, _, found, hFound, h⟩ := h
    split at h
    · rename_i hIs
      obtain rfl := Option.some.inj h
      simp only [Bool.and_eq_true, decide_eq_true_eq] at hIs
      obtain rfl := hIs.1.1.1
      match args, hHandle, hArgv with
      | first :: receiver :: third :: rest, _, _ =>
          exact ⟨rfl, ⟨first, receiver, third, rest, rfl⟩, found, hFound, rfl⟩
    · cases h
  · cases h

/-- What is done about the result of the call of a site at a position. If the call returns nothing, null takes the place of
what is moved from it. -/
inductive Nulled (s : Site) (m : Method) (p : Nat) : Method → Prop
  | null {dst : Register} (hVoid : s.target.ret.isVoid = true) (hDst : m.code[p + 1]? = some (.moveResult dst)) :
      Nulled s m p (m.splice (p + 1) 1 [.const dst .null] true).1
  | same (hNone : s.target.ret.isVoid = true → ∀ dst, m.code[p + 1]? ≠ some (.moveResult dst)) : Nulled s m p m

/-- How a method comes from another one when the call of a site is carried out: it gets more local registers, something is
done about the result, and a direct call takes the place of the reflective one. -/
inductive CarriedOut (s : Site) (m : Method) : Method → Prop
  | intro {p : Nat} {kind : InvokeKind} {called : MethodReference} {handle receiver argv : Register} {args : List Register}
      {m₁ : Method} (hRoom : m.hasRoom s.registerCount = true) (hAt : s.address = m.code.addressAt p)
      (hi : (m.addLocals s.registerCount).code[p]? = some (.invoke kind called (handle :: receiver :: argv :: args)))
      (hNulled : Nulled s (m.addLocals s.registerCount) p m₁) :
      CarriedOut s m (m₁.splice p 1 (lower s receiver argv m.locals) true).1

section

variable {s : Site} {m m' : Method} {p : Nat}

/-- The call itself is left where it is. -/
theorem Nulled.editedFrom (h : Nulled s m p m') (hp : p < m.code.length) : ∃ label, m.EditedFrom m' label (p + 1) := by
  cases h with
  | null _ hDst => exact ⟨_, Method.editedFrom_splice (List.getElem?_eq_some_iff.mp hDst).1 _ _⟩
  | same _ => exact ⟨id, (Method.EditedFrom.refl m).mono hp⟩

theorem nullResult_yields (hVoid : s.target.ret.isVoid = true) (hp : p < d.graph.method.code.length) :
    Yields (nullResult (d.graph.method.code.addressAt p)) d fun _ d' => Nulled s d.graph.method p d'.graph.method := by
  rw [nullResult, yields_bind]
  refine yields_of_eq (v := d.graph.method) (t := d) rfl ?_
  dsimp only
  by_cases hNext : p + 1 < d.graph.method.code.length
  · have hi := List.getElem?_eq_getElem hNext
    rw [Code.next?_addressAt hNext]
    dsimp only
    rw [Code.at?_addressAt hi]
    split
    · rename_i dst hDst
      rw [yields_bind]
      refine (Edit.replaceMany_yields hNext [.const dst .null]).imp fun _ d' hMethod => ?_
      refine yields_of_eq rfl ?_
      rw [hMethod]
      exact .null hVoid (hi.trans hDst)
    · rename_i hOther
      exact yields_of_eq rfl (.same fun _ dst hDst => hOther dst (hi.symm.trans hDst))
  · rw [Code.next?_addressAt_last (by omega)]
    exact yields_of_eq rfl (.same fun _ dst hDst => hNext (List.getElem?_eq_some_iff.mp hDst).1)

/-- The call of a site succeeds at a call with a receiver and an array of arguments, if there are numbers for its fresh
registers. -/
theorem carryOut_yields {kind : InvokeKind} {called : MethodReference} {handle receiver argv : Register}
    {args : List Register} (hRoom : d.graph.hasRoom s.registerCount = true)
    (hAt : s.address = d.graph.method.code.addressAt p)
    (hi : (d.graph.method.addLocals s.registerCount).code[p]? =
      some (.invoke kind called (handle :: receiver :: argv :: args))) :
    Yields (carryOut s) d fun _ d' => CarriedOut s d.graph.method d'.graph.method := by
  have hAdded : Yields (Edit.addLocals s.registerCount) d fun _ d₁ =>
      d₁.graph.method = d.graph.method.addLocals s.registerCount :=
    yields_of_eq (Edit.addLocals_of_hasRoom hRoom) rfl
  rw [carryOut, yields_bind]
  refine yields_of_eq (v := d.graph.method) (t := d) rfl ?_
  rw [yields_bind]
  refine hAdded.imp fun _ d₁ hMethod => ?_
  rw [yields_bind]
  refine yields_of_eq (v := d₁.graph.method) (t := d₁) rfl ?_
  have hNow := hi
  rw [← hMethod] at hNow
  have hp := (List.getElem?_eq_some_iff.mp hNow).1
  have hAddress : s.address = d₁.graph.method.code.addressAt p := by
    rw [hMethod, Method.addLocals_addressAt]
    exact hAt
  have hLower {d₂ : Draft} (hNulled : Nulled s d₁.graph.method p d₂.graph.method) :
      Yields (do
        let _ ← Edit.replaceMany (d₁.graph.method.code.addressAt p) (lower s receiver argv d.graph.method.locals)
        return () : Edit Unit) d₂ fun _ d' => CarriedOut s d.graph.method d'.graph.method := by
    obtain ⟨label, hFrom⟩ := hNulled.editedFrom hp
    obtain ⟨hPlace, hStill⟩ := hFrom.found (Nat.lt_succ_self p) hNow
    rw [yields_bind, hPlace]
    refine (Edit.replaceMany_yields (List.getElem?_eq_some_iff.mp hStill).1 _).imp fun _ d' hLast => ?_
    rw [hMethod] at hNulled
    refine yields_of_eq rfl ?_
    rw [hLast]
    exact .intro (Graph.hasRoom_method hRoom) hAt hi hNulled
  rw [hAddress, Code.at?_addressAt hNow]
  dsimp only
  split
  · rename_i hVoid
    rw [yields_bind]
    exact (nullResult_yields hVoid hp).imp fun _ d₂ hNulled => hLower hNulled
  · rename_i hNot
    exact hLower (.same fun hVoid => absurd hVoid hNot)

/-- Without numbers for its fresh registers, the call of a site fails before anything is changed. -/
theorem carryOut_of_full (hFull : d.graph.hasRoom s.registerCount = false) : carryOut s d = (.error .overflow, d) := by
  rw [carryOut, stateful_bind_apply]
  change (Edit.addLocals s.registerCount >>= fun _ => _ : Edit Unit) d = _
  rw [stateful_bind_apply, Edit.addLocals_of_full hFull]

theorem carryOut_method (s : Site) (d : Draft) :
    Leads (carryOut s) d fun _ d' => CarriedOut s d.graph.method d'.graph.method := by
  by_cases hRoom : d.graph.hasRoom s.registerCount = true
  case neg =>
    rw [Leads, carryOut_of_full (eq_false_of_ne_true hRoom)]
    trivial
  by_cases hCall : ∃ kind called handle receiver argv args, (d.graph.method.addLocals s.registerCount).code.at? s.address =
      some (.invoke kind called (handle :: receiver :: argv :: args))
  · obtain ⟨kind, called, handle, receiver, argv, args, hInsn⟩ := hCall
    obtain ⟨p, hp, hi⟩ := Code.at?_eq_some_iff.mp hInsn
    rw [Method.addLocals_indexOf?] at hp
    exact (carryOut_yields hRoom (Code.indexOf?_eq_some_iff.mp hp).2.symm hi).leads
  · have hAdded : Leads (Edit.addLocals s.registerCount) d fun _ d₁ =>
        d₁.graph.method = d.graph.method.addLocals s.registerCount :=
      (yields_of_eq (Edit.addLocals_of_hasRoom hRoom) rfl).leads
    rw [carryOut, leads_bind, Edit.leads_method, leads_bind]
    refine hAdded.imp fun _ d₁ hMethod => ?_
    rw [leads_bind, Edit.leads_method, hMethod]
    split
    · rename_i kind called handle receiver argv args hInsn
      exact absurd ⟨kind, called, handle, receiver, argv, args, hInsn⟩ hCall
    · trivial

theorem Nulled.reflection_le (h : Nulled s m p m') : reflection.total m'.code ≤ reflection.total m.code := by
  cases h with
  | @null dst _ hDst =>
      have hTotal := reflection.total_splice hDst [.const dst .null] true
      simp only [Weight.total_cons, Weight.total_nil, Weight.reflection_of] at hTotal
      omega
  | same _ => exact Nat.le_refl _

/-- Where a call is made a direct one, no reflective call is left. -/
theorem carryOut_reflection (hTarget : s.target ≠ reflectiveCall) :
    Leads (carryOut s) d fun _ d' => ∃ i, d.graph.method.code.at? s.address = some i ∧
      reflection.total d'.graph.method.code + reflection.of i ≤ reflection.total d.graph.method.code := by
  refine (carryOut_method s d).imp fun _ d' hOut => ?_
  generalize d.graph.method = m, d'.graph.method = m' at hOut
  obtain @⟨p, kind, called, handle, receiver, argv, args, m₁, _, hAt, hi, hNulled⟩ := hOut
  obtain ⟨label, hFrom⟩ := hNulled.editedFrom (List.getElem?_eq_some_iff.mp hi).1
  have hTotal := reflection.total_splice (hFrom.found (Nat.lt_succ_self p) hi).2 (lower s receiver argv m.locals) true
  have hLess := hNulled.reflection_le
  have hWidened : reflection.total (m.addLocals s.registerCount).code = reflection.total m.code :=
    Weight.total_map_mapRegisters _ _ _
  obtain ⟨i, hOld, hSame⟩ : ∃ i, m.code[p]? = some i ∧
      i.mapRegisters (Method.shiftRegister m.locals s.registerCount) =
        .invoke kind called (handle :: receiver :: argv :: args) := by
    rw [Method.addLocals, List.getElem?_map, Option.map_eq_some_iff] at hi
    exact hi
  refine ⟨i, hAt ▸ Code.at?_addressAt hOld, ?_⟩
  rw [reflection_lower hTarget, reflection.mapTargets, ← hSame, reflection.mapRegisters] at hTotal
  omega

end

theorem perform_lighter (hClasses : cs.find? .reflectedMethod = none) (r : Revision) :
    Leads (perform cs) r fun now r' => now ≠ .unchanged → r'.draft.Lighter r.draft := by
  rw [perform, leads_bind, Pass.leads_graph]
  dsimp only
  have hSites : ∀ s ∈ if r.draft.graph.isComplete then sites cs r.draft.graph else [],
      s.target ≠ reflectiveCall ∧
        ∀ i, r.draft.graph.method.code.at? s.address = some i → reflection.of i = 1 := by
    intro s hs
    split at hs
    · obtain ⟨⟨a, j⟩, hLocated, hSite⟩ := List.mem_filterMap.mp hs
      split at hSite
      · obtain ⟨rfl, ⟨_, _, _, _, rfl⟩, _, hFound, _⟩ := site?_eq_some hSite
        refine ⟨lookup?_ne_reflectiveCall hClasses hFound, fun i hi => ?_⟩
        obtain rfl := Option.some.inj ((Code.mem_located_iff.mp hLocated).symm.trans hi)
        simp [Weight.reflection_of]
      · cases hSite
    · cases hs
  generalize (if r.draft.graph.isComplete then sites cs r.draft.graph else []) = found at hSites ⊢
  cases found with
  | nil => simp
  | cons x rest =>
      rw [if_neg (by simp), leads_bind]
      have hSite : ∀ s ∈ (x :: rest).reverse, ∀ r' : Revision, Leads (carryOut s) r'.draft fun _ d' =>
          ∃ i, r'.draft.graph.method.code.at? s.address = some i ∧
            reflection.total d'.graph.method.code + reflection.of i ≤
              reflection.total r'.draft.graph.method.code := fun s hs r' =>
        carryOut_reflection (hSites s (List.mem_reverse.mp hs)).1
      refine (Pass.leads_forM_brings (S := fun r' => reflection.total r'.draft.graph.method.code <
        reflection.total r.draft.graph.method.code) (by simp) (fun s hs => ?_) fun s hs r' h => ?_).imp ?_
      · rw [leads_bind, Pass.leads_edit]
        refine (hSite s hs r).imp fun _ d' hAll => Pass.leads_count.mpr ?_
        obtain ⟨i, hi, hLess⟩ := hAll
        rw [(hSites s (List.mem_reverse.mp hs)).2 i hi] at hLess
        exact hLess
      · rw [leads_bind, Pass.leads_edit]
        refine (hSite s hs r').imp fun _ d' hAll => Pass.leads_count.mpr ?_
        obtain ⟨i, _, hLess⟩ := hAll
        exact Nat.lt_of_le_of_lt (Nat.le_trans (Nat.le_add_right _ _) hLess) h
      · exact fun _ r' h _ => .inl h

end Unreflection

namespace Stage

variable {m : Machine}

/-- A pass leaves everything as it is and reports no change, or makes the method lighter. -/
theorem perform_settles (hClasses : m.classes.find? .reflectedMethod = none) (s : Stage) (r : Revision) :
    Leads (s.perform m) r fun now r' => (now = .unchanged ∧ r' = r) ∨ r'.draft.Lighter r.draft := by
  have hLighter : Leads (s.perform m) r fun now r' => now ≠ .unchanged → r'.draft.Lighter r.draft := by
    cases s with
    | deadCode weak => exact DeadCode.perform_lighter weak r
    | constants => exact Constants.perform_lighter r
    | peephole => exact Peephole.perform_lighter m r
    | unreflection => exact Unreflection.perform_lighter hClasses r
  refine ((perform_still s r).and hLighter).imp fun now r' hAll => ?_
  obtain ⟨hStill, hLess⟩ := hAll
  by_cases hNow : now = .unchanged
  · exact .inl ⟨hNow, hStill hNow⟩
  · exact .inr (hLess hNow)

theorem stages_settle (hClasses : m.classes.find? .reflectedMethod = none) (stages : List Stage)
    (result : PassResult) {r : Revision} (hr : r.draft.stale = false) :
    Leads (Optimization.stages m result stages : ExceptT OptimizationError (StateM Revision) PassResult)
      r fun now r' => (now = result ∧ r' = r) ∨ r'.draft.Lighter r.draft := by
  induction stages generalizing result r with
  | nil => exact .inl ⟨rfl, rfl⟩
  | cons s rest ih =>
      rw [Optimization.leads_stages_cons]
      refine (perform_settles hClasses s r).imp fun now r' hStep => ?_
      obtain ⟨rfl, rfl⟩ | hLighter := hStep
      · rw [if_neg (by simp [hr])]
        exact ih result hr
      · split
        · exact .inr hLighter
        · rename_i hGoes
          rw [Bool.not_eq_true] at hGoes
          exact (ih _ (Bool.or_eq_false_iff.mp hGoes).2).imp fun _ r'' h =>
            .inr (h.elim (fun hSame => hSame.2 ▸ hLighter) fun hLater => hLater.trans hLighter)

end Stage

namespace Optimization

variable {m : Machine} {weak : Bool} {o o' : Optimization}

/-- A sweep leaves everything as it is and reports no change, or makes the method lighter. -/
theorem sweep_settles (hClasses : m.classes.find? .reflectedMethod = none) (o : Optimization) :
    Leads (sweep m weak) o fun now o' =>
      (now = .unchanged ∧ o' = o) ∨ o'.method.code.Lighter o.method.code := by
  rw [leads_sweep]
  refine (Stage.stages_settle hClasses (Stage.sweep weak) .unchanged rfl).imp fun now r h => ?_
  obtain ⟨rfl, rfl⟩ | hLighter := h
  · exact .inl ⟨rfl, rfl⟩
  · exact .inr hLighter

/-- Sweeps of which the last one changes nothing, after a number of others that change something, each
followed by an execution if it leaves the graph behind. -/
inductive Rests (m : Machine) (weak : Bool) : Nat → Optimization → Optimization → Prop
  | rest {o o' : Optimization} (hLast : sweep m weak o = (.ok .unchanged, o')) : Rests m weak 0 o o'
  | changed {k : Nat} {o o₁ o' : Optimization} (hSweep : sweep m weak o = (.ok .changed, o₁))
      (hRest : Rests m weak k { o₁ with changed := true } o') : Rests m weak (k + 1) o o'
  | stale {k : Nat} {o o₁ o₂ o' : Optimization} (hSweep : sweep m weak o = (.ok .stale, o₁))
      (hAgain : reexecute m { o₁ with changed := true } = (.ok (), o₂))
      (hRest : Rests m weak k o₂ o') : Rests m weak (k + 1) o o'

/-- Making the graph anew leaves the method as it is. -/
theorem reexecute_method (o : Optimization) :
    Leads (reexecute m) o fun _ o' => o'.method = o.method ∧ o'.stale = o.stale := by
  unfold Leads reexecute
  cases hRun : m.execute o.graph.method o.graph.entry with
  | error e => trivial
  | ok g => exact ⟨(Machine.execute_consistent hRun).1, rfl⟩

theorem sweep_stale (o : Optimization) : (sweep m weak o).2.stale = o.stale := by
  rw [sweep]

/-- With enough sweeps allowed, sweeping fails or ends with a sweep that changes nothing. -/
theorem sweeps_rest (hClasses : m.classes.find? .reflectedMethod = none) (o : Optimization) :
    ∃ N, ∀ n, N ≤ n → (∃ e o', sweeps m weak n o = (.error e, o')) ∨
      ∃ k o', k + 1 < n ∧ sweeps m weak n o = (.ok (), o') ∧ Rests m weak k o o' ∧
        o'.stale = o.stale := by
  -- The method of the sweeps that are left is lighter after each one that changes something.
  induction hCode : o.method.code using Code.lighter_wf.induction generalizing o with
  | _ code ih =>
  subst hCode
  have hStep := @sweep_settles m weak hClasses o
  have hKept := @sweep_stale m weak o
  unfold Leads at hStep
  rcases hSweep : sweep m weak o with ⟨e | now, o₁⟩
  · refine ⟨1, fun n hn => .inl ⟨e, o₁, ?_⟩⟩
    obtain ⟨n, rfl⟩ := Nat.exists_eq_add_of_le' hn
    rw [sweeps, stateful_bind_apply, hSweep]
  · rw [hSweep] at hStep hKept
    have hLighter (hNow : now ≠ .unchanged) : o₁.method.code.Lighter o.method.code :=
      hStep.resolve_left fun h => hNow h.1
    cases now with
    | unchanged =>
        refine ⟨2, fun n hn => .inr ⟨0, o₁, by omega, ?_, .rest hSweep, hKept⟩⟩
        obtain ⟨n, rfl⟩ := Nat.exists_eq_add_of_le' (show 1 ≤ n by omega)
        rw [sweeps, stateful_bind_apply, hSweep]
        rfl
    | changed =>
        obtain ⟨N, hN⟩ := ih _ (hLighter (by decide)) { o₁ with changed := true } rfl
        refine ⟨N + 1, fun n hn => ?_⟩
        obtain ⟨n, rfl⟩ := Nat.exists_eq_add_of_le' (show 1 ≤ n by omega)
        have hSame : sweeps m weak (n + 1) o = sweeps m weak n { o₁ with changed := true } := by
          rw [sweeps, stateful_bind_apply, hSweep]
          rfl
        rw [hSame]
        obtain hFails | ⟨k, o', hk, hRun, hRests, hStale⟩ := hN n (by omega)
        · exact .inl hFails
        · exact .inr ⟨k + 1, o', by omega, hRun, .changed hSweep hRests, hStale.trans hKept⟩
    | stale =>
        have hSame (n : Nat) : sweeps m weak (n + 1 + 1) o =
            (reexecute m >>= fun _ => sweeps m weak (n + 1)) { o₁ with changed := true } := by
          rw [sweeps, stateful_bind_apply, hSweep]
          rfl
        have hMethod := reexecute_method (m := m) { o₁ with changed := true }
        unfold Leads at hMethod
        rcases hAgain : reexecute m { o₁ with changed := true } with ⟨e | _, o₂⟩
        · refine ⟨2, fun n hn => .inl ⟨e, o₂, ?_⟩⟩
          obtain ⟨n, rfl⟩ := Nat.exists_eq_add_of_le' hn
          rw [hSame, stateful_bind_apply, hAgain]
        · rw [hAgain] at hMethod
          obtain ⟨hMethod, hStale⟩ := hMethod
          obtain ⟨N, hN⟩ := ih o₂.method.code (by rw [hMethod]; exact hLighter (by decide)) o₂ rfl
          refine ⟨N + 2, fun n hn => ?_⟩
          obtain ⟨n, rfl⟩ := Nat.exists_eq_add_of_le' (show 2 ≤ n by omega)
          rw [hSame, stateful_bind_apply, hAgain]
          obtain hFails | ⟨k, o', hk, hRun, hRests, hLast⟩ := hN (n + 1) (by omega)
          · exact .inl hFails
          · exact .inr ⟨k + 1, o', by omega, hRun, .stale hSweep hAgain hRests,
              hLast.trans (hStale.trans hKept)⟩

/-- Simplifying converges, unless a local class stands for the class of reflected methods: with enough
sweeps allowed it fails, or it ends before they are used up with a sweep that changes nothing, and the
graph is not left behind. -/
theorem simplify_rests (hClasses : m.classes.find? .reflectedMethod = none) (o : Optimization) :
    ∃ N, ∀ n, N ≤ n → (∃ e o', simplify m weak n o = (.error e, o')) ∨
      ∃ k o', k + 1 < n ∧ simplify m weak n o = (.ok (), o') ∧
        Rests m weak k { o with changed := false, stale := false } o' ∧ o'.stale = false :=
  sweeps_rest hClasses { o with changed := false, stale := false }

/-- A method that is called by reflection. -/
def chosenMethod : Method where
  reference := ⟨⟨"La;"⟩, "chosen", [], .void⟩
  flags := { static := true, pub := true }
  locals := 0
  code := [.returnVoid]
  tries := []

/-- A method that finds `chosenMethod` by its name and calls it. -/
def reflectingMethod : Method where
  reference := ⟨⟨"Lb;"⟩, "run", [], .void⟩
  flags := { static := true }
  locals := 3
  code := [.const 0 (.type ⟨"La;"⟩), .const 1 (.string "chosen"), .const 2 (.int 0),
    .newArray 2 2 (.arrayOf .classObject),
    .invoke .virtual FrameworkMethod.classDeclaredMethod.reference [0, 1, 2], .moveResult 0,
    .const 1 .null, .invoke .virtual Unreflection.reflectiveCall [0, 1, 1], .returnVoid]
  tries := []

def reflectingMachine : Machine := ⟨⟨[⟨⟨"La;"⟩, [chosenMethod]⟩]⟩, ⟨20, 5, 2⟩⟩

/-- What simplifying `reflectingMethod` starts from. -/
def reflecting : Optimization :=
  .start (reflectingMachine.graphOf reflectingMethod (Machine.initialState reflectingMethod))

theorem simplify_rests_reflectingMethod :
    (simplify reflectingMachine true 3 reflecting).2.counts.of .unreflection = 1 ∧
      ∃ N, ∀ n, N ≤ n → (∃ e o', simplify reflectingMachine true n reflecting = (.error e, o')) ∨
        ∃ k o', k + 1 < n ∧ simplify reflectingMachine true n reflecting = (.ok (), o') ∧
          Rests reflectingMachine true k reflecting o' ∧ o'.stale = false :=
  ⟨by decide +kernel, simplify_rests (m := reflectingMachine) (by decide) reflecting⟩

end Optimization

end Dalvik
