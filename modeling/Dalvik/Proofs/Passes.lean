import Dalvik.Optimization
import Dalvik.Proofs.Keeping

/-!
What the passes make of a method. All but dead code removal only touch instructions that fall through,
and so leave the end of the method as it is.
-/

namespace Dalvik

namespace Pass

variable {α : Type} {r : Revision}

@[simp] theorem leads_edit {e : Edit α} {Q : α → Revision → Prop} :
    Leads (edit e) r Q ↔ Leads e r.draft fun v draft => Q v { r with draft } := by
  unfold Leads edit
  rcases e r.draft with ⟨_ | _, _⟩ <;> rfl

@[simp] theorem leads_count {kind : Category} {Q : Unit → Revision → Prop} :
    Leads (count kind) r Q ↔ Q () { r with counts := r.counts.increment kind } := Iff.rfl

/-- Parts of a pass that keep the graph do so one after another. `P` tells what is left to be done of
what has been done. -/
theorem leads_forM {β : Type} {f : β → Pass Unit} {P : List β → Graph → Prop}
    (hStep : ∀ x rest r, r.draft.graph.Consistent → P (x :: rest) r.draft.graph →
      Leads (f x) r fun _ r' => r.draft.graph.Keeps r'.draft.graph ∧ P rest r'.draft.graph)
    {items : List β} {r : Revision} (hr : r.draft.graph.Consistent) (hItems : P items r.draft.graph) :
    Leads (items.forM f) r fun _ r' => r.draft.graph.Keeps r'.draft.graph := by
  induction items generalizing r with
  | nil => exact .refl hr
  | cons x rest ih =>
      change Leads (f x >>= fun _ => rest.forM f) r _
      rw [leads_bind]
      refine (hStep x rest r hr hItems).imp fun _ r' h => ?_
      exact (ih h.1.consistent h.2).imp fun _ r'' hLater => h.1.trans hLater

@[simp] theorem leads_graph {Q : Graph → Revision → Prop} :
    Leads graph r Q ↔ Q r.draft.graph r := Iff.rfl

end Pass

/-- Plans for the instructions of a method, from its end to its start. -/
theorem pairwise_located {α : Type} (code : Code) (key : α → Address)
    (f : Address × Instruction Address → Option α) (hf : ∀ p x, f p = some x → key x = p.1) :
    (code.located.filterMap f).reverse.Pairwise fun x y => key y < key x := by
  rw [List.pairwise_reverse, List.pairwise_filterMap]
  have hOrder : code.located.Pairwise fun p q => p.1 < q.1 := by
    rw [← List.pairwise_map (R := (· < ·))]
    have hFirst : code.located.map Prod.fst = code.addresses :=
      List.map_fst_zip (Nat.le_of_eq (Instruction.length_addressesFrom 0 code))
    rw [hFirst, List.pairwise_iff_getElem]
    intro i j hi hj hLess
    have hLength : code.addresses.length = code.length := Instruction.length_addressesFrom 0 code
    have hFirst := Code.addresses_getElem? code i
    have hSecond := Code.addresses_getElem? code j
    rw [List.getElem?_eq_getElem hi, if_pos (by omega)] at hFirst
    rw [List.getElem?_eq_getElem hj, if_pos (by omega)] at hSecond
    rw [Option.some.inj hFirst, Option.some.inj hSecond]
    exact Code.addressAt_lt hLess (by omega)
  refine hOrder.imp fun {p q} hLess x hx y hy => ?_
  rw [hf p x hx, hf q y hy]
  exact hLess

namespace Graph

variable {α : Type} {g : Graph} {f : Address → Instruction Address → Option α} {a : Address} {x : α}

/-- What is planned for the instruction at an address, if it was executed. -/
def plannedAt? (g : Graph) (f : Address → Instruction Address → Option α) (a : Address) : Option α :=
  if g.isReached a then (g.method.code.at? a).bind (f a) else none

/-- What is planned for the executed instructions, in order. -/
def planned (g : Graph) (f : Address → Instruction Address → Option α) : List (Address × α) :=
  g.method.code.located.filterMap fun p => if g.isReached p.1 then (f p.1 p.2).map fun x => (p.1, x) else none

theorem plannedAt?_eq_some_iff : g.plannedAt? f a = some x ↔
    g.isReached a = true ∧ ∃ i, g.method.code.at? a = some i ∧ f a i = some x := by
  unfold plannedAt?
  split
  · rename_i hReached
    simp [hReached, Option.bind_eq_some_iff]
  · rename_i hReached
    simp [hReached]

theorem mem_planned_iff : (a, x) ∈ g.planned f ↔ g.plannedAt? f a = some x := by
  rw [plannedAt?_eq_some_iff, planned, List.mem_filterMap]
  constructor
  · rintro ⟨⟨b, i⟩, hLocated, hPlan⟩
    split at hPlan
    · rename_i hReached
      obtain ⟨y, hFound, hSame⟩ := Option.map_eq_some_iff.mp hPlan
      obtain ⟨rfl, rfl⟩ := Prod.mk.inj hSame
      exact ⟨hReached, i, Code.mem_located_iff.mp hLocated, hFound⟩
    · cases hPlan
  · rintro ⟨hReached, i, hi, hPlan⟩
    exact ⟨(a, i), Code.mem_located_iff.mpr hi, by rw [if_pos hReached, hPlan]; rfl⟩

/-- What is planned for is the instruction at some position. -/
theorem exists_position_of_plannedAt? (h : g.plannedAt? f a = some x) :
    ∃ p i, p < g.method.code.length ∧ a = g.method.code.addressAt p ∧ g.method.code[p]? = some i ∧
      g.isReached a = true ∧ f a i = some x := by
  obtain ⟨hReached, i, hInsn, hFound⟩ := plannedAt?_eq_some_iff.mp h
  obtain ⟨p, hp, hi⟩ := Code.at?_eq_some_iff.mp hInsn
  obtain ⟨hBound, hAddress⟩ := Code.indexOf?_eq_some_iff.mp hp
  exact ⟨p, i, hBound, hAddress.symm, hi, hReached, hFound⟩

/-- Plans are carried out from the end of the method to its start. -/
theorem pairwise_planned (g : Graph) (f : Address → Instruction Address → Option α) :
    (g.planned f).reverse.Pairwise fun x y => y.1 < x.1 := by
  refine pairwise_located _ Prod.fst _ fun p x hx => ?_
  split at hx
  · obtain ⟨q, _, rfl⟩ := Option.map_eq_some_iff.mp hx
    rfl
  · cases hx

end Graph

namespace Constants

/-- All executions of an instruction agree on where it goes. -/
inductive Decides (g : Graph) (a next : Address) : Instruction Address → Address → Prop
  | branch {c : Comparison} {lhs : Register} {rhs : Option Register} {target : Address} {taken : Bool} :
      g.agreed? a (outcome? c lhs rhs) = some taken →
        Decides g a next (.branch c lhs rhs target) (if taken then target else next)
  | switch {src : Register} {cases : List (Int32 × Address)} {key : Int32} :
      g.agreed? a (key? src) = some key →
        Decides g a next (.switch src cases) (Semantics.switchTarget cases next key)

variable {g : Graph} {a next target : Address} {i j : Instruction Address} {plan : Plan} {kind : Category}

/-- A plan is a jump for an instruction that is decided, or a load for one that computes a constant. -/
theorem plan?_cases (h : plan? g a i = some (plan, kind)) :
    ∃ next, g.method.code.next? a = some next ∧
      ((∃ target, Decides g a next i target ∧ plan = goTo next target) ∨
        ∃ dst l, computes i = true ∧ i.writes? = some dst ∧ constant? g a next dst = some l ∧
          plan = .load dst l) := by
  obtain ⟨next, hNext, h⟩ := Option.bind_eq_some_iff.mp h
  refine ⟨next, hNext, ?_⟩
  have hOther (h : (if computes i then do
      let dst ← i.writes?
      let l ← constant? g a next dst
      return (Plan.load dst l, Category.constantPropagation)
      else none) = some (plan, kind)) : ∃ dst l, computes i = true ∧ i.writes? = some dst ∧
        constant? g a next dst = some l ∧ plan = .load dst l := by
    split at h
    · rename_i hComputes
      obtain ⟨dst, hDst, h⟩ := Option.bind_eq_some_iff.mp h
      obtain ⟨l, hl, h⟩ := Option.bind_eq_some_iff.mp h
      obtain ⟨rfl, _⟩ := Prod.mk.inj (Option.some.inj h)
      exact ⟨dst, l, hComputes, hDst, hl, rfl⟩
    · cases h
  cases i with
  | branch c lhs rhs target =>
      obtain ⟨taken, hTaken, h⟩ := Option.bind_eq_some_iff.mp h
      obtain ⟨rfl, _⟩ := Prod.mk.inj (Option.some.inj h)
      exact .inl ⟨_, .branch hTaken, rfl⟩
  | switch src cases =>
      obtain ⟨key, hKey, h⟩ := Option.bind_eq_some_iff.mp h
      obtain ⟨rfl, _⟩ := Prod.mk.inj (Option.some.inj h)
      exact .inl ⟨_, .switch hKey, rfl⟩
  | _ => exact .inr (hOther h)

/-- Where control goes that is decided is an instruction, the next one or one that is jumped to. -/
theorem Decides.mem_targets (h : Decides g a next i target) : target ∈ next :: i.targets := by
  cases h with
  | @branch cmp lhs rhs target taken hTaken => cases taken <;> simp [Instruction.targets]
  | @switch src cases key hKey => exact Semantics.switchTarget_mem cases next key

/-- Only branches are decided. -/
theorem Decides.isBranch (h : Decides g a next i target) : i.isBranch = true := by
  cases h with
  | branch _ => rfl
  | switch _ => rfl

theorem Decides.fallsThrough (h : Decides g a next i target) : i.fallsThrough = true := by
  cases h with
  | branch _ => rfl
  | switch _ => rfl

theorem Decides.isCall (h : Decides g a next i target) : i.isCall = false := by
  cases h with
  | branch _ => rfl
  | switch _ => rfl

/-- What a plan says about the instruction that it replaces: it falls through, and a register that is
loaded is the one that it writes, and a place that is jumped to one that it names. -/
structure Suits (plan : Plan) (i : Instruction Address) : Prop where
  falls : i.fallsThrough = true
  load : ∀ dst l, plan = .load dst l → i.writes? = some dst
  jump : ∀ t, plan = .jump t → t ∈ i.targets

theorem fallsThrough_of_computes (h : computes i = true) : i.fallsThrough = true := by
  cases i <;> simp_all [computes, Instruction.fallsThrough]

theorem suits_of_plan? (h : plan? g a i = some (plan, kind)) : Suits plan i := by
  obtain ⟨next, _, ⟨target, hDecides, rfl⟩ | ⟨dst, l, hComputes, hDst, _, rfl⟩⟩ := plan?_cases h
  · unfold goTo
    split
    · exact ⟨hDecides.fallsThrough, by simp, by simp⟩
    · rename_i hOther
      refine ⟨hDecides.fallsThrough, by simp, fun t ht => ?_⟩
      obtain rfl := Plan.jump.inj ht
      exact (List.mem_cons.mp hDecides.mem_targets).resolve_left hOther
  · refine ⟨fallsThrough_of_computes hComputes, fun r l' hLoad => ?_, by simp⟩
    obtain ⟨rfl, _⟩ := Plan.load.inj hLoad
    exact hDst

theorem carryOut_drop (a : Address) (d : Draft) :
    carryOut a .drop d =
      match Edit.remove a d with
      | (.ok r, d') => (.ok (some r), d')
      | (.error (.wouldDisconnect _), d') => (.ok none, d')
      | (.error e, d') => (.error e, d') := by
  rw [carryOut, stateful_tryCatch_apply, ← bind_pure_comp, stateful_bind_apply]
  rcases Edit.remove a d with ⟨e | r, d'⟩
  · cases e <;> rfl
  · rfl

variable {m : Method} {label : Address → Address} {bound : Nat}

/-- A plan that is carried out edits the method at the place of its instruction. -/
theorem carryOut_leads {d : Draft} (hd : d.graph.Consistent)
    (hFrom : m.EditedFrom d.graph.method label bound) {p : Nat} (hp : p < bound)
    {i : Instruction Address} (hi : m.code[p]? = some i) {plan : Plan} (hSuits : Suits plan i) :
    Leads (carryOut (m.code.addressAt p) (plan.retarget label)) d fun r? d' =>
      d.graph.Keeps d'.graph ∧
        match r? with
        | none => d' = d
        | some r => m.EditedFrom d'.graph.method (r.label ∘ label) p := by
  obtain ⟨hAddress, hNow⟩ := hFrom.found hp hi
  have hBound : p + 1 ≤ d.graph.method.code.length := (List.getElem?_eq_some_iff.mp hNow).1
  obtain ⟨hCode, _⟩ := Method.validate_eq_ok_iff.mp hd.valid
  have hOld : d.graph.method.Admits (i.mapTargets label) := hCode _ (List.mem_of_getElem? hNow)
  have hFalls : (i.mapTargets label).fallsThrough = true := by simpa using hSuits.falls
  have hSplice (new : Code) (retarget : Bool) :=
    (hFrom.mono (Nat.le_of_lt hp)).trans (Method.editedFrom_splice hBound new retarget)
      (Nat.le_refl p)
  rw [hAddress]
  have hReplace {new : Instruction Address} (hNew : d.graph.method.Admits new) :
      Leads (some <$> Edit.replace (d.graph.method.code.addressAt p) new) d fun r? d' =>
        d.graph.Keeps d'.graph ∧
          match r? with
          | none => d' = d
          | some r => m.EditedFrom d'.graph.method (r.label ∘ label) p := by
    rw [← bind_pure_comp, leads_bind]
    refine (Edit.replace_leads hd hNow hFalls hNew).imp fun r d' h => ?_
    obtain ⟨hKeeps, hMethod, hLabel⟩ := h
    refine ⟨hKeeps, ?_⟩
    dsimp only
    rw [hMethod, hLabel]
    exact hSplice [new] true
  cases plan with
  | load dst l =>
      exact hReplace (Method.admits_const (hOld.registers dst (by simp [hSuits.load dst l rfl])) l)
  | jump t =>
      refine hReplace ⟨by simp [Instruction.reads, Instruction.writes?], fun u hu => ?_⟩
      obtain rfl : u = label t := by simpa [Instruction.targets] using hu
      refine hOld.targets _ ?_
      rw [Instruction.targets_mapTargets]
      exact List.mem_map_of_mem (hSuits.jump t rfl)
  | drop =>
      have hSame : Plan.drop.retarget label = .drop := rfl
      unfold Leads
      rw [hSame, carryOut_drop]
      rcases Edit.remove_spec hd hNow hFalls with ⟨e, hRefused⟩ | ⟨g, hRemoved, hKeeps, hMethod⟩
      · rw [hRefused]
        cases e with
        | wouldDisconnect a => exact ⟨.refl hd, rfl⟩
        | noInstruction a => trivial
        | execution a e => trivial
      · rw [hRemoved]
        refine ⟨hKeeps, ?_⟩
        dsimp only
        rw [hMethod]
        exact hSplice [] false

/-- Plans that are carried out from the end of the method to its start leave its end alone. -/
theorem carryOutAll_leads {pending : List (Address × Plan × Category)} {r : Revision}
    (hr : r.draft.graph.Consistent) (hFrom : m.EditedFrom r.draft.graph.method label bound)
    (hOrder : pending.Pairwise fun x y => y.1 < x.1)
    (hPending : ∀ x ∈ pending, ∃ p i, p < bound ∧ x.1 = m.code.addressAt p ∧
      m.code[p]? = some i ∧ Suits x.2.1 i) :
    Leads (carryOutAll label pending) r fun _ r' => r.draft.graph.Keeps r'.draft.graph := by
  induction pending generalizing r label bound with
  | nil => exact .refl hr
  | cons x pending ih =>
      obtain ⟨hFirst, hTail⟩ := List.pairwise_cons.mp hOrder
      obtain ⟨p, i, hp, hAddress, hi, hSuits⟩ := hPending x (.head _)
      have hRest : ∀ y ∈ pending, ∃ q i, q < p ∧ y.1 = m.code.addressAt q ∧
          m.code[q]? = some i ∧ Suits y.2.1 i := by
        intro y hy
        obtain ⟨q, i, _, hPlace, hi', hSuits⟩ := hPending y (.tail _ hy)
        have hLess := hFirst y hy
        rw [hPlace, hAddress, Code.addressAt_lt_iff
          (Nat.le_of_lt (List.getElem?_eq_some_iff.mp hi').1)
          (Nat.le_of_lt (List.getElem?_eq_some_iff.mp hi).1)] at hLess
        exact ⟨q, i, hLess, hPlace, hi', hSuits⟩
      obtain ⟨a, plan, kind⟩ := x
      obtain rfl : a = m.code.addressAt p := hAddress
      rw [carryOutAll, leads_bind, Pass.leads_edit]
      refine (carryOut_leads hr hFrom hp hi hSuits).imp fun r? d' h => ?_
      obtain ⟨hKeeps, hNow⟩ := h
      cases r? with
      | none =>
          obtain rfl : d' = r.draft := hNow
          refine ih hr hFrom hTail fun y hy => ?_
          obtain ⟨q, i, hq, hRest⟩ := hRest y hy
          exact ⟨q, i, Nat.lt_trans hq hp, hRest⟩
      | some moved =>
          dsimp only
          rw [leads_bind, Pass.leads_count, leads_bind]
          refine (ih ?_ hNow hTail hRest).imp fun _ r' hLater => hKeeps.trans hLater
          exact hKeeps.consistent

theorem perform_leads {r : Revision} (hr : r.draft.graph.Consistent) :
    Leads perform r fun _ r' => r.draft.graph.Keeps r'.draft.graph := by
  rw [perform, leads_bind, Pass.leads_graph]
  split
  · exact .refl hr
  · rw [leads_bind]
    have hPlans : ∀ x ∈ (plans r.draft.graph).reverse, ∃ p i, p < r.draft.graph.method.code.length ∧
        x.1 = r.draft.graph.method.code.addressAt p ∧
          r.draft.graph.method.code[p]? = some i ∧ Suits x.2.1 i := by
      intro x hx
      obtain ⟨p, i, hBound, hAddress, hi, _, hPlan⟩ :=
        Graph.exists_position_of_plannedAt? (Graph.mem_planned_iff.mp (List.mem_reverse.mp hx))
      exact ⟨p, i, hBound, hAddress, hi, suits_of_plan? hPlan⟩
    refine (carryOutAll_leads hr (.refl _) (Graph.pairwise_planned _ _) hPlans).imp fun again r' h => ?_
    split <;> exact h

end Constants

namespace Peephole

/-- What a plan says about the instruction at a position. -/
structure Suits (m : Method) (p : Nat) (plan : Plan) (i : Instruction Address) : Prop where
  falls : i.fallsThrough = true
  takesNoResult : ∀ dst, i ≠ .moveResult dst
  loadClass : ∀ dst type, plan = .loadClass dst type → m.code[p + 1]? = some (.moveResult dst)
  loadString : ∀ receiver text, plan = .loadString receiver text → receiver ∈ i.reads

/-- What the executions at an address agree on where a plan is made for it. -/
inductive Planned (g : Graph) (a : Address) : Instruction Address → Plan → Prop
  | loadClass {args : List Register} {dst r : Register} {name : String}
      (hResult : resultRegister? g a = some dst) (hArg : args[0]? = some r)
      (hName : g.agreed? a (contents? Value.text? r) = some name) :
      Planned g a (.invoke .static FrameworkMethod.classForName.reference args) (.loadClass dst (.ofBinaryName name))
  | loadString {args : List Register} {receiver : Register} (text : String) (hArg : args[0]? = some receiver) :
      Planned g a (.invoke .direct FrameworkMethod.stringOfBytes.reference args) (.loadString receiver text)
  | dropCast {r : Register} {type : Descriptor} (hHolds : (g.pileNodes a).all (castHolds r type) = true) :
      Planned g a (.checkCast r type) .dropCast

theorem planned_of_plan? {g : Graph} {a : Address} {i : Instruction Address} {plan : Plan}
    (h : plan? g a i = some plan) : Planned g a i plan := by
  unfold plan? at h
  split at h
  · split at h
    · rename_i hIs
      simp only [Bool.and_eq_true, decide_eq_true_eq] at hIs
      obtain ⟨rfl, rfl⟩ := hIs
      obtain ⟨dst, hResult, h⟩ := Option.bind_eq_some_iff.mp h
      obtain ⟨r, hArg, h⟩ := Option.bind_eq_some_iff.mp h
      obtain ⟨name, hName, h⟩ := Option.bind_eq_some_iff.mp h
      obtain rfl := Option.some.inj h
      exact .loadClass hResult hArg hName
    · split at h
      · rename_i hIs
        simp only [Bool.and_eq_true, decide_eq_true_eq] at hIs
        obtain ⟨rfl, rfl⟩ := hIs
        obtain ⟨receiver, hReceiver, h⟩ := Option.bind_eq_some_iff.mp h
        obtain ⟨r, _, h⟩ := Option.bind_eq_some_iff.mp h
        obtain ⟨bytes, _, h⟩ := Option.bind_eq_some_iff.mp h
        split at h
        · obtain rfl := Option.some.inj h
          exact .loadString _ hReceiver
        · cases h
      · cases h
  · split at h
    · rename_i hHolds
      obtain rfl := Option.some.inj h
      exact .dropCast (Bool.and_eq_true_iff.mp hHolds).2
    · cases h
  · cases h

/-- The register of the result is that of the instruction that takes it. -/
theorem moveResult_of_resultRegister? {g : Graph} {p : Nat} {dst : Register} (hp : p < g.method.code.length)
    (h : resultRegister? g (g.method.code.addressAt p) = some dst) :
    g.method.code[p + 1]? = some (.moveResult dst) := by
  obtain ⟨next, hNext, h⟩ := Option.bind_eq_some_iff.mp h
  obtain ⟨q, hq, hBound, rfl⟩ := Code.next?_eq_some_iff.mp hNext
  rw [Code.indexOf?_addressAt hp] at hq
  obtain rfl := Option.some.inj hq
  rw [Code.at?_addressAt (List.getElem?_eq_getElem hBound)] at h
  rw [List.getElem?_eq_getElem hBound]
  split at h
  · rename_i hInsn
    rw [hInsn, Option.some.inj h]
  · cases h

theorem suits_of_plan? {g : Graph} {p : Nat} {i : Instruction Address} {plan : Plan}
    (hp : p < g.method.code.length) (h : plan? g (g.method.code.addressAt p) i = some plan) :
    Suits g.method p plan i := by
  cases planned_of_plan? h with
  | loadClass hResult _ _ =>
      refine ⟨rfl, by simp, fun dst type hPlan => ?_, by simp⟩
      obtain ⟨rfl, _⟩ := Plan.loadClass.inj hPlan
      exact moveResult_of_resultRegister? hp hResult
  | loadString text hArg =>
      refine ⟨rfl, by simp, by simp, fun receiver text' hPlan => ?_⟩
      obtain ⟨rfl, _⟩ := Plan.loadString.inj hPlan
      exact List.mem_of_getElem? hArg
  | dropCast _ => exact ⟨rfl, by simp, by simp, by simp⟩

variable {m : Method} {label : Address → Address} {bound : Nat} {d : Draft} (machine : Machine)

theorem load_leads (hd : d.graph.Consistent) (hFrom : m.EditedFrom d.graph.method label bound)
    {p : Nat} (hp : p < bound) {i : Instruction Address} (hi : m.code[p]? = some i)
    (hFalls : i.fallsThrough = true) {dst : Register} (hDst : dst < d.graph.method.registerCount)
    (l : Literal) :
    Leads (load machine (m.code.addressAt p) dst l) d fun _ d' =>
      d.graph.Keeps d'.graph ∧ ∃ label, m.EditedFrom d'.graph.method label p := by
  obtain ⟨hAddress, hNow⟩ := hFrom.found hp hi
  have hBound : p + 1 ≤ d.graph.method.code.length := (List.getElem?_eq_some_iff.mp hNow).1
  have hAdmits := Method.admits_const hDst l
  have hSpliced := (hFrom.mono (Nat.le_of_lt hp)).trans
    (Method.editedFrom_splice hBound [.const dst l] true) (Nat.le_refl p)
  rw [hAddress, load, leads_bind]
  refine (Edit.replace_leads hd hNow (by simpa using hFalls) hAdmits).imp fun r d' h => ?_
  obtain ⟨hKeeps, hMethod, _⟩ := h
  refine (Edit.refresh_leads machine _ hKeeps.consistent).imp fun _ d'' hAgain => ?_
  rw [← hMethod, ← hAgain.2] at hSpliced
  exact ⟨hKeeps.trans hAgain.1, _, hSpliced⟩

theorem remove_leads (hd : d.graph.Consistent) (hFrom : m.EditedFrom d.graph.method label bound)
    {p : Nat} (hp : p < bound) {i : Instruction Address} (hi : m.code[p]? = some i)
    (hFalls : i.fallsThrough = true) :
    Leads (Edit.remove (m.code.addressAt p)) d fun _ d' =>
      d.graph.Keeps d'.graph ∧ ∃ label, m.EditedFrom d'.graph.method label p := by
  obtain ⟨hAddress, hNow⟩ := hFrom.found hp hi
  have hBound : p + 1 ≤ d.graph.method.code.length := (List.getElem?_eq_some_iff.mp hNow).1
  have hGone : m.EditedFrom (d.graph.method.without p) _ p :=
    (hFrom.mono (Nat.le_of_lt hp)).trans (Method.editedFrom_splice hBound _ _) (Nat.le_refl p)
  rw [hAddress]
  unfold Leads
  rcases Edit.remove_spec hd hNow (by simpa using hFalls) with
    ⟨e, hRefused⟩ | ⟨g, hRemoved, hKeeps, hMethod⟩
  · rw [hRefused]
    trivial
  · rw [hRemoved]
    rw [← hMethod] at hGone
    exact ⟨hKeeps, _, hGone⟩

/-- A change edits the method at the place of its instruction and, to load a class, at that of the
result, which no other change is about. -/
theorem carryOut_leads (hd : d.graph.Consistent) (hFrom : m.EditedFrom d.graph.method label bound)
    (hLast : ∀ dst, m.code[bound]? ≠ some (.moveResult dst))
    {p : Nat} (hp : p < bound) {i : Instruction Address} (hi : m.code[p]? = some i) {plan : Plan}
    (hSuits : Suits m p plan i) :
    Leads (carryOut machine (m.code.addressAt p) plan) d fun _ d' =>
      d.graph.Keeps d'.graph ∧ ∃ label, m.EditedFrom d'.graph.method label p := by
  obtain ⟨hCode, _⟩ := Method.validate_eq_ok_iff.mp hd.valid
  have hAdmits {q : Nat} (hq : q < bound) {j : Instruction Address} (hj : m.code[q]? = some j) :=
    hCode _ (List.mem_of_getElem? (hFrom.found hq hj).2)
  cases plan with
  | loadClass dst type =>
      have hResult := hSuits.loadClass dst type rfl
      have hNext : p + 1 < bound := by
        refine Nat.lt_of_le_of_ne hp fun hSame => ?_
        exact hLast dst (hSame ▸ hResult)
      have hLength := (hFrom.found hNext hResult).2
      have hAfter : d.graph.method.code.next? (m.code.addressAt p) =
          some (m.code.addressAt (p + 1)) := by
        rw [(hFrom.found hp hi).1, (hFrom.found hNext hResult).1]
        exact Code.next?_addressAt (List.getElem?_eq_some_iff.mp hLength).1
      have hDst : dst < d.graph.method.registerCount :=
        (hAdmits hNext hResult).registers dst (by simp [Instruction.mapTargets, Instruction.writes?])
      rw [carryOut, leads_bind, Edit.leads_method, hAfter]
      dsimp only
      rw [leads_bind]
      refine (remove_leads hd hFrom hNext hResult rfl).imp fun _ d' h => ?_
      obtain ⟨hKeeps, label', hFrom'⟩ := h
      have hSame : d'.graph.method.registerCount = d.graph.method.registerCount :=
        hFrom'.registers.trans hFrom.registers.symm
      exact (load_leads machine hKeeps.consistent hFrom' (Nat.lt_succ_self p) hi hSuits.falls
        (hSame ▸ hDst) _).imp fun _ d'' h => ⟨hKeeps.trans h.1, h.2⟩
  | loadString receiver text =>
      refine load_leads machine hd hFrom hp hi hSuits.falls ((hAdmits hp hi).registers _ ?_) _
      rw [Instruction.reads_mapTargets]
      exact List.mem_append_left _ (hSuits.loadString receiver text rfl)
  | dropCast =>
      rw [carryOut, leads_bind]
      exact remove_leads hd hFrom hp hi hSuits.falls

/-- The changes of a pass that are left to be carried out, the last instruction's first. -/
structure Remaining (m : Method) (rest : List (Address × Plan)) (g : Graph) : Prop where
  order : rest.Pairwise fun x y => y.1 < x.1
  edited : ∃ label bound, m.EditedFrom g.method label bound ∧
    (∀ dst, m.code[bound]? ≠ some (.moveResult dst)) ∧
    ∀ x ∈ rest, ∃ p i, p < bound ∧ x.1 = m.code.addressAt p ∧ m.code[p]? = some i ∧ Suits m p x.2 i

/-- The plans for the instructions of a method are left to be carried out before anything has been. -/
theorem remaining_plans (g : Graph) : Remaining g.method (plans g).reverse g := by
  refine ⟨Graph.pairwise_planned _ _, id, _, .refl _, by simp, fun x hx => ?_⟩
  obtain ⟨p, i, hBound, hAddress, hi, _, hPlan⟩ :=
    Graph.exists_position_of_plannedAt? (Graph.mem_planned_iff.mp (List.mem_reverse.mp hx))
  rw [hAddress] at hPlan
  exact ⟨p, i, hBound, hAddress, hi, suits_of_plan? hBound hPlan⟩

theorem Remaining.carryOut_leads {x : Address × Plan} {rest : List (Address × Plan)}
    (h : Remaining m (x :: rest) d.graph) (hd : d.graph.Consistent) :
    Leads (carryOut machine x.1 x.2) d fun _ d' => d.graph.Keeps d'.graph ∧ Remaining m rest d'.graph := by
  obtain ⟨hOrder, label, bound, hFrom, hLast, hRest⟩ := h
  obtain ⟨p, i, hp, hAddress, hi, hSuits⟩ := hRest _ (.head _)
  obtain ⟨hFirst, hTail⟩ := List.pairwise_cons.mp hOrder
  rw [hAddress] at hFirst ⊢
  refine (Peephole.carryOut_leads machine hd hFrom hLast hp hi hSuits).imp fun _ d' h => ?_
  obtain ⟨hKeeps, label', hFrom'⟩ := h
  refine ⟨hKeeps, hTail, label', p, hFrom', fun dst => ?_, fun y hy => ?_⟩
  · rw [hi]
    exact fun h => hSuits.takesNoResult dst (Option.some.inj h)
  · obtain ⟨q, j, _, hPlace, hj, hSuits'⟩ := hRest y (.tail _ hy)
    have hLess := hFirst y hy
    rw [hPlace, Code.addressAt_lt_iff (Nat.le_of_lt (List.getElem?_eq_some_iff.mp hj).1)
      (Nat.le_of_lt (List.getElem?_eq_some_iff.mp hi).1)] at hLess
    exact ⟨q, j, hLess, hPlace, hj, hSuits'⟩

theorem perform_leads {r : Revision} (hr : r.draft.graph.Consistent) :
    Leads (perform machine) r fun _ r' => r.draft.graph.Keeps r'.draft.graph := by
  rw [perform, leads_bind, Pass.leads_graph, leads_bind]
  have hStart : Remaining r.draft.graph.method
      (if r.draft.graph.isComplete then plans r.draft.graph else []).reverse r.draft.graph := by
    split
    · exact remaining_plans _
    · exact ⟨.nil, id, _, .refl _, by simp, by simp⟩
  refine (Pass.leads_forM (P := Remaining r.draft.graph.method) ?_ hr hStart).imp fun _ r' h => ?_
  · rintro x rest r' hr' hRemaining
    rw [leads_bind, Pass.leads_edit]
    exact hRemaining.carryOut_leads machine hr'
  · exact h

end Peephole

/-- The register that an instruction writes or casts. -/
def Instruction.alters? {τ : Type} : Instruction τ → Option Register
  | .checkCast r _ => some r
  | i => i.writes?

theorem Instruction.alters?_of_writes? {τ : Type} {i : Instruction τ} {r : Register} (h : i.writes? = some r) :
    i.alters? = some r := by
  cases i with
  | checkCast q type => cases h
  | _ => exact h

namespace Unreflection

/-- Instructions that read only some of the registers, write and cast only some, and jump nowhere. -/
def Uses (P Q : Register → Prop) (code : Code) : Prop :=
  ∀ i ∈ code, (∀ r ∈ i.reads, P r) ∧ (∀ r, i.alters? = some r → Q r) ∧ i.targets = []

variable {P Q : Register → Prop}

@[simp] theorem uses_nil : Uses P Q [] := by simp [Uses]

@[simp] theorem uses_cons {i : Instruction Address} {code : Code} :
    Uses P Q (i :: code) ↔
      ((∀ r ∈ i.reads, P r) ∧ (∀ r, i.alters? = some r → Q r) ∧ i.targets = []) ∧ Uses P Q code := by
  simp only [Uses, List.mem_cons, forall_eq_or_imp]

theorem Uses.append {code code' : Code} (h : Uses P Q code) (h' : Uses P Q code') :
    Uses P Q (code ++ code') := fun i hi => (List.mem_append.mp hi).elim (h i) (h' i)

theorem uses_adapt {r : Register} (hP : P r) (hQ : Q r) (type : Descriptor) : Uses P Q (adapt r type) := by
  unfold adapt unbox
  split
  · split
    · exact uses_nil
    · simp [Instruction.reads, Instruction.alters?, Instruction.writes?, Instruction.targets, hP, hQ]
  · split
    · exact uses_nil
    · simp [Instruction.reads, Instruction.alters?, Instruction.targets, hP, hQ]

theorem uses_fetch {argv index r : Register} (hArgv : P argv) (hIndex : P index ∧ Q index) (hr : P r ∧ Q r)
    (position : Nat) (type : Descriptor) : Uses P Q (fetch argv index r position type) := by
  refine Uses.append ?_ (uses_adapt hr.1 hr.2 type)
  simp [Instruction.reads, Instruction.alters?, Instruction.writes?, Instruction.targets, hArgv, hIndex, hr]

theorem uses_rebox {r : Register} (hP : P r) (hQ : Q r) (type : Descriptor) : Uses P Q (rebox r type) := by
  unfold rebox
  split
  · exact uses_nil
  · simp [Instruction.reads, Instruction.alters?, Instruction.writes?, Instruction.targets, hP, hQ]

/-- A direct call reads the registers of the reflective one and its fresh ones, and writes and casts the fresh ones. -/
theorem uses_lower (s : Site) {receiver argv scratch : Register} (hReceiver : P receiver)
    (hArgv : P argv) (hScratch : ∀ k < s.registerCount, P (scratch + k) ∧ Q (scratch + k)) :
    Uses P Q (lower s receiver argv scratch) := by
  have hIndex : P scratch ∧ Q scratch := hScratch 0 (by simp [Site.registerCount])
  have hSelf : P (scratch + 1) ∧ Q (scratch + 1) := hScratch 1 (by simp [Site.registerCount])
  have hParam (k : Nat) (hk : k < s.target.params.length) : P (scratch + 2 + k) ∧ Q (scratch + 2 + k) := by
    rw [Nat.add_assoc]
    exact hScratch (2 + k) (by unfold Site.registerCount; omega)
  have hParams : ∀ r ∈ (List.range s.target.params.length).map fun i => scratch + 2 + i, P r := by
    intro r hr
    obtain ⟨k, hk, rfl⟩ := List.mem_map.mp hr
    exact (hParam k (List.mem_range.mp hk)).1
  refine Uses.append (.append (.append ?_ fun i hi => ?_) ?_) (uses_rebox hIndex.1 hIndex.2 _)
  · split
    · exact uses_nil
    · simp [Instruction.reads, Instruction.alters?, Instruction.writes?, Instruction.targets, hReceiver, hSelf]
  · obtain ⟨⟨type, k⟩, hk, hi⟩ := List.mem_flatMap.mp hi
    have hBound : k < s.target.params.length := by
      simpa using (List.mem_zipIdx hk).2.1
    exact uses_fetch hArgv hIndex (hParam k hBound) k type i hi
  · rw [uses_cons]
    refine ⟨⟨fun r hr => ?_, fun r hr => ?_, rfl⟩, uses_nil⟩
    · simp only [Instruction.reads] at hr
      split at hr
      · exact hParams r hr
      · rcases List.mem_cons.mp hr with rfl | hr
        · exact hSelf.1
        · exact hParams r hr
    · cases hr

theorem Uses.admits {m : Method} {code : Code} {i : Instruction Address}
    (h : Uses (· < m.registerCount) (· < m.registerCount) code) (hi : i ∈ code) : m.Admits i := by
  obtain ⟨hReads, hAlters, hTargets⟩ := h i hi
  refine ⟨fun r hr => ?_, by simp [hTargets]⟩
  rcases List.mem_append.mp hr with hRead | hWritten
  · exact hReads r hRead
  · exact hAlters r (Instruction.alters?_of_writes? (Option.mem_toList.mp hWritten))

theorem lower_ne_nil (s : Site) (receiver argv scratch : Register) :
    lower s receiver argv scratch ≠ [] := by
  simp [lower]

variable {d : Draft}

/-- Only the instruction after the call is replaced. -/
theorem nullResult_leads (hd : d.graph.Consistent) {p : Nat}
    (hp : p < d.graph.method.code.length) :
    Leads (nullResult (d.graph.method.code.addressAt p)) d fun _ d' =>
      d.graph.Keeps d'.graph ∧ ∃ label, d.graph.method.EditedFrom d'.graph.method label (p + 1) := by
  have hNothing : d.graph.Keeps d.graph ∧
      ∃ label, d.graph.method.EditedFrom d.graph.method label (p + 1) :=
    ⟨.refl hd, id, (Method.EditedFrom.refl _).mono hp⟩
  obtain ⟨hCode, _⟩ := Method.validate_eq_ok_iff.mp hd.valid
  rw [nullResult, leads_bind, Edit.leads_method]
  dsimp only
  split
  · exact hNothing
  · rename_i next hNext
    obtain ⟨q, hq, hBound, rfl⟩ := Code.next?_eq_some_iff.mp hNext
    rw [Code.indexOf?_addressAt hp] at hq
    obtain rfl := Option.some.inj hq
    split
    · rename_i dst hInsn
      rw [Code.at?_addressAt (List.getElem?_eq_getElem hBound)] at hInsn
      have hResult := (List.getElem?_eq_getElem hBound).trans hInsn
      have hAdmits : d.graph.method.Admits (.const dst .null) :=
        ⟨(hCode _ (List.mem_of_getElem? hResult)).registers, by simp [Instruction.targets]⟩
      have hSpliced := Method.editedFrom_splice
        (show p + 1 + 1 ≤ d.graph.method.code.length from hBound) [.const dst .null] true
      rw [leads_bind]
      refine (Edit.replace_leads hd hResult rfl hAdmits).imp fun r d' h => ?_
      rw [← h.2.1] at hSpliced
      exact ⟨h.1, _, hSpliced⟩
    · exact hNothing

theorem carryOut_leads (hd : d.graph.Consistent) (s : Site) :
    Leads (carryOut s) d fun _ d' => d.graph.Keeps d'.graph := by
  rw [carryOut, leads_bind, Edit.leads_method, leads_bind]
  refine (Edit.addLocals_leads s.registerCount hd).imp fun _ e h => ?_
  obtain ⟨hFirst, hMethod, _⟩ := h
  rw [leads_bind, Edit.leads_method]
  split
  · rename_i kind m handle receiver argv args hInsn
    obtain ⟨p, hp, hi⟩ := Code.at?_eq_some_iff.mp hInsn
    obtain ⟨hBound, hAddress⟩ := Code.indexOf?_eq_some_iff.mp hp
    have hLower (e' : Draft) (hKeeps : e.graph.Keeps e'.graph) {label : Address → Address}
        (hFrom : e.graph.method.EditedFrom e'.graph.method label (p + 1)) :
        Leads (do
          let _ ← Edit.replaceMany s.address (lower s receiver argv d.graph.method.locals)
          return () : Edit Unit) e' fun _ d' => d.graph.Keeps d'.graph := by
      obtain ⟨hPlace, hNow⟩ := hFrom.found (Nat.lt_succ_self p) hi
      obtain ⟨hCode, _⟩ := Method.validate_eq_ok_iff.mp hKeeps.consistent.valid
      have hOld := (hCode _ (List.mem_of_getElem? hNow)).registers
      have hScratch : ∀ k < s.registerCount,
          d.graph.method.locals + k < e'.graph.method.registerCount := by
        intro k hk
        rw [hFrom.registers, hMethod]
        exact Nat.lt_of_lt_of_le (Nat.add_lt_add_left hk _) (Nat.le_add_right _ _)
      have hUses := uses_lower (P := fun r => r < e'.graph.method.registerCount)
        (Q := fun r => r < e'.graph.method.registerCount) s
        (hOld receiver (by simp [Instruction.mapTargets, Instruction.reads]))
        (hOld argv (by simp [Instruction.mapTargets, Instruction.reads])) fun k hk => ⟨hScratch k hk, hScratch k hk⟩
      rw [← hAddress, hPlace, leads_bind]
      refine (Edit.replaceMany_leads hKeeps.consistent hNow rfl (lower_ne_nil _ _ _ _)
        fun i hi => (hUses.admits hi)).imp fun r d' h => ?_
      exact (hFirst.trans hKeeps).trans h.1
    split
    · rw [leads_bind, ← hAddress]
      refine (nullResult_leads hFirst.consistent hBound).imp fun _ e' h => ?_
      obtain ⟨hKeeps, label, hFrom⟩ := h
      rw [hAddress]
      exact hLower e' hKeeps hFrom
    · exact hLower e (.refl hFirst.consistent) ((Method.EditedFrom.refl _).mono hBound)
  · trivial

theorem perform_leads (cs : Classes) {r : Revision} (hr : r.draft.graph.Consistent) :
    Leads (perform cs) r fun _ r' => r.draft.graph.Keeps r'.draft.graph := by
  rw [perform, leads_bind, Pass.leads_graph]
  dsimp only
  generalize (if r.draft.graph.isComplete then sites cs r.draft.graph else []) = found
  split
  · exact .refl hr
  · rw [leads_bind]
    refine (Pass.leads_forM (P := fun _ _ => True) ?_ hr trivial).imp fun _ r' h => ?_
    · intro s rest r' hr' _
      rw [leads_bind, Pass.leads_edit]
      exact (carryOut_leads hr' s).imp fun _ d' h => ⟨h, trivial⟩
    · rw [leads_bind, Pass.leads_edit]
      exact h

end Unreflection

namespace DeadCode

/-- Removing dead instructions maintains the graph. It need not leave the method closed. -/
theorem perform_leads (weak : Bool) {r : Revision} (hr : r.draft.graph.Consistent) :
    Leads (perform weak) r fun _ r' => r.draft.graph.Maintains r'.draft.graph := by
  rw [perform, leads_bind, Pass.leads_graph]
  dsimp only
  split
  · exact (Graph.Keeps.refl hr).toMaintains
  · rw [leads_bind, Pass.leads_edit]
    refine (Edit.removeAll_leads hr _).imp fun _ d' h => ?_
    rw [leads_bind]
    refine (Pass.leads_forM (P := fun _ _ => True) ?_ h.consistent trivial).imp fun _ r' hCounted => ?_
    · intro p rest r' hr' _
      exact Pass.leads_count.mpr ⟨.refl hr', trivial⟩
    · exact h.trans hCounted.toMaintains

end DeadCode

end Dalvik
