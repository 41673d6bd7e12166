import Dalvik.Proofs.Convergence

/-!
What an optimization brings into a method. Passes splice instructions of a few kinds into its code and give it more
local registers. All data in these instructions has been found out from executions: values that registers always get, and
methods that are always called. What holds of an instruction whatever its places and registers are still holds of all
instructions after that, if it holds of those kinds with what has been found out.
-/

namespace Dalvik

/-- What a pass finds out about executions and writes into a method: a value that a register always gets, or the method
that a reflective call always calls. -/
inductive Finding where
  | value (v : Literal)
  | call (kind : InvokeKind) (target : MethodReference)
  deriving DecidableEq, Repr

namespace Constants

/-- What a plan has been made for. -/
def Plan.finding? : Plan → Option Finding
  | load _ l => some (.value l)
  | _ => none

end Constants

namespace Peephole

/-- What a plan has been made for. -/
def Plan.finding? : Plan → Option Finding
  | loadClass _ type => some (.value (.type type))
  | loadString _ text => some (.value (.string text))
  | dropCast => none

end Peephole

/-- What a pass finds out from a graph. It finds out nothing from one that is not complete. -/
def Stage.findings (m : Machine) (g : Graph) (s : Stage) : List Finding :=
  if g.isComplete then
    match s with
    | deadCode _ => []
    | constants => (Constants.plans g).filterMap fun p => p.2.1.finding?
    | peephole => (Peephole.plans g).filterMap fun p => p.2.finding?
    | unreflection => (Unreflection.sites m.classes g).map fun site => .call site.kind site.target
  else []

namespace Unreflection

/-- The instructions of the direct call at a site. -/
inductive Lowered (s : Site) : Instruction Address → Prop
  | move (dst src : Register) : Lowered s (.move dst src)
  | index (dst : Register) (v : Int32) : Lowered s (.const dst (.int v))
  | fetch (dst array index : Register) : Lowered s (.arrayGet dst array index)
  | result (dst : Register) : Lowered s (.moveResult dst)
  | cast (r : Register) {type : Descriptor} (hType : type = s.target.definer ∨ type ∈ s.target.params) :
      Lowered s (.checkCast r type)
  | call {args : List Register}
      (hArgs : args.length = s.target.params.length + if s.kind = .static then 0 else 1) :
      Lowered s (.invoke s.kind s.target args)
  | castBox (r : Register) {type : Descriptor} {box : Boxing} (hBox : type.boxing? = some box) :
      Lowered s (.checkCast r box.type)
  | unbox (r : Register) {type : Descriptor} {box : Boxing} (hBox : type.boxing? = some box) :
      Lowered s (.invoke .virtual ⟨box.type, box.getter, [], type⟩ [r])
  | rebox (r : Register) {type : Descriptor} {box : Boxing} (hBox : type.boxing? = some box) :
      Lowered s (.invoke .static ⟨box.type, "valueOf", [type], box.type⟩ [r])

variable (s : Site)

theorem lowered_adapt {r : Register} {type : Descriptor} (hType : type ∈ s.target.params) :
    ∀ i ∈ adapt r type, Lowered s i := by
  have hUnbox : ∀ i ∈ unbox r type, Lowered s i := by
    unfold unbox
    split
    · exact List.forall_mem_nil _
    · rename_i box hBox
      simp [Lowered.castBox r hBox, Lowered.unbox r hBox, Lowered.result]
  unfold adapt
  split
  · exact hUnbox
  split
  · exact List.forall_mem_nil _
  · exact List.forall_mem_singleton.mpr (.cast r (.inr hType))

theorem lowered_rebox (r : Register) (type : Descriptor) : ∀ i ∈ rebox r type, Lowered s i := by
  unfold rebox
  split
  · exact List.forall_mem_nil _
  · rename_i box hBox
    simp [Lowered.rebox r hBox, Lowered.result]

theorem lowered_lower (receiver argv scratch : Register) : ∀ i ∈ lower s receiver argv scratch, Lowered s i := by
  have hBind : ∀ i ∈ (if s.kind = .static then [] else
      [.move (scratch + 1) receiver, .checkCast (scratch + 1) s.target.definer] : Code), Lowered s i := by
    split
    · exact List.forall_mem_nil _
    · simp [Lowered.move, Lowered.cast]
  intro i hi
  simp only [lower, List.mem_append, List.mem_flatMap, List.mem_singleton] at hi
  rcases hi with ((hFirst | ⟨p, hParam, hFetch⟩) | rfl) | hLast
  · exact hBind i hFirst
  · simp only [fetch, List.mem_append, List.mem_cons, List.not_mem_nil, or_false] at hFetch
    rcases hFetch with (rfl | rfl) | hAdapt
    · exact .index _ _
    · exact .fetch _ _ _
    · exact lowered_adapt s (List.fst_mem_of_mem_zipIdx hParam) i hAdapt
  · refine .call ?_
    split <;> simp
  · exact lowered_rebox s _ _ i hLast

end Unreflection

/-- The instructions that passes bring, if something holds of all that they find out. -/
inductive Instruction.Brought (T : Finding → Prop) : Instruction Address → Prop
  | load (dst : Register) {v : Literal} (hValue : T (.value v)) : Brought T (.const dst v)
  | null (dst : Register) : Brought T (.const dst .null)
  | jump (target : Address) : Brought T (.goto target)
  | lowered {s : Unreflection.Site} {i : Instruction Address} (hCall : T (.call s.kind s.target))
      (hi : Unreflection.Lowered s i) : Brought T i

namespace Method

open Relation (ReflTransGen)

variable (T : Finding → Prop)

/-- A single change of a method by an optimization. -/
inductive Refit : Method → Method → Prop
  | splice {m : Method} {index removed : Nat} {new : Code} (retarget : Bool)
      (hEnd : index + removed ≤ m.code.length) (hNew : ∀ i ∈ new, i.Brought T) :
      Refit m (m.splice index removed new retarget).1
  | addLocals {m : Method} {count : Nat} (hRoom : m.hasRoom count = true) : Refit m (m.addLocals count)

/-- One method comes from another by changes of an optimization one after another. -/
def Refitted : Method → Method → Prop := ReflTransGen (Refit T)

variable {T} {m m' m'' : Method}

theorem Refitted.refl (m : Method) : Refitted T m m := ReflTransGen.refl

theorem Refitted.trans (h : Refitted T m m') (h' : Refitted T m' m'') : Refitted T m m'' := ReflTransGen.trans h h'

theorem Refitted.of_splice {p removed : Nat} {new : Code} {retarget : Bool} (hEnd : p + removed ≤ m.code.length)
    (hNew : ∀ i ∈ new, i.Brought T) (h : m' = (m.splice p removed new retarget).1) : Refitted T m m' :=
  h ▸ .single (.splice retarget hEnd hNew)

theorem Refitted.header (h : Refitted T m m') : m'.reference = m.reference ∧ m'.flags = m.flags := by
  induction h with
  | refl => exact ⟨rfl, rfl⟩
  | tail _ hStep ih => cases hStep <;> exact ih

/-- What holds of the instructions of a method whatever their places and registers are, and of those that are brought,
holds of the instructions that there are in the end. -/
theorem Refitted.forall_code {P : Instruction Address → Prop} (hBrought : ∀ i, i.Brought T → P i)
    (hTargets : ∀ (f : Address → Address) i, P i → P (i.mapTargets f))
    (hRegisters : ∀ (f : Register → Register) i, P i → P (i.mapRegisters f)) (h : Refitted T m m')
    (hCode : ∀ i ∈ m.code, P i) : ∀ i ∈ m'.code, P i := by
  induction h with
  | refl => exact hCode
  | tail _ hStep ih =>
      cases hStep with
      | splice retarget hEnd hNew =>
          intro i hi
          obtain ⟨j, hj, rfl⟩ := List.mem_map.mp hi
          refine hTargets _ j ?_
          rcases List.mem_append.mp hj with hFirst | hLast
          · rcases List.mem_append.mp hFirst with hBefore | hInserted
            · exact ih j (List.mem_of_mem_take hBefore)
            · exact hBrought j (hNew j hInserted)
          · exact ih j (List.mem_of_mem_drop hLast)
      | addLocals hRoom =>
          intro i hi
          obtain ⟨j, hj, rfl⟩ := List.mem_map.mp hi
          exact hRegisters _ j (ih j hj)

end Method

/-- The method of one draft comes from that of another by changes of an optimization. -/
abbrev Draft.Refitted (T : Finding → Prop) (d d' : Draft) : Prop := Method.Refitted T d.graph.method d'.graph.method

variable {T : Finding → Prop}

namespace Edit

variable {d : Draft}

theorem replaceMany_refitted (a : Address) {new : Code} (hNew : ∀ i ∈ new, i.Brought T) :
    Leads (replaceMany a new) d fun _ d' => d.Refitted T d' := by
  refine (replaceMany_method a new).imp fun _ d' hAll => ?_
  obtain ⟨p, hp, hMethod⟩ := hAll
  exact .of_splice (Code.indexOf?_eq_some_iff.mp hp).1 hNew hMethod

theorem replace_refitted (a : Address) {new : Instruction Address} (hNew : new.Brought T) :
    Leads (replace a new) d fun _ d' => d.Refitted T d' :=
  replaceMany_refitted a (List.forall_mem_singleton.mpr hNew)

theorem removeEach_refitted (combined : Relocation) (as : List Address) :
    Leads (removeEach combined as) d fun _ d' => d.Refitted T d' := by
  induction as generalizing combined d with
  | nil => exact .refl _
  | cons a as ih =>
      unfold Leads
      cases hp : d.graph.method.code.indexOf? a with
      | none =>
          rw [removeEach, index_bind, hp]
          trivial
      | some p =>
          obtain ⟨hBound, rfl⟩ := Code.indexOf?_eq_some_iff.mp hp
          rw [removeEach_cons hp]
          have hMethod : (d.graph.removeAt p).method = (d.graph.method.splice p 1 [] false).1 :=
            Graph.relocate_method _ _
          have hFirst := Method.Refitted.of_splice (T := T) hBound (List.forall_mem_nil _) hMethod
          exact (ih _).imp fun _ d' hLater => hFirst.trans hLater

theorem removeAll_refitted (as : List Address) : Leads (removeAll as) d fun _ d' => d.Refitted T d' := by
  unfold Leads
  cases hCheck : d.graph.checkRemoval (Graph.ascending as) with
  | error e =>
      rw [removeAll_of_error hCheck]
      trivial
  | ok _ =>
      rw [removeAll_of_ok hCheck]
      exact removeEach_refitted _ _

theorem refresh_refitted (m : Machine) (a : Address) : Leads (refresh m a) d fun _ d' => d.Refitted T d' :=
  (refresh_method m a).imp fun _ d' hMethod => by
    rw [Draft.Refitted, hMethod]
    exact .refl _

end Edit

namespace Pass

variable {r : Revision}

/-- Parts of a pass one after another rework a method if each of them does. -/
theorem leads_forM_refitted {β : Type} {f : β → Pass Unit} {items : List β}
    (hStep : ∀ x ∈ items, ∀ r, Leads (f x) r fun _ r' => r.draft.Refitted T r'.draft) :
    Leads (items.forM f) r fun _ r' => r.draft.Refitted T r'.draft :=
  leads_forM_keeps (S := fun r' => r.draft.Refitted T r'.draft)
    (fun x hx r' h => (hStep x hx r').imp fun _ _ hLater => h.trans hLater) (.refl _)

end Pass

namespace Constants

theorem carryOut_refitted (a : Address) {plan : Plan} (hPlan : ∀ f ∈ plan.finding?, T f) (d : Draft) :
    Leads (carryOut a plan) d fun _ d' => d.Refitted T d' := by
  have hReplace {new : Instruction Address} (hNew : new.Brought T) :
      Leads (some <$> Edit.replace a new) d fun _ d' => d.Refitted T d' := by
    rw [← bind_pure_comp, leads_bind]
    exact Edit.replace_refitted a hNew
  cases plan with
  | load dst l => exact hReplace (.load dst (hPlan _ rfl))
  | jump t => exact hReplace (.jump t)
  | drop =>
      have hRemove := Edit.removeAll_refitted (T := T) (d := d) [a]
      unfold Leads at hRemove ⊢
      rw [carryOut_drop, Edit.remove]
      rcases hRun : Edit.removeAll [a] d with ⟨e | r, d'⟩
      · cases e with
        | wouldDisconnect b =>
            rw [Edit.remove_of_wouldDisconnect hRun]
            exact .refl _
        | noInstruction b => trivial
        | execution b e => trivial
      · rw [hRun] at hRemove
        exact hRemove

/-- Where a plan's destination has moved makes no difference to what it has been made for. -/
theorem Plan.finding?_retarget (label : Address → Address) (plan : Plan) :
    (plan.retarget label).finding? = plan.finding? := by
  cases plan <;> rfl

theorem carryOutAll_refitted (label : Address → Address) {pending : List (Address × Plan × Category)}
    (hPending : ∀ x ∈ pending, ∀ f ∈ x.2.1.finding?, T f) (r : Revision) :
    Leads (carryOutAll label pending) r fun _ r' => r.draft.Refitted T r'.draft := by
  induction pending generalizing label r with
  | nil => exact .refl _
  | cons x pending ih =>
      obtain ⟨hFirst, hRest⟩ := List.forall_mem_cons.mp hPending
      obtain ⟨a, plan, kind⟩ := x
      rw [carryOutAll, leads_bind, Pass.leads_edit]
      refine (carryOut_refitted a (by rwa [Plan.finding?_retarget]) r.draft).imp fun r? d' h => ?_
      cases r? with
      | none => exact (ih label hRest _).imp fun _ _ hLater => h.trans hLater
      | some moved =>
          simp only [leads_bind, Pass.leads_count]
          exact (ih _ hRest _).imp fun _ _ hLater => h.trans hLater

theorem perform_refitted (m : Machine) (r : Revision) (hFound : ∀ f ∈ Stage.constants.findings m r.draft.graph, T f) :
    Leads perform r fun _ r' => r.draft.Refitted T r'.draft := by
  rw [perform, leads_bind, Pass.leads_graph]
  split
  · exact .refl _
  · rename_i hComplete
    rw [Stage.findings, if_pos (by simpa using hComplete)] at hFound
    rw [leads_bind]
    have hPlans : ∀ x ∈ (plans r.draft.graph).reverse, ∀ f ∈ x.2.1.finding?, T f := fun x hx f hf =>
      hFound f (List.mem_filterMap.mpr ⟨x, List.mem_reverse.mp hx, hf⟩)
    refine (carryOutAll_refitted id hPlans r).imp fun again r' h => ?_
    cases again <;> exact h

end Constants

namespace Peephole

variable (m : Machine)

theorem load_refitted (a : Address) (dst : Register) {l : Literal} (hValue : T (.value l)) (d : Draft) :
    Leads (load m a dst l) d fun _ d' => d.Refitted T d' := by
  rw [load, leads_bind]
  refine (Edit.replace_refitted a (.load dst hValue)).imp fun _ d' h => ?_
  exact (Edit.refresh_refitted m a).imp fun _ d'' hLater => h.trans hLater

theorem carryOut_refitted (a : Address) {plan : Plan} (hPlan : ∀ f ∈ plan.finding?, T f) (d : Draft) :
    Leads (carryOut m a plan) d fun _ d' => d.Refitted T d' := by
  cases plan with
  | loadClass dst type =>
      rw [carryOut, leads_bind, Edit.leads_method]
      split
      · trivial
      · rw [leads_bind]
        refine (Edit.removeAll_refitted (T := T) _).imp fun _ d' h => ?_
        exact (load_refitted m a dst (hPlan _ rfl) d').imp fun _ d'' hLater => h.trans hLater
  | loadString receiver text => exact load_refitted m a receiver (hPlan _ rfl) d
  | dropCast =>
      rw [carryOut, leads_bind]
      exact Edit.removeAll_refitted _

theorem perform_refitted (r : Revision) (hFound : ∀ f ∈ Stage.peephole.findings m r.draft.graph, T f) :
    Leads (perform m) r fun _ r' => r.draft.Refitted T r'.draft := by
  rw [perform, leads_bind, Pass.leads_graph, leads_bind]
  refine (Pass.leads_forM_refitted (T := T) fun x hx r' => ?_).imp fun _ r' h => h
  rw [leads_bind, Pass.leads_edit]
  refine carryOut_refitted m x.1 (fun f hf => hFound f ?_) r'.draft
  have hMem := List.mem_reverse.mp hx
  unfold Stage.findings
  split at hMem
  · rename_i hComplete
    rw [if_pos hComplete]
    exact List.mem_filterMap.mpr ⟨x, hMem, hf⟩
  · cases hMem

end Peephole

namespace Unreflection

variable {s : Site} {m m' : Method}

theorem Nulled.refitted {p : Nat} (h : Nulled s m p m') : Method.Refitted T m m' := by
  cases h with
  | null _ hDst =>
      exact .of_splice (List.getElem?_eq_some_iff.mp hDst).1 (List.forall_mem_singleton.mpr (.null _)) rfl
  | same _ => exact .refl m

theorem CarriedOut.refitted (h : CarriedOut s m m') (hCall : T (.call s.kind s.target)) : Method.Refitted T m m' := by
  obtain ⟨hRoom, _, hi, hNulled⟩ := h
  obtain ⟨label, hFrom⟩ := hNulled.editedFrom (List.getElem?_eq_some_iff.mp hi).1
  have hAdded : Method.Refitted T m (m.addLocals s.registerCount) := .single (.addLocals hRoom)
  have hStill := (List.getElem?_eq_some_iff.mp (hFrom.found (Nat.lt_succ_self _) hi).2).1
  have hNew (receiver argv : Register) : ∀ i ∈ lower s receiver argv m.locals, i.Brought T := fun i hMem =>
    .lowered hCall (lowered_lower s receiver argv m.locals i hMem)
  exact (hAdded.trans hNulled.refitted).trans (.of_splice hStill (hNew _ _) rfl)

theorem perform_refitted (machine : Machine) (r : Revision)
    (hFound : ∀ f ∈ Stage.unreflection.findings machine r.draft.graph, T f) :
    Leads (perform machine.classes) r fun _ r' => r.draft.Refitted T r'.draft := by
  have hSites : ∀ s ∈ (if r.draft.graph.isComplete then sites machine.classes r.draft.graph else []),
      T (.call s.kind s.target) := by
    intro s hs
    split at hs
    · rename_i hComplete
      rw [Stage.findings, if_pos hComplete] at hFound
      exact hFound _ (List.mem_map.mpr ⟨s, hs, rfl⟩)
    · cases hs
  rw [perform, leads_bind, Pass.leads_graph]
  dsimp only
  generalize (if r.draft.graph.isComplete then sites machine.classes r.draft.graph else []) = found at hSites
  split
  · exact .refl _
  · rw [leads_bind]
    refine (Pass.leads_forM_refitted (T := T) fun s hs r' => ?_).imp fun _ r' h => ?_
    · rw [leads_bind, Pass.leads_edit]
      exact (carryOut_method s r'.draft).imp fun _ _ h => h.refitted (hSites s (List.mem_reverse.mp hs))
    · rw [leads_bind, Pass.leads_edit]
      exact h

end Unreflection

namespace DeadCode

theorem perform_refitted (weak : Bool) (r : Revision) :
    Leads (perform weak) r fun _ r' => r.draft.Refitted T r'.draft := by
  rw [perform, leads_bind, Pass.leads_graph]
  dsimp only
  split
  · exact .refl _
  · rw [leads_bind, Pass.leads_edit]
    refine (Edit.removeAll_refitted (T := T) _).imp fun _ d' h => ?_
    rw [leads_bind]
    refine (Pass.leads_forM_refitted (T := T) fun _ _ _ => ?_).imp fun _ r' hCounted => h.trans hCounted
    exact Pass.leads_count.mpr (.refl _)

end DeadCode

/-- A graph is made into another one by an optimization: the method is refitted, and the graph fits it if it did. -/
structure Graph.Refitted (T : Finding → Prop) (g g' : Graph) : Prop where
  method : Method.Refitted T g.method g'.method
  maintains : g.Consistent → g.Maintains g'

namespace Graph.Refitted

variable {g g' g'' : Graph}

theorem refl (g : Graph) : g.Refitted T g := ⟨.refl _, fun hg => (Keeps.refl hg).toMaintains⟩

theorem trans (h : g.Refitted T g') (h' : g'.Refitted T g'') : g.Refitted T g'' where
  method := h.method.trans h'.method
  maintains hg := (h.maintains hg).trans (h'.maintains (h.maintains hg).consistent)

end Graph.Refitted

namespace Stage

variable {m : Machine}

theorem perform_refitted (s : Stage) (r : Revision) (hFound : ∀ f ∈ s.findings m r.draft.graph, T f) :
    Leads (s.perform m) r fun _ r' => r.draft.graph.Refitted T r'.draft.graph := by
  have hMethod : Leads (s.perform m) r fun _ r' => r.draft.Refitted T r'.draft := by
    cases s with
    | deadCode weak => exact DeadCode.perform_refitted weak r
    | constants => exact Constants.perform_refitted m r hFound
    | peephole => exact Peephole.perform_refitted m r hFound
    | unreflection => exact Unreflection.perform_refitted m r hFound
  by_cases hr : r.draft.graph.Consistent
  · have hMaintains : Leads (s.perform m) r fun _ r' => r.draft.graph.Maintains r'.draft.graph := by
      cases s with
      | deadCode weak => exact DeadCode.perform_leads weak hr
      | constants => exact (Constants.perform_leads hr).imp fun _ _ h => h.toMaintains
      | peephole => exact (Peephole.perform_leads m hr).imp fun _ _ h => h.toMaintains
      | unreflection => exact (Unreflection.perform_leads m.classes hr).imp fun _ _ h => h.toMaintains
    exact (hMethod.and hMaintains).imp fun _ _ h => ⟨h.1, fun _ => h.2⟩
  · exact hMethod.imp fun _ _ h => ⟨h, fun hFits => absurd hFits hr⟩

end Stage

namespace Optimization

variable {m : Machine} {weak : Bool} {o : Optimization}

/-- What the passes of a sweep find out, in order. -/
def findingsIn (m : Machine) (weak : Bool) (o : Optimization) : List Finding :=
  (performed m (Stage.sweep weak) ⟨⟨o.graph, false⟩, o.counts⟩).flatMap fun p => p.1.findings m p.2.draft.graph

/-- What is found out in some sweeps, in order. -/
def findings (m : Machine) (weak : Bool) (left : Nat) (o : Optimization) : List Finding :=
  (begun m weak left o).flatMap (findingsIn m weak)

/-- What holds of all that single passes find out holds of all that is found out. -/
theorem forall_findings (h : ∀ (s : Stage) (g : Graph), ∀ f ∈ s.findings m g, T f) {left : Nat} :
    ∀ f ∈ findings m weak left o, T f := by
  intro f hf
  obtain ⟨_, _, hIn⟩ := List.mem_flatMap.mp hf
  obtain ⟨p, _, hOwn⟩ := List.mem_flatMap.mp hIn
  exact h p.1 p.2.draft.graph f hOwn

theorem sweep_refitted (hFound : ∀ f ∈ findingsIn m weak o, T f) :
    Leads (sweep m weak) o fun _ o' => o.graph.Refitted T o'.graph := by
  rw [leads_sweep]
  refine leads_stages (I := fun r => o.graph.Refitted T r.draft.graph) (.refl _) fun s r hPerformed hDone => ?_
  exact (s.perform_refitted r fun f hf => hFound f (List.mem_flatMap.mpr ⟨_, hPerformed, hf⟩)).imp
    fun _ _ hLater => hDone.trans hLater

theorem reexecute_refitted (o : Optimization) : Leads (reexecute m) o fun _ o' => o.graph.Refitted T o'.graph := by
  have hMethod : Leads (reexecute m) o fun _ o' => o'.graph.method = o.graph.method := by
    unfold Leads reexecute
    cases hRun : m.execute o.graph.method o.graph.entry with
    | error e => trivial
    | ok g => exact (Machine.execute_consistent hRun).1
  refine (hMethod.and reexecute_leads).imp fun _ o' h => ⟨?_, fun _ => h.2.toMaintains⟩
  rw [h.1]
  exact .refl _

theorem sweeps_refitted {left : Nat} (hFound : ∀ f ∈ findings m weak left o, T f) :
    Leads (sweeps m weak left) o fun _ o' => o.graph.Refitted T o'.graph :=
  leads_sweeps (I := fun g => o.graph.Refitted T g) (.refl _)
    (fun _ ho' hDone => (sweep_refitted fun f hf => hFound f (List.mem_flatMap.mpr ⟨_, ho', hf⟩)).imp
      fun _ _ hLater => hDone.trans hLater)
    fun o' hDone => (reexecute_refitted o').imp fun _ _ hLater => hDone.trans hLater

theorem simplify_refitted {g : Graph} {limit : Nat} (hFound : ∀ f ∈ findings m weak limit (.start g), T f)
    (h : simplify m weak limit (.start g) = (.ok (), o)) : g.Refitted T o.graph := by
  have hSweeps := sweeps_refitted hFound
  have hSame : sweeps m weak limit (.start g) = (.ok (), o) := h
  unfold Leads at hSweeps
  rwa [hSame] at hSweeps

end Optimization

namespace Machine

variable {m : Machine} {weak : Bool} {limit left : Nat} {method method' : Method} {counts counts' : Counts}

/-- What is found out while a method is executed from its start and simplified, again and again. -/
def findings (m : Machine) (weak : Bool) (limit : Nat) : Nat → Method → List Finding
  | 0, _ => []
  | left + 1, method =>
    match m.execute method (initialState method) with
    | .error _ => []
    | .ok graph =>
      Optimization.findings m weak limit (.start graph) ++
        match Optimization.simplify m weak limit (.start graph) with
        | (.error _, _) => []
        | (.ok _, o) => if o.stale then findings m weak limit left o.method else []

/-- Optimizing refits a method, and the method that it comes to is valid if any optimization has been made. -/
theorem optimizeFor_refitted (hFound : ∀ f ∈ m.findings weak limit left method, T f)
    (h : m.optimizeFor weak limit left method counts = .ok (method', counts')) :
    Method.Refitted T method method' ∧ (method.validate = .ok () → method'.validate = .ok ()) := by
  induction left generalizing method counts with
  | zero =>
      obtain ⟨rfl, _⟩ := Prod.mk.inj (Except.ok.inj h)
      exact ⟨.refl _, id⟩
  | succ left ih =>
      rw [optimizeFor] at h
      rw [findings] at hFound
      split at h
      · cases h
      · rename_i g hRun
        rw [hRun] at hFound
        obtain ⟨rfl, _, hConsistent, _⟩ := execute_consistent hRun
        split at h
        · cases h
        · rename_i o hSimplify
          have hSame : Optimization.simplify m weak limit (.start g) = (.ok (), o) := hSimplify
          dsimp only at hFound
          rw [hSame] at hFound
          have hSweeps := Optimization.simplify_refitted (fun f hf => hFound f (List.mem_append_left _ hf)) hSame
          have hValid := (hSweeps.maintains hConsistent).consistent.valid
          dsimp only at h hFound
          split at h
          · rename_i hStale
            rw [if_pos hStale] at hFound
            obtain ⟨hLater, hKept⟩ := ih (fun f hf => hFound f (List.mem_append_right _ hf)) h
            exact ⟨hSweeps.method.trans hLater, fun _ => hKept hValid⟩
          · obtain ⟨rfl, _⟩ := Prod.mk.inj (Except.ok.inj h)
            exact ⟨hSweeps.method, fun _ => hValid⟩

end Machine

end Dalvik
