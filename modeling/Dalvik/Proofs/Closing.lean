import Dalvik.Proofs.Bounds
import Dalvik.Proofs.Refitting
import Dalvik.Proofs.Sweeping

/-!
Methods that control cannot leave at their ends, simplified. Only dead code removal touches an instruction behind which
control does not go on, and it leaves the end of a method closed where something holds that end: an instruction that stays
jumps there, a handler begins there, or what has been executed last does not fall through. What is simplified so can be
executed again.
-/

namespace Dalvik

theorem Graph.mem_reached_of_isReached {g : Graph} {a : Address} (h : g.isReached a = true) : a ∈ g.reached := by
  have hSome : g.pile a ≠ [] := by simpa [isReached] using h
  exact mem_reached.mpr ⟨_, mem_piles_of_pile hSome, hSome, rfl⟩

namespace DeadCode

variable {g : Graph} {weak : Bool} {a : Address} {i : Instruction Address}

/-- What holds the end of a method while dead code is removed from it. -/
inductive HoldsEnd (weak : Bool) (g : Graph) : Prop
  /-- Nothing is removed on the ground that it has not been executed. -/
  | incomplete (h : g.isComplete = false)
  /-- The last instruction is one with which a handler begins. -/
  | handler {k : Handler} (hk : k ∈ g.method.handlers)
      (hTarget : k.target = g.method.code.addressAt (g.method.code.length - 1))
  /-- An instruction that stays jumps to the last one. -/
  | target {a : Address} {i : Instruction Address} (hi : g.method.code.at? a = some i)
      (hStays : classify? weak g a i = none) (hTarget : g.method.code.addressAt (g.method.code.length - 1) ∈ i.targets)
  /-- The last one of the instructions that have been executed does not go on, and it does not jump ahead. -/
  | executed {a : Address} {i : Instruction Address} (hi : g.method.code.at? a = some i) (hReached : g.isReached a = true)
      (hStops : i.fallsThrough = false) (hLast : ∀ b ∈ g.reached ++ i.targets, b ≤ a)

/-- What has been executed and does not go on stays, unless it is a jump to the next instruction. -/
theorem classify?_of_stops (hReached : g.isReached a = true) (hStops : i.fallsThrough = false)
    (hNext : ∀ t ∈ i.targets, g.method.code.next? a ≠ some t) : classify? weak g a i = none := by
  have hUnused : unused? g a i = none := by
    cases i <;> first | rfl | cases hStops
  cases i with
  | goto t => simp [classify?, hReached, hNext t (.head _), hUnused]
  | returnVoid | returnValue | throw => simp [classify?, hReached, hUnused]
  | _ => cases hStops

theorem not_mem_taken_of_classify? (hi : g.method.code.at? a = some i) (hStays : classify? weak g a i = none) :
    a ∉ taken weak g := by
  intro hTaken
  obtain ⟨j, kind, hj, hKind⟩ := exists_of_mem_taken hTaken
  obtain rfl := Option.some.inj (hi.symm.trans hj)
  rw [hStays] at hKind
  cases hKind

/-- What the last instruction of a method is needed for is gone if it goes. -/
theorem not_mem_taken_of_lands (hLands : g.method.code.Lands (taken weak g)
    (g.method.code.addressAt (g.method.code.length - 1))) :
    g.method.code.addressAt (g.method.code.length - 1) ∉ taken weak g := by
  obtain ⟨n, last, hOrder, hLast, hKept, hAddress⟩ := hLands
  have hSame := Code.addressAt_injective (Nat.le_of_lt (Nat.lt_of_le_of_lt hOrder hLast)) (Nat.sub_le _ _) hAddress
  rwa [show last = g.method.code.length - 1 by omega] at hKept

/-- If the last instruction goes, then all that goes is what has not been executed or is idle, and the last one of the
others is the last one of those that have been executed. -/
theorem HoldsEnd.closedBut (h : HoldsEnd weak g) (hClosed : g.method.Closed)
    (hChecked : g.checkRemoval (Graph.ascending (taken weak g)) = .ok ()) : g.method.ClosedBut (taken weak g) := by
  obtain ⟨_, hTargets, hHandlers⟩ := Graph.lands_of_checkRemoval hChecked
  obtain ⟨j, hLast, hStops⟩ := hClosed
  rw [List.getLast?_eq_getElem?] at hLast
  by_cases hGone : g.method.code.addressAt (g.method.code.length - 1) ∈ taken weak g
  case neg => exact ⟨_, j, hLast, hStops, hGone, fun p hp hEnd => by omega⟩
  have hHere := Code.at?_addressAt hLast
  have hEnd : g.method.code.next? (g.method.code.addressAt (g.method.code.length - 1)) = none := by
    have hLength := (List.getElem?_eq_some_iff.mp hLast).1
    exact Code.next?_addressAt_last (by omega)
  obtain ⟨j', kind, hj', hKind⟩ := exists_of_mem_taken hGone
  obtain rfl := Option.some.inj (hHere.symm.trans hj')
  have hUnreached : g.isReached (g.method.code.addressAt (g.method.code.length - 1)) = false := by
    by_contra hReached
    rw [classify?_of_stops (eq_true_of_ne_false hReached) hStops (by simp [hEnd])] at hKind
    cases hKind
  have hComplete : g.isComplete = true := by
    by_contra hNot
    simp [classify?, hUnreached, hNot] at hKind
  cases h with
  | incomplete hNot =>
      rw [hNot] at hComplete
      cases hComplete
  | handler hk hTarget => exact absurd hGone (not_mem_taken_of_lands (hTarget ▸ hHandlers _ hk))
  | @target a i hi hStays hTarget =>
      have hKept : (a, i) ∈ g.method.code.kept (taken weak g) :=
        Code.mem_kept.mpr ⟨hi, not_mem_taken_of_classify? hi hStays⟩
      exact absurd hGone (not_mem_taken_of_lands (hTargets _ hKept _ hTarget))
  | @executed a i hi hReached hOwn hAll =>
      obtain ⟨q, hq, hPosition⟩ := Code.at?_eq_some_iff.mp hi
      obtain ⟨hBound, rfl⟩ := Code.indexOf?_eq_some_iff.mp hq
      have hStays : classify? weak g (g.method.code.addressAt q) i = none := by
        refine classify?_of_stops hReached hOwn fun t ht hNext => ?_
        obtain ⟨n, hn, hLess, rfl⟩ := Code.next?_eq_some_iff.mp hNext
        obtain rfl := Option.some.inj (hn.symm.trans hq)
        have hAhead := Code.addressAt_lt (Nat.lt_succ_self n) (Nat.le_of_lt hLess)
        exact Nat.not_lt_of_le (hAll _ (List.mem_append_right _ ht)) hAhead
      refine ⟨q, i, hPosition, hOwn, not_mem_taken_of_classify? hi hStays, fun p hp hLess => ?_⟩
      rcases Nat.lt_or_eq_of_le (Nat.le_sub_one_of_lt hLess) with hBefore | rfl
      · have hThere := Code.at?_addressAt (List.getElem?_eq_getElem hLess)
        have hDead : g.isReached (g.method.code.addressAt p) = false := by
          by_contra hAlive
          have hReached := Graph.mem_reached_of_isReached (eq_true_of_ne_false hAlive)
          exact Nat.not_lt_of_le (hAll _ (List.mem_append_left _ hReached)) (Code.addressAt_lt hp (Nat.le_of_lt hLess))
        have hGoes : classify? weak g (g.method.code.addressAt p) g.method.code[p] = some .deadUnreachable := by
          simp [classify?, hDead, hComplete]
        exact mem_taken_of_lt hThere hGoes hGone (Code.addressAt_lt hBefore (Nat.sub_le _ _))
      · exact hGone

/-- Dead code removal leaves a method closed of which something holds the end. -/
theorem perform_keeps {r : Revision} (hr : r.draft.graph.Consistent) (hHolds : HoldsEnd weak r.draft.graph) :
    Leads (perform weak) r fun _ r' => r.draft.graph.Keeps r'.draft.graph := by
  obtain ⟨_, _, hChecked⟩ :=
    removable_cases r.draft.graph (candidates weak r.draft.graph) (candidates weak r.draft.graph).length
  have hRemoval (hSome : taken weak r.draft.graph ≠ []) : Leads (Edit.removeAll (taken weak r.draft.graph)) r.draft
      fun _ d' => r.draft.graph.Keeps d'.graph := by
    have hAccepted : r.draft.graph.checkRemoval (Graph.ascending (taken weak r.draft.graph)) = .ok () := by
      rw [ascending_taken]
      exact hChecked.resolve_left fun hNone => hSome (by rw [taken, hNone]; rfl)
    by_cases hClosed : r.draft.graph.method.Closed
    · exact ((Edit.removeAll_leads hr _).and (Edit.removeAll_closed hr (hHolds.closedBut hClosed hAccepted))).imp
        fun _ _ h => ⟨h.1, fun _ => h.2⟩
    · exact (Edit.removeAll_leads hr _).imp fun _ _ h => ⟨h, fun hNow => absurd hNow hClosed⟩
  unfold taken at hRemoval
  rw [perform, leads_bind, Pass.leads_graph]
  dsimp only
  split
  · exact .refl hr
  · rename_i hFound
    rw [leads_bind, Pass.leads_edit]
    refine (hRemoval fun hNone => hFound (by simpa using hNone)).imp fun _ d' h => ?_
    rw [leads_bind]
    exact (yields_counts _).leads.imp fun _ r' hSame => show r.draft.graph.Keeps r'.draft.graph by rwa [hSame]

end DeadCode

namespace Stage

variable {m : Machine}

/-- A pass keeps the graph and the end of the method, if something holds that end while dead code is removed. -/
theorem perform_keeps (s : Stage) {r : Revision} (hr : r.draft.graph.Consistent)
    (hHolds : ∀ weak, s = .deadCode weak → DeadCode.HoldsEnd weak r.draft.graph) :
    Leads (s.perform m) r fun _ r' => r.draft.graph.Keeps r'.draft.graph := by
  cases s with
  | deadCode weak => exact DeadCode.perform_keeps hr (hHolds weak rfl)
  | constants => exact Constants.perform_leads hr
  | peephole => exact Peephole.perform_leads m hr
  | unreflection => exact Unreflection.perform_leads m.classes hr

end Stage

namespace Optimization

variable {m : Machine} {weak : Bool} {o : Optimization}

/-- A sweep keeps the end of the method, if something holds it when the sweep begins. -/
theorem sweep_keeps (ho : o.graph.Consistent) (hHolds : DeadCode.HoldsEnd weak o.graph) :
    Leads (sweep m weak) o fun _ o' => o.graph.Keeps o'.graph := by
  rw [leads_sweep]
  refine leads_stages (I := fun r => o.graph.Keeps r.draft.graph) (.refl ho) fun s r hPerformed hKept => ?_
  have hStep := s.perform_keeps (m := m) hKept.consistent fun removing hs => by
    subst hs
    obtain ⟨rfl, rfl⟩ := eq_of_mem_performed hPerformed
    exact hHolds
  exact hStep.imp fun _ _ hLater => hKept.trans hLater

theorem sweeps_keeps {left : Nat} (ho : o.graph.Consistent)
    (hHolds : ∀ g ∈ swept m weak left o, DeadCode.HoldsEnd weak g) :
    Leads (sweeps m weak left) o fun _ o' => o.graph.Keeps o'.graph :=
  leads_sweeps (I := fun g => o.graph.Keeps g) (.refl ho)
    (fun _ ho' hKept =>
      (sweep_keeps hKept.consistent (hHolds _ (graph_mem_swept ho'))).imp fun _ _ hLater => hKept.trans hLater)
    fun _ hKept => reexecute_leads.imp fun _ _ hLater => hKept.trans hLater

end Optimization

/-- What reflection finds by the name of a framework method is static exactly if that method is. -/
def Classes.Honors (cs : Classes) : Prop :=
  ∀ f : FrameworkMethod, ∀ found,
    cs.lookup? f.reference.definer f.reference.name f.reference.params = some found → found.2.static = f.isStatic

/-- Classes honor framework methods if none of them hides a framework class. -/
theorem Classes.honors_of_find? {cs : Classes} (h : ∀ f : FrameworkMethod, cs.find? f.reference.definer = none) :
    cs.Honors := by
  intro f found hFound
  rw [lookup?, h f] at hFound
  cases f <;> (cases hFound; rfl)

/-- A call that has been found out has a receiver exactly if it is not one of a static framework method. -/
def Finding.Passes : Finding → Prop
  | value _ => True
  | call kind target => ∀ f, FrameworkMethod.find? target = some f → (kind = .static ↔ f.isStatic = true)

theorem FrameworkMethod.reference_of_find? {r : MethodReference} {f : FrameworkMethod} (h : find? r = some f) :
    f.reference = r := by
  simpa using List.find?_some h

theorem Unreflection.kindOf_eq_static_iff (flags : AccessFlags) : kindOf flags = .static ↔ flags.static = true := by
  unfold kindOf
  repeat' split
  all_goals simp_all

/-- Methods are called as they are declared. -/
theorem Stage.passes_of_mem_findings {m : Machine} (hHonors : m.classes.Honors) {s : Stage} {g : Graph} {f : Finding}
    (hf : f ∈ s.findings m g) : f.Passes := by
  cases f with
  | value v => trivial
  | call kind target =>
      unfold findings at hf
      split at hf
      case isFalse => cases hf
      cases s with
      | deadCode weak => cases hf
      | constants =>
          obtain ⟨⟨_, plan, _⟩, _, hPlan⟩ := List.mem_filterMap.mp hf
          cases plan <;> cases hPlan
      | peephole =>
          obtain ⟨⟨_, plan⟩, _, hPlan⟩ := List.mem_filterMap.mp hf
          cases plan <;> cases hPlan
      | unreflection =>
          obtain ⟨site, hSite, hSame⟩ := List.mem_map.mp hf
          obtain ⟨rfl, rfl⟩ := Finding.call.inj hSame
          intro f hf
          have hReference := FrameworkMethod.reference_of_find? hf
          obtain ⟨p, _, hPlan⟩ := List.mem_filterMap.mp hSite
          split at hPlan
          case isFalse => cases hPlan
          obtain ⟨_, _, found, hFound, hKind⟩ := Unreflection.site?_eq_some hPlan
          rw [← hReference] at hFound
          rw [hKind, Unreflection.kindOf_eq_static_iff, hHonors f found hFound]

namespace Instruction

theorem passesAll_mapTargets (f : Address → Address) (i : Instruction Address) :
    (i.mapTargets f).passesAll = i.passesAll := by
  cases i <;> rfl

theorem passesAll_mapRegisters (f : Register → Register) (i : Instruction Address) :
    (i.mapRegisters f).passesAll = i.passesAll := by
  cases i with
  | invoke kind m args => simp [mapRegisters, passesAll]
  | binary op type dst lhs rhs => cases rhs <;> rfl
  | _ => rfl

theorem passesAll_invoke_iff {τ : Type} {kind : InvokeKind} {m : MethodReference} {args : List Register} :
    (invoke kind m args : Instruction τ).passesAll = true ↔
      ∀ f, FrameworkMethod.find? m = some f → f.arity ≤ args.length := by
  simp [passesAll, Option.all_eq_true]

/-- The instructions that passes bring pass all arguments. -/
theorem passesAll_of_brought {i : Instruction Address} (h : i.Brought Finding.Passes) : i.passesAll = true := by
  cases h with
  | load | null | jump => rfl
  | lowered hCall hi =>
      cases hi with
      | call hArgs =>
          refine passesAll_invoke_iff.mpr fun f hf => ?_
          rw [hArgs, FrameworkMethod.arity, FrameworkMethod.reference_of_find? hf]
          simp [hCall f hf]
      | unbox r hBox =>
          refine passesAll_invoke_iff.mpr fun f hf => ?_
          rw [FrameworkMethod.arity, FrameworkMethod.reference_of_find? hf]
          split <;> simp
      | rebox r hBox =>
          refine passesAll_invoke_iff.mpr fun f hf => ?_
          have hReference := FrameworkMethod.reference_of_find? hf
          have hStatic : f.isStatic = true := by
            have hName := congrArg MethodReference.name hReference
            cases f <;> first | rfl | simp [FrameworkMethod.reference] at hName
          rw [FrameworkMethod.arity, hReference, if_pos hStatic]
          exact Nat.le_refl _
      | _ => rfl

end Instruction

/-- The registers that are inserted hold nothing. -/
theorem State.All.insertLocals {s : State} {P : Value → Prop} (h : s.All P) (count : Nat) :
    (s.insertLocals count).All P := by
  refine ⟨fun v hv => h.registers v ?_, h.result, h.exception⟩
  simp only [State.registers, State.insertLocals, List.mem_append, List.mem_replicate] at hv ⊢
  rcases hv with (hLocal | ⟨_, hNone⟩) | hParam
  · exact .inl hLocal
  · cases hNone
  · exact .inr hParam

namespace Optimization

variable {m : Machine} {weak : Bool} {o : Optimization}

/-- Simplifying leaves a method closed, if something holds its end whenever a sweep begins: executing what it leaves, from
the entry that it leaves, never asks for an instruction that is not there. It makes a graph if calls of framework methods
pass all arguments, and the entry has the registers of the method and arrays that have as many elements as they say. -/
theorem closed_of_simplify {method : Method} {entry : State} {g : Graph} {limit : Nat}
    (hRun : m.execute method entry = .ok g) (hClosed : method.Closed)
    (hSimplify : simplify m weak limit (.start g) = (.ok (), o))
    (hHolds : ∀ g' ∈ swept m weak limit (.start g), DeadCode.HoldsEnd weak g') :
    o.method.Closed ∧
      (∀ e a, m.execute o.method o.graph.entry = .error e → e.cause ≠ .address a) ∧
        (m.PassesAll → m.classes.Honors → (∀ i ∈ method.code, i.passesAll = true) → entry.Fits method →
          (entry.All fun v => v.isMeasured = true) → ∃ g', m.execute o.method o.graph.entry = .ok g') := by
  obtain ⟨rfl, rfl, hConsistent, hShaped⟩ := Machine.execute_consistent hRun
  have hSweeps : Leads (simplify m weak limit) (.start g) fun _ o' => g.Keeps o'.graph :=
    sweeps_keeps (o := .start g) hConsistent hHolds
  unfold Leads at hSweeps
  rw [hSimplify] at hSweeps
  have hEnd : o.method.Closed := hSweeps.closed hClosed
  have hValid : o.method.validate = .ok () := hSweeps.consistent.valid
  refine ⟨hEnd, fun e a hFails => (execute_of_closed hValid hEnd hFails).1 a,
    fun hLocals hHonors hPasses hFits hMeasured => ?_⟩
  have hRefitted : g.Refitted Finding.Passes o.graph :=
    simplify_refitted (forall_findings fun _ _ _ => Stage.passes_of_mem_findings hHonors) hSimplify
  have hPassesAll : ∀ i ∈ o.method.code, i.passesAll = true :=
    hRefitted.method.forall_code (fun _ => Instruction.passesAll_of_brought)
      (fun f i hi => (Instruction.passesAll_mapTargets f i).trans hi)
      (fun f i hi => (Instruction.passesAll_mapRegisters f i).trans hi) hPasses
  obtain ⟨count, hEntry⟩ := hSweeps.entry
  obtain ⟨last, hLast, hStops⟩ := hEnd
  refine (Machine.execute_ok_of_valid hLocals hValid (fun i hi => ?_) hPassesAll (hSweeps.shaped (hShaped hFits)).entry ?_).1
  · obtain rfl := Option.some.inj (hi.symm.trans hLast)
    exact hStops
  · rw [hEntry]
    exact hMeasured.insertLocals count

/-- What simplifying a method in one sweep ends with. -/
def simplified (method : Method) : Except OptimizationError Unit × Optimization :=
  simplify smallMachine false 1 (.start (executed method))

theorem closed_of_simplify_decidedMethod :
    (simplified decidedMethod).2.method.Closed ∧
      (∀ e a, smallMachine.execute (simplified decidedMethod).2.method (simplified decidedMethod).2.graph.entry =
        .error e → e.cause ≠ .address a) ∧
        ∃ g', smallMachine.execute (simplified decidedMethod).2.method (simplified decidedMethod).2.graph.entry = .ok g' := by
  have hRun : smallMachine.execute decidedMethod (Machine.initialState decidedMethod) =
      .ok (executed decidedMethod) := rfl
  have hEnds : (simplified decidedMethod).1 = .ok () := by decide +kernel
  have hSimplify : simplified decidedMethod = (.ok (), (simplified decidedMethod).2) := by
    rw [← hEnds]
  have hSwept : swept smallMachine false 1 (.start (executed decidedMethod)) = [executed decidedMethod] := by
    decide +kernel
  have hHolds : DeadCode.HoldsEnd false (executed decidedMethod) :=
    .executed (a := 6) (i := .returnVoid) (by decide +kernel) (by decide +kernel) rfl (by decide +kernel)
  have hLocals : smallMachine.PassesAll := fun r callee hCallee => by
    obtain ⟨c, hc, _⟩ := Classes.mem_of_method? hCallee
    cases hc
  have hHonors : smallMachine.classes.Honors := Classes.honors_of_find? fun _ => rfl
  have hRegisters : (Machine.initialState decidedMethod).registers = [none] := rfl
  have hMeasured : (Machine.initialState decidedMethod).All fun v => v.isMeasured = true :=
    ⟨by simp [hRegisters], nofun, nofun⟩
  obtain ⟨hClosed, hAddress, hOk⟩ := closed_of_simplify hRun ⟨.returnVoid, rfl, rfl⟩ hSimplify fun g' hg' =>
    List.mem_singleton.mp (hSwept ▸ hg') ▸ hHolds
  exact ⟨hClosed, hAddress, hOk hLocals hHonors (by decide) ⟨rfl, rfl⟩ hMeasured⟩

/-- A method that ends, but for a dead instruction, with a jump that is certain to be taken. -/
def returningMethod : Method where
  reference := ⟨⟨"La;"⟩, "run", [], .void⟩
  flags := { static := true }
  locals := 1
  code := [.goto 4, .returnVoid, .const 0 (.int 0), .branch .eq 0 none 3, .returnVoid]
  tries := []

/-- Dead code removal takes the last instruction of `returningMethod`, and nothing makes the jump before
it one that is always taken. -/
theorem not_closed_of_simplify :
    ¬ ∀ (m : Machine) (method : Method) (entry : State) (g : Graph) (weak : Bool) (limit : Nat)
        (o : Optimization),
      method.WellFormed → method.Closed → m.execute method entry = .ok g →
        simplify m weak limit (.start g) = (.ok (), o) →
          o.method.Closed ∧ ∃ g', m.execute o.method o.graph.entry = .ok g' := by
  intro h
  have hEnds : (simplified returningMethod).1 = .ok () := by decide +kernel
  have hSimplify : simplified returningMethod = (.ok (), (simplified returningMethod).2) := by
    rw [← hEnds]
  have hMade := h smallMachine returningMethod (Machine.initialState returningMethod)
    (executed returningMethod) false 1 (simplified returningMethod).2 (by decide +kernel)
    ⟨.returnVoid, rfl, rfl⟩ rfl hSimplify
  have hLast : (simplified returningMethod).2.method.code.getLast? =
      some (.branch .eq 0 none 3) := by decide +kernel
  obtain ⟨⟨i, hi, hStops⟩, _⟩ := hMade
  rw [hLast] at hi
  obtain rfl := Option.some.inj hi
  cases hStops

end Optimization

end Dalvik
