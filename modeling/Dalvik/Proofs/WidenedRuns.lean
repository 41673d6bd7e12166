import Dalvik.Proofs.Widening

/-!
Executions of a method that has got more local registers. They make the graph that the old executions make,
with the new registers inserted into every state of it.
-/

namespace Dalvik

namespace Graph

variable {g : Graph} {m : Method}

theorem withMethod_cut (ceiling : Ceiling) (parent : Option NodeId) :
    (g.cut ceiling parent).withMethod m = (g.withMethod m).cut ceiling parent := by
  cases parent with
  | none => cases g with
    | mk method entry nodes piles root status heap => cases status <;> rfl
  | some p => cases g with
    | mk method entry nodes piles root status heap => cases status <;> rfl

theorem withMethod_add (a : Address) (pre post : State) (parent : Option NodeId) :
    (g.add a pre post parent).withMethod m = (g.withMethod m).add a pre post parent := by
  cases parent <;> rfl

end Graph

namespace Exploration

open Run (Agree)

/-- An exploration of a method with more local registers. -/
def widen (k : Nat) (m : Method) (e : Exploration) : Exploration :=
  { e.mapStates (State.insertLocals · k) with graph := (e.graph.withMethod m).insertLocals k }

variable {k : Nat} {c c' : Semantics.Context} {e : Exploration} {m : Method}

theorem widen_cut (e : Exploration) (ceiling : Ceiling) (parent : Option NodeId) :
    (e.cut ceiling parent).widen k m = (e.widen k m).cut ceiling parent := by
  have hGraph : ((e.graph.cut ceiling parent).withMethod m).insertLocals k =
      ((e.graph.withMethod m).insertLocals k).cut ceiling parent := by
    rw [Graph.withMethod_cut]
    exact Graph.cut_mapStates (F := (State.insertLocals · k)) ceiling parent
  exact congrArg (fun g => ({ e.widen k m with graph := g } : Exploration)) hGraph

theorem widen_record (e : Exploration) (p : Pending) (step : Step) :
    (e.record p step).widen k m = (e.widen k m).record (p.mapState (State.insertLocals · k))
      (step.mapStates (State.insertLocals · k)) := by
  have hGraph : ((e.graph.add p.address p.pre step.post p.parent).withMethod m).insertLocals k =
      ((e.graph.withMethod m).insertLocals k).add p.address (p.pre.insertLocals k) (step.post.insertLocals k)
        p.parent := by
    rw [Graph.withMethod_add]
    exact Graph.add_mapStates (F := (State.insertLocals · k)) _ _ _ _
  have hRest := record_mapStates (F := (State.insertLocals · k)) e p step
  unfold widen
  rw [hRest]
  exact congrArg (fun g => ({ (e.widen k m).record (p.mapState (State.insertLocals · k))
    (step.mapStates (State.insertLocals · k)) with graph := g } : Exploration)) hGraph

section

variable (h : Semantics.Context.Widens k c c') (hLapse : c.CallsLapse) (hValid : c.method.validate = .ok ())

include h hLapse hValid

/-- Two explorations are related step by step, as long as what is to be explored has the registers of the
method. -/
theorem visit_widens (maxVisits : Nat) (hFound : ∀ p ∈ e.found, p.pre.Fits c.method) {p : Pending}
    (hp : p.pre.Fits c.method) :
    Agree (visit maxVisits c e p) (visit maxVisits c' (e.widen k m) (p.mapState (State.insertLocals · k)))
      fun x y => y = x.widen k m ∧ ∀ q ∈ x.found, q.pre.Fits c.method := by
  have hStep := (Semantics.Context.apply_widens h hValid hp p.address).noting
    (P := fun step => ∀ q ∈ step.successors, q.2.Fits c.method) fun s =>
      (Semantics.Context.apply_ends hLapse hValid p.address p.pre s).imp
        (fun step _ hStep q hq => .of_sameShape hp (hStep.2 q hq).2) fun _ _ _ => trivial
  refine .bind_same fun n => ?_
  split
  · exact Run.agree_pure ⟨(widen_cut e .nodes p.parent).symm, hFound⟩
  · change Agree _ (if maxVisits ≤ e.visitsOf p.address then _ else _) _
    split
    · exact Run.agree_pure ⟨(widen_cut e .visits p.parent).symm, hFound⟩
    · refine hStep.bind fun step step' ⟨hFits, hSame⟩ => .bind_same fun _ => Run.agree_pure ⟨?_, ?_⟩
      · rw [hSame, widen_record]
      · intro q hq
        rcases List.mem_append.mp hq with hNew | hOld
        · obtain ⟨r, hr, rfl⟩ := List.mem_map.mp (List.mem_reverse.mp hNew)
          exact hFits r hr
        · exact hFound q hOld

theorem foldlM_visit_widens (maxVisits : Nat) {ps : List Pending}
    (hFound : ∀ p ∈ e.found, p.pre.Fits c.method)
    (hps : ∀ p ∈ ps, p.pre.Fits c.method) :
    Agree (ps.foldlM (visit maxVisits c) e)
      ((ps.map (Pending.mapState (State.insertLocals · k))).foldlM (visit maxVisits c') (e.widen k m))
      fun x y => y = x.widen k m ∧ ∀ q ∈ x.found, q.pre.Fits c.method := by
  induction ps generalizing e with
  | nil => exact Run.agree_pure ⟨rfl, hFound⟩
  | cons p ps ih =>
      rw [List.map_cons, List.foldlM_cons, List.foldlM_cons]
      refine (visit_widens h hLapse hValid maxVisits hFound (hps p (.head _))).bind fun x y ⟨hSame, hNow⟩ => ?_
      rw [hSame]
      exact ih hNow fun q hq => hps q (.tail _ hq)

theorem rounds_widen (maxVisits n : Nat) (hFound : ∀ p ∈ e.found, p.pre.Fits c.method) :
    Agree (rounds maxVisits c n e) (rounds maxVisits c' n (e.widen k m)) fun x y => y = x.widen k m := by
  induction n generalizing e with
  | zero => exact Run.agree_pure rfl
  | succ n ih =>
      have hEmpty : (e.widen k m).found.isEmpty = e.found.isEmpty := List.isEmpty_map
      have hQueue : (e.widen k m).found.reverse =
          e.found.reverse.map (Pending.mapState (State.insertLocals · k)) := (List.map_reverse).symm
      unfold rounds
      rw [hEmpty, hQueue]
      split
      · exact Run.agree_pure rfl
      · refine (foldlM_visit_widens (e := { e with found := [] }) h hLapse hValid maxVisits (by simp)
          fun p hp => hFound p (List.mem_reverse.mp hp)).bind fun x y hBoth => ?_
        obtain ⟨hSame, hNow⟩ := hBoth
        rw [hSame]
        exact ih hNow

end

end Exploration

namespace Machine

open Run (Agree)

variable {method : Method} {entry : State}

theorem explore_widens (m : Machine) (call : Method → List Value → Run (Option Effect))
    (hLapse : Semantics.Context.CallsLapse ⟨m.classes, method, call⟩) (hValid : method.validate = .ok ())
    (hFits : entry.Fits method) (k : Nat) :
    Agree (m.explore call method entry) (m.explore call (method.addLocals k) (entry.insertLocals k))
      fun g g' => g' = (g.withMethod (method.addLocals k)).insertLocals k := by
  have hEmpty : (method.addLocals k).code.isEmpty = method.code.isEmpty := List.isEmpty_map
  have hStart : ((Graph.start method entry).withMethod (method.addLocals k)).insertLocals k =
      .start (method.addLocals k) (entry.insertLocals k) :=
    Graph.start_mapStates (F := (State.insertLocals · k)) (method.addLocals k) entry
  have hWidens : Semantics.Context.Widens k ⟨m.classes, method, call⟩ ⟨m.classes, method.addLocals k, call⟩ :=
    ⟨rfl, rfl, rfl⟩
  unfold explore
  rw [hEmpty]
  split
  · exact Run.agree_pure hStart.symm
  · refine .bind_same fun budget => ?_
    have hRounds := Exploration.rounds_widen (e := ⟨.start method entry, [], [⟨none, 0, entry⟩]⟩)
      (m := method.addLocals k) hWidens hLapse hValid m.limits.maxVisits (budget + 1) (by simpa using hFits)
    rw [← hStart]
    refine hRounds.bind fun x y hSame => Run.agree_pure ?_
    rw [hSame]
    rfl

/-- A valid method with more local registers, from a state with as many more, makes the graph that the method has made,
with the new registers inserted into every state. That there are numbers for all of them does not matter here. -/
theorem execute_widened (m : Machine) (hValid : method.validate = .ok ()) (hFits : entry.Fits method)
    (k : Nat) :
    m.execute (method.addLocals k) (entry.insertLocals k) =
      (m.execute method entry).map fun g => (g.withMethod (method.addLocals k)).insertLocals k := by
  have hRuns := explore_widens m (m.context method 0).call (callsLapse_context m method 0) hValid hFits k
    ⟨.after entry, m.limits.maxNodes⟩
  have hCall : (m.context (method.addLocals k) 0).call = (m.context method 0).call := rfl
  unfold execute
  rw [Method.validate_addLocals hValid, hValid, context_zero, context_zero, Heap.after_insertLocals, hCall]
  dsimp only
  generalize m.explore (m.context method 0).call method entry ⟨.after entry, m.limits.maxNodes⟩ = x,
    m.explore (m.context method 0).call (method.addLocals k) (entry.insertLocals k)
      ⟨.after entry, m.limits.maxNodes⟩ = y at hRuns
  obtain ⟨x, s⟩ := x
  obtain ⟨y, t⟩ := y
  obtain ⟨hSupply, hResult⟩ := hRuns
  dsimp only at hSupply hResult
  subst hSupply
  cases hResult with
  | ok hSame =>
      subst hSame
      rfl
  | error e => rfl

/-- Adding local registers and executing can be done in either order. As long as all registers can be numbered, they can be
added to a valid method, to a state that fits it and to the graph that it makes of that, and the new method makes of the new
state the new graph: nodes, links, marks and instances are the same, and the new registers are inserted into every state. -/
theorem execute_addLocals (m : Machine) (hValid : method.validate = .ok ()) (hFits : entry.Fits method)
    (k : Nat) (hCount : method.registerCount + k < Register.limit) :
    method.tryAddLocals k = .ok (method.addLocals k) ∧ entry.tryInsertLocals k = .ok (entry.insertLocals k) ∧
      (∀ g, m.execute method entry = .ok g → g.hasRoom k = true) ∧
      m.execute (method.addLocals k) (entry.insertLocals k) =
        (m.execute method entry).map fun g => (g.withMethod (method.addLocals k)).insertLocals k := by
  have hRoom := Method.hasRoom_of_lt hValid hCount
  refine ⟨if_pos hRoom, if_pos (State.hasRoom_of_fits hFits hRoom), fun g hRun => ?_, execute_widened m hValid hFits k⟩
  obtain ⟨hMethod, _, _, hShaped⟩ := execute_consistent hRun
  exact Graph.hasRoom_of_shaped (hShaped hFits) (hMethod ▸ hRoom)

/-- A method that doubles its argument until the sum is zero, as far as it knows. -/
def doublingMethod : Method where
  reference := ⟨⟨"La;"⟩, "run", [.int], .int⟩
  flags := { static := true }
  locals := 1
  code := [.binary .add .int 0 1 (.register 1), .branch .eq 0 none 8, .move 1 0, .goto 0, .returnValue 1]
  tries := []

theorem execute_addLocals_doublingMethod :
    doublingMethod.validate = .ok () ∧ (initialState doublingMethod).Fits doublingMethod ∧
      doublingMethod.registerCount + 2 < Register.limit ∧
      doublingMethod.tryAddLocals 2 = .ok (doublingMethod.addLocals 2) ∧
      (⟨.empty, ⟨9, 3, 1⟩⟩ : Machine).execute (doublingMethod.addLocals 2)
          ((initialState doublingMethod).insertLocals 2) =
        ((⟨.empty, ⟨9, 3, 1⟩⟩ : Machine).execute doublingMethod (initialState doublingMethod)).map fun g =>
          (g.withMethod (doublingMethod.addLocals 2)).insertLocals 2 := by
  have hValid : doublingMethod.validate = .ok () := by decide +kernel
  have hFits : (initialState doublingMethod).Fits doublingMethod := ⟨rfl, rfl⟩
  have hCount : doublingMethod.registerCount + 2 < Register.limit := by decide
  obtain ⟨hAdded, _, _, hSame⟩ := execute_addLocals ⟨.empty, ⟨9, 3, 1⟩⟩ hValid hFits 2 hCount
  exact ⟨hValid, hFits, hCount, hAdded, hSame⟩

/-- Registers that cannot be numbered are not added: the program ends, and there is no new method to be executed. -/
theorem not_widened_of_full :
    ¬ ∀ (m : Machine) (method : Method) (entry : State) (k : Nat), method.validate = .ok () → entry.Fits method →
      ∃ method' entry', method.tryAddLocals k = .ok method' ∧ entry.tryInsertLocals k = .ok entry' ∧
        m.execute method' entry' =
          (m.execute method entry).map fun g => (g.withMethod method').insertLocals k := by
  intro h
  obtain ⟨method', entry', hAdded, _⟩ := h ⟨.empty, ⟨9, 3, 1⟩⟩ doublingMethod (initialState doublingMethod) 0xffff
    (by decide +kernel) ⟨rfl, rfl⟩
  have hFull : doublingMethod.hasRoom 0xffff = false := by decide +kernel
  rw [Method.tryAddLocals, hFull] at hAdded
  cases hAdded

/-- The argument of `doublingMethod` has moved up by two registers, in every instruction that names it. -/
example : (doublingMethod.addLocals 2).code =
    [.binary .add .int 0 3 (.register 3), .branch .eq 0 none 8, .move 3 0, .goto 0, .returnValue 3] := by
  decide

end Machine

end Dalvik
