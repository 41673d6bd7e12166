import Dalvik.Proofs.Passes

/-!
Sweeps of passes, taken apart. What is told of single passes and of a new execution is told of all of a sweep
and of sweeps one after another. A method that control cannot leave at its end is executed without asking for
an instruction that is not there.
-/

namespace Dalvik

namespace Optimization

variable {m : Machine} {weak : Bool} {o : Optimization}

/-- The first one of some passes ends the sweep, or the others follow it. -/
theorem concludes_stages_cons {s : Stage} {rest : List Stage} {result : PassResult} {r : Revision}
    {Q : PassResult → Revision → Prop} {E : OptimizationError → Prop} :
    Concludes (stages m result (s :: rest) : ExceptT OptimizationError (StateM Revision) PassResult) r Q E ↔
      Concludes (s.perform m) r (fun now r' =>
        if now = .stale || r'.draft.stale then Q .stale r'
        else Concludes (stages m (if now = .changed then .changed else result) rest :
          ExceptT OptimizationError (StateM Revision) PassResult) r' Q E) fun e => E (.stage s e) := by
  unfold Concludes
  rw [stages]
  rcases s.perform m r with ⟨e | now, r'⟩
  · exact Iff.rfl
  · dsimp only
    by_cases hStop : (now = .stale || r'.draft.stale) = true
    · rw [if_pos hStop, if_pos hStop]
    · rw [if_neg hStop, if_neg hStop]

theorem leads_stages_cons {s : Stage} {rest : List Stage} {result : PassResult} {r : Revision}
    {Q : PassResult → Revision → Prop} :
    Leads (stages m result (s :: rest) : ExceptT OptimizationError (StateM Revision) PassResult) r Q ↔
      Leads (s.perform m) r fun now r' =>
        if now = .stale || r'.draft.stale then Q .stale r'
        else Leads (stages m (if now = .changed then .changed else result) rest :
          ExceptT OptimizationError (StateM Revision) PassResult) r' Q := by
  simp only [leads_iff_concludes]
  exact concludes_stages_cons

/-- A sweep performs its passes on the graph and the counts. -/
theorem concludes_sweep {Q : PassResult → Optimization → Prop} {E : OptimizationError → Prop} :
    Concludes (sweep m weak) o Q E ↔
      Concludes (stages m .unchanged (Stage.sweep weak)) ⟨⟨o.graph, false⟩, o.counts⟩
        (fun now r => Q now { o with graph := r.draft.graph, counts := r.counts }) E := by
  unfold Concludes sweep
  rcases stages m .unchanged (Stage.sweep weak) ⟨⟨o.graph, false⟩, o.counts⟩ with ⟨_ | _, _⟩ <;> exact Iff.rfl

theorem leads_sweep {Q : PassResult → Optimization → Prop} :
    Leads (sweep m weak) o Q ↔
      Leads (stages m .unchanged (Stage.sweep weak)) ⟨⟨o.graph, false⟩, o.counts⟩
        fun now r => Q now { o with graph := r.draft.graph, counts := r.counts } := by
  simp only [leads_iff_concludes]
  exact concludes_sweep

/-- Other sweeps follow one that changes something, after a new execution if it leaves the graph behind. -/
theorem concludes_sweeps_succ {left : Nat} {Q : Unit → Optimization → Prop} {E : OptimizationError → Prop} :
    Concludes (sweeps m weak (left + 1)) o Q E ↔
      Concludes (sweep m weak) o (fun now o' =>
        match now with
        | .unchanged => Q () o'
        | .changed => Concludes (sweeps m weak left) { o' with changed := true } Q E
        | .stale =>
          if left = 0 then Q () { o' with changed := true, stale := true }
          else Concludes (reexecute m) { o' with changed := true }
            (fun _ o'' => Concludes (sweeps m weak left) o'' Q E) E) E := by
  rw [sweeps, concludes_bind]
  unfold Concludes
  rcases sweep m weak o with ⟨e | _ | _ | _, o'⟩
  · exact Iff.rfl
  · exact Iff.rfl
  · exact Iff.rfl
  · dsimp only
    by_cases hLast : left = 0
    · rw [if_pos hLast, if_pos hLast]
      exact Iff.rfl
    · rw [if_neg hLast, if_neg hLast]
      exact concludes_bind (r := reexecute m)

theorem leads_sweeps_succ {left : Nat} {Q : Unit → Optimization → Prop} :
    Leads (sweeps m weak (left + 1)) o Q ↔
      Leads (sweep m weak) o fun now o' =>
        match now with
        | .unchanged => Q () o'
        | .changed => Leads (sweeps m weak left) { o' with changed := true } Q
        | .stale =>
          if left = 0 then Q () { o' with changed := true, stale := true }
          else Leads (reexecute m) { o' with changed := true } fun _ o'' => Leads (sweeps m weak left) o'' Q := by
  simp only [leads_iff_concludes]
  exact concludes_sweeps_succ

/-- The passes of a sweep that are performed, each with what it begins with. -/
def performed (m : Machine) : List Stage → Revision → List (Stage × Revision)
  | [], _ => []
  | s :: rest, r =>
    (s, r) ::
      match s.perform m r with
      | (.ok now, r) => if now = .stale || r.draft.stale then [] else performed m rest r
      | (.error _, _) => []

/-- What some sweeps begin with, in order. -/
def begun (m : Machine) (weak : Bool) : Nat → Optimization → List Optimization
  | 0, _ => []
  | left + 1, o =>
    o ::
      match sweep m weak o with
      | (.ok .changed, o) => begun m weak left { o with changed := true }
      | (.ok .stale, o) =>
        if left = 0 then []
        else
          match reexecute m { o with changed := true } with
          | (.ok _, o) => begun m weak left o
          | (.error _, _) => []
      | _ => []

theorem fst_mem_of_mem_performed {passes : List Stage} {r : Revision} {p : Stage × Revision}
    (hp : p ∈ performed m passes r) : p.1 ∈ passes := by
  induction passes generalizing r with
  | nil => cases hp
  | cons s rest ih =>
      rw [performed] at hp
      rcases List.mem_cons.mp hp with rfl | hp
      · exact .head _
      split at hp
      · split at hp
        · cases hp
        · exact .tail _ (ih hp)
      · cases hp

/-- Only the first pass of a sweep removes dead code. -/
theorem eq_of_mem_performed {removing : Bool} {r r' : Revision}
    (h : (Stage.deadCode removing, r') ∈ performed m (Stage.sweep weak) r) : removing = weak ∧ r' = r := by
  unfold Stage.sweep at h
  rw [performed] at h
  rcases List.mem_cons.mp h with hFirst | hLater
  · obtain ⟨hStage, rfl⟩ := Prod.mk.inj hFirst
    exact ⟨Stage.deadCode.inj hStage, rfl⟩
  · split at hLater
    · split at hLater
      · cases hLater
      · have hMem := fst_mem_of_mem_performed hLater
        simp at hMem
    · cases hLater

/-- What every pass that is performed keeps is kept by all of them. It may depend on whether the graph is stale. -/
theorem concludes_stages {I : Bool → Revision → Prop} {E : OptimizationError → Prop} {passes : List Stage}
    {result : PassResult} {r : Revision} (hResult : result ≠ .stale) (hr : I false r)
    (hStep : ∀ s r', (s, r') ∈ performed m passes r → I false r' →
      Concludes (s.perform m) r' (fun now r'' => I (now = .stale || r''.draft.stale) r'') fun e => E (.stage s e)) :
    Concludes (stages m result passes : ExceptT OptimizationError (StateM Revision) PassResult) r
      (fun now r' => I (now = .stale) r') E := by
  induction passes generalizing result r with
  | nil =>
      change I (result = .stale) r
      rwa [decide_eq_false hResult]
  | cons s rest ih =>
      rw [performed] at hStep
      rw [concludes_stages_cons]
      refine (hStep s r (.head _) hr).noting.imp fun now r' hAll => ?_
      obtain ⟨hRun, hKept⟩ := hAll
      rw [hRun] at hStep
      split
      · rename_i hStop
        rwa [hStop] at hKept
      · rename_i hGoes
        dsimp only at hStep
        rw [if_neg hGoes] at hStep
        rw [eq_false_of_ne_true hGoes] at hKept
        refine ih ?_ hKept fun s' r'' hMem => hStep s' r'' (.tail _ hMem)
        split
        · decide
        · exact hResult

/-- What every sweep that begins and every new execution keeps of the graph is kept by all sweeps. It may depend on whether
the graph is stale. -/
theorem concludes_sweeps {I : Bool → Graph → Prop} {E : OptimizationError → Prop} {left : Nat} (ho : I false o.graph)
    (hSweep : ∀ o' ∈ begun m weak left o, I false o'.graph →
      Concludes (sweep m weak) o' (fun now o'' => I (now = .stale) o''.graph) E)
    (hAgain : ∀ o' : Optimization, I true o'.graph → Concludes (reexecute m) o' (fun _ o'' => I false o''.graph) E) :
    Concludes (sweeps m weak left) o (fun _ o' => ∃ stale, I stale o'.graph) E := by
  induction left generalizing o with
  | zero => exact ⟨false, ho⟩
  | succ left ih =>
      rw [begun] at hSweep
      rw [concludes_sweeps_succ]
      refine (hSweep o (.head _) ho).noting.imp fun result o' hAll => ?_
      obtain ⟨hRun, hKept⟩ := hAll
      rw [hRun] at hSweep
      cases result with
      | unchanged => exact ⟨_, hKept⟩
      | changed => exact ih (o := { o' with changed := true }) hKept fun o'' hMem => hSweep o'' (.tail _ hMem)
      | stale =>
          dsimp only at hSweep ⊢
          split
          · exact ⟨_, hKept⟩
          · rename_i hMore
            rw [if_neg hMore] at hSweep
            refine (hAgain { o' with changed := true } hKept).noting.imp fun _ o'' hAll => ?_
            obtain ⟨hMade, hNow⟩ := hAll
            rw [hMade] at hSweep
            exact ih hNow fun o'' hMem => hSweep o'' (.tail _ hMem)

theorem leads_stages {I : Revision → Prop} {passes : List Stage} {r : Revision} (hr : I r)
    (hStep : ∀ s r', (s, r') ∈ performed m passes r → I r' → Leads (s.perform m) r' fun _ r'' => I r'') :
    Leads (stages m .unchanged passes : ExceptT OptimizationError (StateM Revision) PassResult) r fun _ r' => I r' := by
  simp only [leads_iff_concludes] at hStep ⊢
  exact concludes_stages (I := fun _ => I) (by decide) hr hStep

theorem leads_sweeps {I : Graph → Prop} {left : Nat} (ho : I o.graph)
    (hSweep : ∀ o' ∈ begun m weak left o, I o'.graph → Leads (sweep m weak) o' fun _ o'' => I o''.graph)
    (hAgain : ∀ o' : Optimization, I o'.graph → Leads (reexecute m) o' fun _ o'' => I o''.graph) :
    Leads (sweeps m weak left) o fun _ o' => I o'.graph := by
  simp only [leads_iff_concludes] at hSweep hAgain ⊢
  exact (concludes_sweeps (I := fun _ => I) ho hSweep hAgain).imp fun _ _ h => h.elim fun _ hKept => hKept

/-- Making the graph anew leaves the method as it is. -/
theorem reexecute_leads :
    Leads (reexecute m) o fun _ o' => o.graph.Keeps o'.graph := by
  unfold Leads reexecute
  cases hRun : m.execute o.graph.method o.graph.entry with
  | error e => trivial
  | ok g =>
      obtain ⟨hMethod, hEntry, hConsistent, hShaped⟩ := Machine.execute_consistent hRun
      refine ⟨⟨hConsistent, fun h => hShaped h.entry, .of_eq hEntry⟩, fun hClosed => ?_⟩
      dsimp only
      rwa [hMethod]

/-- Executing a closed method finds an instruction wherever control goes, and a register wherever one
is named, if the states have the registers of the method. -/
theorem execute_of_closed {method : Method} {entry : State} {e : ExecutionError}
    (hValid : method.validate = .ok ()) (hClosed : method.Closed)
    (h : m.execute method entry = .error e) :
    (∀ a, e.cause ≠ .address a) ∧ (entry.Fits method → e.cause = .outOfBounds) := by
  obtain ⟨cause, rfl, a, i, pre, hi, hPre, hLapse⟩ := Machine.execute_error hValid h
  obtain ⟨p, hp, hInsn⟩ := Code.at?_eq_some_iff.mp hi
  obtain ⟨hBound, rfl⟩ := Code.indexOf?_eq_some_iff.mp hp
  cases hLapse with
  | outOfBounds => exact ⟨by simp [ExecutionError.cause], fun _ => rfl⟩
  | address hFalls hLast =>
      have hNext := hClosed.lt_of_fallsThrough hInsn hFalls
      have hSame : (m.context method 0).method = method := rfl
      rw [hSame, Code.next?_addressAt hNext] at hLast
      cases hLast
  | register r hr hCount =>
      refine ⟨by simp [ExecutionError.cause], fun hFits => ?_⟩
      obtain ⟨hCode, _⟩ := Method.validate_eq_ok_iff.mp hValid
      have hLess := (hCode i (List.mem_of_getElem? hInsn)).registers r hr
      rw [(hFits.of_sameShape hPre).registerCount] at hCount
      exact absurd hLess (Nat.not_lt_of_le hCount)

/-- A method that jumps over its only dead instruction. -/
def decidedMethod : Method where
  reference := ⟨⟨"La;"⟩, "run", [], .void⟩
  flags := { static := true }
  locals := 1
  code := [.const 0 (.int 0), .branch .eq 0 none 6, .nop, .returnVoid]
  tries := []

/-- The graph of an execution of which nothing is known of the arguments. -/
def executed (method : Method) : Graph :=
  match smallMachine.execute method (Machine.initialState method) with
  | .ok g => g
  | .error _ => .start method (Machine.initialState method)

end Optimization

end Dalvik
