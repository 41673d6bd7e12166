import Dalvik.Proofs.Granting
import Dalvik.Proofs.Optimization

/-!
Sweeps that are not refused an edit. Every pass leaves everything where it was certain to go, unless it leaves the graph
stale, and then a new execution is made.
-/

namespace Dalvik

/-- A pass is not refused, and leaves everything where it was certain to go. -/
theorem Stage.perform_concludes (m : Machine) (s : Stage) {r : Revision} (hStale : r.draft.stale = false)
    (h : r.draft.graph.Sound false)
    (hCalls : ∀ weak, s = .deadCode weak → weak = true → r.draft.graph.isComplete = true →
      DeadCode.callsGoOn weak r.draft.graph = true) :
    Concludes (s.perform m) r (fun now r' => r'.draft.graph.Sound (now = .stale || r'.draft.stale))
      EditError.Fails := by
  cases s with
  | deadCode weak => exact (DeadCode.perform_concludes weak hStale h (hCalls weak rfl)).concludes
  | constants => exact (Constants.perform_concludes hStale h).concludes
  | peephole => exact Peephole.perform_concludes m hStale h
  | unreflection => exact Unreflection.perform_concludes m.classes hStale h

/-- Optimizing has not been refused an edit. -/
def OptimizationError.Fails (e : OptimizationError) : Prop := ∀ s e', e = .stage s e' → e'.Fails

theorem EditError.Fails.stage (s : Stage) {e : EditError} (h : e.Fails) : (OptimizationError.stage s e).Fails := by
  rintro s' e' ⟨⟩
  exact h

namespace Optimization

/-- The graphs that some sweeps begin with, in order. -/
def swept (m : Machine) (weak : Bool) : Nat → Optimization → List Graph
  | 0, _ => []
  | left + 1, o =>
    o.graph ::
      match sweep m weak o with
      | (.ok .changed, o) => swept m weak left { o with changed := true }
      | (.ok .stale, o) =>
        if left = 0 then []
        else
          match reexecute m { o with changed := true } with
          | (.ok _, o) => swept m weak left o
          | (.error _, _) => []
      | _ => []

variable {m : Machine} {weak : Bool} {o : Optimization}

theorem swept_eq_map_begun (m : Machine) (weak : Bool) (left : Nat) (o : Optimization) :
    swept m weak left o = (begun m weak left o).map graph := by
  induction left generalizing o with
  | zero => rfl
  | succ left ih =>
      rw [swept, begun, List.map_cons]
      refine congrArg (o.graph :: ·) ?_
      rcases sweep m weak o with ⟨_ | _ | _ | _, o'⟩
      · rfl
      · rfl
      · exact ih _
      · dsimp only
        split
        · rfl
        · rcases reexecute m { o' with changed := true } with ⟨_ | _, o''⟩
          · rfl
          · exact ih _

theorem graph_mem_swept {left : Nat} {o' : Optimization} (ho : o' ∈ begun m weak left o) :
    o'.graph ∈ swept m weak left o :=
  swept_eq_map_begun m weak left o ▸ List.mem_map_of_mem ho

/-- A sweep is not refused. -/
theorem sweep_concludes (ho : o.graph.Sound false)
    (hCalls : weak = true → o.graph.isComplete = true → DeadCode.callsGoOn weak o.graph = true) :
    Concludes (sweep m weak) o (fun now o' => o'.graph.Sound (now = .stale)) OptimizationError.Fails := by
  rw [concludes_sweep]
  refine (concludes_stages (I := fun stale r => r.draft.graph.Sound stale ∧ (stale = false → r.draft.stale = false))
    (by decide) ⟨ho, fun _ => rfl⟩ fun s r hPerformed hKept => ?_).imp fun _ _ h => h.1
  have hStep := s.perform_concludes m (hKept.2 rfl) hKept.1 fun removing hs hRemoving => by
    subst hs
    obtain ⟨rfl, rfl⟩ := eq_of_mem_performed hPerformed
    exact hCalls hRemoving
  exact (hStep.weaken fun _ he => he.stage s).imp fun _ _ hSound => ⟨hSound, fun h => (Bool.or_eq_false_iff.mp h).2⟩

/-- In a new execution everything has gone where it was certain to go. -/
theorem sound_of_execute {method : Method} {entry : State} {g : Graph} (hRun : m.execute method entry = .ok g)
    (hTakes : method.TakesWithin) : g.Sound false := by
  obtain ⟨hMethod, _, hConsistent, _⟩ := Machine.execute_consistent hRun
  obtain ⟨log, t, hRecording, _⟩ := Machine.execute_funded hRun
  exact ⟨hConsistent, fun _ => hMethod ▸ hTakes, fun _ hDone => hRecording.guided hDone⟩

/-- Making the graph anew asks for no edit. -/
theorem reexecute_concludes (hTakes : o.graph.method.TakesWithin) :
    Concludes (reexecute m) o (fun _ o' => o'.graph.Sound false) OptimizationError.Fails := by
  unfold Concludes reexecute
  cases hAgain : m.execute o.graph.method o.graph.entry with
  | error e => exact fun _ _ h => by cases h
  | ok g => exact sound_of_execute hAgain hTakes

theorem sweeps_concludes {left : Nat} (ho : o.graph.Sound false)
    (hCalls : weak = true → ∀ g ∈ swept m weak left o, g.isComplete = true → DeadCode.callsGoOn weak g = true) :
    Concludes (sweeps m weak left) o (fun _ _ => True) OptimizationError.Fails :=
  (concludes_sweeps (I := fun stale g => g.Sound stale) ho
    (fun _ ho' hSound => sweep_concludes hSound fun hWeak => hCalls hWeak _ (graph_mem_swept ho'))
    fun _ hSound => reexecute_concludes (hSound.takes (.inl rfl))).imp fun _ _ _ => trivial

/-- No pass asks for an edit that is refused while a method is simplified that control cannot leave at its end, whatever
its entry, the limits and the number of sweeps. With weak removal this takes that the calls which it removes from
complete graphs have gone on to the next instruction only, and to no handler. -/
theorem simplify_not_refused {method : Method} {entry : State} {g : Graph} {limit : Nat}
    (hRun : m.execute method entry = .ok g) (hClosed : method.Closed)
    (hCalls : weak = true → ∀ g' ∈ swept m weak limit (.start g), g'.isComplete = true →
      DeadCode.callsGoOn weak g' = true) (s : Stage) (a : Address) :
    (simplify m weak limit (.start g)).1 ≠ .error (.stage s (.noInstruction a)) ∧
      (simplify m weak limit (.start g)).1 ≠ .error (.stage s (.wouldDisconnect a)) := by
  have hSweeps := sweeps_concludes (sound_of_execute hRun hClosed.takesWithin) hCalls
  have hSame : simplify m weak limit (.start g) = sweeps m weak limit (.start g) := rfl
  have hFails (e : EditError) (h : (simplify m weak limit (.start g)).1 = .error (.stage s e)) : e.Fails := by
    unfold Concludes at hSweeps
    rw [← hSame] at hSweeps
    rcases hEnd : simplify m weak limit (.start g) with ⟨_ | _, o⟩
    · rw [hEnd] at h hSweeps
      exact hSweeps s e (Except.error.inj h)
    · rw [hEnd] at h
      cases h
  constructor <;> intro h <;> obtain ⟨_, _, hOther⟩ := hFails _ h <;> cases hOther

/-- A method that calls another one for nothing, after it has looked up a class. -/
def lookingMethod : Method where
  reference := ⟨⟨"La;"⟩, "find", [.int], .object⟩
  flags := { static := true }
  locals := 2
  code := [.const 0 (.string "java.lang.String"), .invoke .static FrameworkMethod.classForName.reference [0],
    .moveResult 1, .invoke .static FrameworkMethod.stringOfInt.reference [2], .returnValue 1]
  tries := []

theorem simplify_not_refused_lookingMethod :
    DeadCode.taken true (Machine.bare.graphOf lookingMethod (Machine.initialState lookingMethod)) = [6] ∧
    ∀ s a,
      (simplify Machine.bare true 2
        (.start (Machine.bare.graphOf lookingMethod (Machine.initialState lookingMethod)))).1 ≠
          .error (.stage s (.noInstruction a)) ∧
      (simplify Machine.bare true 2
        (.start (Machine.bare.graphOf lookingMethod (Machine.initialState lookingMethod)))).1 ≠
          .error (.stage s (.wouldDisconnect a)) := by
  have hAll : (swept Machine.bare true 2 (.start (Machine.bare.graphOf lookingMethod
      (Machine.initialState lookingMethod)))).all (DeadCode.callsGoOn true) = true := by
    decide +kernel
  exact ⟨by decide +kernel, fun s a => simplify_not_refused (Machine.execute_eq_graphOf (by decide +kernel))
    ⟨.returnValue 1, rfl, rfl⟩ (fun _ g' hg' _ => List.all_eq_true.mp hAll g' hg') s a⟩

/-- A method that calls another one for nothing where a handler begins to be in force, and behind what takes the result
of a look-up. -/
def guardedMethod : Method where
  reference := ⟨⟨"La;"⟩, "find", [.int], .object⟩
  flags := { static := true }
  locals := 2
  code := [.const 0 (.string "no.such.Thing"), .invoke .static FrameworkMethod.classForName.reference [0],
    .moveResult 1, .invoke .static FrameworkMethod.stringOfInt.reference [2], .returnValue 1, .moveException 0,
    .returnValue 0]
  tries := [⟨6, 9, [⟨none, 10⟩]⟩]

/-- Weak removal leaves what takes the result leading to a place that is no handler any more, so that it cannot be
removed when a class is to be loaded in its place. -/
theorem exists_simplify_refused :
    ¬ ∀ (m : Machine) (method : Method) (entry : State) (g : Graph) (weak : Bool) (limit : Nat) (s : Stage)
        (a : Address),
      method.WellFormed → method.Closed → m.execute method entry = .ok g →
        (simplify m weak limit (.start g)).1 ≠ .error (.stage s (.noInstruction a)) ∧
          (simplify m weak limit (.start g)).1 ≠ .error (.stage s (.wouldDisconnect a)) := by
  intro h
  have hRefused : (simplify Machine.bare true 4 (.start (Machine.bare.graphOf guardedMethod
      (Machine.initialState guardedMethod)))).1 = .error (.stage .peephole (.wouldDisconnect 5)) := by
    decide +kernel
  exact (h Machine.bare guardedMethod (Machine.initialState guardedMethod) _ true 4 .peephole 5 (by decide +kernel)
    ⟨.returnValue 0, rfl, rfl⟩ (Machine.execute_eq_graphOf (by decide +kernel))).2 hRefused

end Optimization

end Dalvik
