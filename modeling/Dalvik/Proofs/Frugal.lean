import Dalvik.Proofs.Bonds
import Dalvik.Proofs.Step

/-!
What a step takes from the supply. The heap only grows and the budget only shrinks, as long as this is so
for the calls of local methods, which are explored like a method of their own.
-/

namespace Dalvik

namespace Run

variable {α β : Type}

/-- A computation that takes new instances from the heap and nodes from the budget at most. -/
def Frugal (r : Run α) : Prop :=
  ∀ s, s.heap.Grows (r s).2.heap ∧ (r s).2.budget ≤ s.budget

theorem frugal_pure (v : α) : Frugal (pure v : Run α) := fun s => ⟨.refl s.heap, Nat.le_refl _⟩

theorem frugal_throw (e : Error) : Frugal (throw e : Run α) := fun s => ⟨.refl s.heap, Nat.le_refl _⟩

theorem frugal_ofExcept (r : Except Error α) : Frugal (ofExcept r) :=
  fun s => ⟨.refl s.heap, Nat.le_refl _⟩

theorem frugal_budget : Frugal budget := fun s => ⟨.refl s.heap, Nat.le_refl _⟩

theorem frugal_charge : Frugal charge := fun s => ⟨.refl s.heap, Nat.sub_le _ _⟩

theorem frugal_onHeap {f : Heap → α × Heap} (h : ∀ k : Heap, k.Grows (f k).2) : Frugal (onHeap f) :=
  fun s => ⟨h s.heap, Nat.le_refl _⟩

theorem frugal_onHeap? {f : Heap → Except Error (α × Heap)}
    (h : ∀ (k : Heap) p, f k = .ok p → k.Grows p.2) : Frugal (onHeap? f) := by
  intro s
  unfold onHeap?
  cases hf : f s.heap with
  | ok p => exact ⟨h s.heap p hf, Nat.le_refl _⟩
  | error e => exact ⟨.refl s.heap, Nat.le_refl _⟩

theorem Frugal.attempt {r : Run α} (hr : Frugal r) : Frugal (attempt r) := fun s => hr s

theorem Frugal.bind {r : Run α} {f : α → Run β} (hr : Frugal r) (hf : ∀ v, Frugal (f v)) :
    Frugal (r >>= f) := by
  intro s
  rw [stateful_bind_apply]
  obtain ⟨hHeap, hBudget⟩ := hr s
  cases hRun : r s with
  | mk result t =>
      rw [hRun] at hHeap hBudget
      cases result with
      | error e => exact ⟨hHeap, hBudget⟩
      | ok v =>
          obtain ⟨hRest, hLeft⟩ := hf v t
          exact ⟨hHeap.trans hRest, Nat.le_trans hLeft hBudget⟩

end Run

namespace Semantics

open Run (Frugal)

theorem newArray_frugal (pre post : State) (dst size : Register) (type : Descriptor) :
    Frugal (newArray pre post dst size type) := by
  refine (Run.frugal_ofExcept _).bind fun n => ?_
  split
  · refine Frugal.bind (Run.frugal_onHeap fun k => ?_) fun v => Run.frugal_ofExcept _
    exact Heap.grows_alloc k
  · split
    · exact Run.frugal_pure _
    · refine Frugal.bind (Run.frugal_onHeap fun k => ?_) fun v => Run.frugal_ofExcept _
      exact Heap.grows_alloc k

theorem fillArray_frugal (pre post : State) (array : Register) (data : List Literal) :
    Frugal (fillArray pre post array data) := by
  refine (Run.frugal_ofExcept _).bind fun v => ?_
  split
  · exact Run.frugal_pure _
  · split
    · exact Run.frugal_pure _
    · split
      · refine Frugal.bind (Run.frugal_onHeap fun k => ?_) fun _ => Run.frugal_pure _
        exact Heap.grows_literals k _
      · exact Run.frugal_pure _
  · exact Run.frugal_pure _
  · exact Run.frugal_pure _

namespace Context

variable {c : Context}

/-- The instruction calls no local method that has a body. -/
def RunsNoBody (c : Context) (i : Instruction Address) : Prop :=
  ∀ kind m args, i = .invoke kind m args → FrameworkMethod.find? m = none → c.callee? kind m = none

/-- The local methods that the instruction calls are explored frugally. -/
def CallsFrugally (c : Context) (i : Instruction Address) : Prop :=
  ∀ kind m args, i = .invoke kind m args → FrameworkMethod.find? m = none →
    ∀ callee, c.callee? kind m = some callee → ∀ values, Frugal (c.call callee values)

theorem RunsNoBody.callsFrugally {i : Instruction Address} (h : c.RunsNoBody i) : c.CallsFrugally i := by
  intro kind m args hi hNone callee hCallee
  rw [h kind m args hi hNone] at hCallee
  cases hCallee

theorem conclude_frugal (post : State) (m : MethodReference) (args : List Register) (effect : Option Effect) :
    Frugal (conclude post m args effect) := by
  unfold conclude
  cases effect with
  | none => exact (Run.frugal_ofExcept _).bind fun _ => Run.frugal_pure _
  | some e =>
      dsimp only
      split
      · exact (Run.frugal_ofExcept _).bind fun _ => Run.frugal_pure _
      · exact Run.frugal_ofExcept _

theorem invokePresent_frugal {kind : InvokeKind} {m : MethodReference} {args : List Register}
    (hCalls : c.CallsFrugally (.invoke kind m args)) (values : List Value) (post : State) :
    Frugal (c.invokePresent kind m args values post) := by
  unfold invokePresent
  split
  · refine (Run.frugal_onHeap? fun k p hp => ?_).bind fun e => ?_
    · exact (FrameworkMethod.call_ends (Q := fun p => k.Grows p.2) (fun _ => .refl k)
        (fun _ => Heap.grows_alloc k) _ _ _).of_eq_ok hp
    · split
      · exact (Run.frugal_ofExcept _).bind fun _ => Run.frugal_pure _
      · exact Run.frugal_ofExcept _
  · rename_i hNone
    rw [invokeOther_eq]
    refine Frugal.bind ?_ (conclude_frugal _ m args)
    split
    · rename_i callee hCallee
      exact hCalls kind m args rfl hNone callee hCallee values
    · exact Run.frugal_pure none

theorem execute_frugal {i : Instruction Address} (hCalls : c.CallsFrugally i) (a : Address)
    (pre post : State) : Frugal (c.execute a i pre post) := by
  cases i with
  | const dst l =>
      refine Frugal.bind (Run.frugal_onHeap fun k => ?_) fun v => Run.frugal_ofExcept _
      exact Heap.grows_literal k l
  | newArray dst size d => exact newArray_frugal pre post dst size d
  | fillArray array data => exact fillArray_frugal pre post array data
  | invoke kind m args =>
      refine (Run.frugal_ofExcept _).bind fun values => ?_
      split
      · exact Run.frugal_pure _
      · exact invokePresent_frugal hCalls values post
  | nop | returnVoid | goto _ => exact Run.frugal_pure _
  | _ => exact Run.frugal_ofExcept _

theorem apply_frugal (hCalls : ∀ a i, c.method.code.at? a = some i → c.CallsFrugally i) (a : Address)
    (pre : State) : Frugal (c.apply a pre) := by
  unfold apply
  cases hAt : c.method.code.at? a with
  | none => exact Run.frugal_throw _
  | some i =>
      refine (execute_frugal (hCalls a i hAt) a pre _).bind fun o => ?_
      exact (Run.frugal_ofExcept _).bind fun _ => Run.frugal_pure _

end Context

end Semantics

end Dalvik
