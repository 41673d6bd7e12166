import Dalvik.Proofs.MirroredSteps
import Dalvik.Proofs.Upkeep
import Dalvik.Proofs.Verdict

/-!
Runs keep up what is asked of values: an instruction that draws on the heap, a step, an exploration, and with
them all nested calls.
-/

namespace Dalvik

namespace Discipline

variable {ω α β : Type} {D : Discipline ω} {w w' : ω} {s : Supply} {enough : Prop}

/-- A computation ends in a larger world that fits the heap that it leaves, with a result of which
something holds there; it does not ask for what is beyond the end of a list. -/
def Upholds (D : Discipline ω) (enough : Prop) (w : ω) (r : Run α) (s : Supply) (Q : ω → α → Prop) : Prop :=
  Run.Ends r s (fun v t => ∃ w', D.Extends w w' ∧ D.Fits w' t.heap ∧ Q w' v) fun e _ => Inside enough e

theorem upholds_pure {v : α} {Q : ω → α → Prop} (hFits : D.Fits w s.heap) (hv : Q w v) :
    D.Upholds enough w (pure v) s Q := ⟨w, D.refl w, hFits, hv⟩

theorem upholds_ofExcept {r : Except Error α} {Q : ω → α → Prop} (hFits : D.Fits w s.heap)
    (h : Ends r (Q w) (Inside enough)) : D.Upholds enough w (Run.ofExcept r) s Q :=
  Run.ends_ofExcept.mpr (h.imp (fun _ hv => ⟨w, D.refl w, hFits, hv⟩) fun _ he => he)

theorem upholds_ofExcept_bind {r : Except Error α} {f : α → Run β} {Q : ω → β → Prop}
    (h : Ends r (fun v => D.Upholds enough w (f v) s Q) (Inside enough)) :
    D.Upholds enough w (Run.ofExcept r >>= f) s Q := by
  unfold Upholds
  rw [Run.ends_bind, Run.ends_ofExcept]
  exact h

theorem Upholds.bind {r : Run α} {f : α → Run β} {P : ω → α → Prop} {Q : ω → β → Prop}
    (h : D.Upholds enough w r s P)
    (hNext : ∀ w' t v, D.Extends w w' → D.Fits w' t.heap → P w' v → D.Upholds enough w' (f v) t Q) :
    D.Upholds enough w (r >>= f) s Q := by
  unfold Upholds
  rw [Run.ends_bind]
  refine Run.Ends.imp h (fun v t ⟨w₁, hw₁, hFits, hv⟩ => ?_) fun _ _ he => he
  exact Run.Ends.imp (hNext w₁ t v hw₁ hFits hv)
    (fun u t' ⟨w₂, hw₂, hFits₂, hu⟩ => ⟨w₂, D.trans hw₁ hw₂, hFits₂, hu⟩) fun _ _ he => he

theorem upholds_onHeap {f : Heap → α × Heap} {Q : ω → α → Prop}
    (h : ∃ w', D.Extends w w' ∧ D.Fits w' (f s.heap).2 ∧ Q w' (f s.heap).1) :
    D.Upholds enough w (Run.onHeap f) s Q := h

theorem upholds_onHeap? {f : Heap → Except Error (α × Heap)} {Q : ω → α → Prop}
    (h : Ends (f s.heap) (fun p => ∃ w', D.Extends w w' ∧ D.Fits w' p.2 ∧ Q w' p.1) (Inside enough)) :
    D.Upholds enough w (Run.onHeap? f) s Q :=
  Run.ends_onHeap?.mpr h

end Discipline

/-- The instructions that write elements of arrays. -/
def Instruction.writesElements {τ : Type} : Instruction τ → Bool
  | arrayPut _ _ _ | fillArray _ _ => true
  | _ => false

/-- Whether the instruction passes all arguments, if it calls a framework method. -/
def Instruction.passesAll {τ : Type} : Instruction τ → Bool
  | invoke _ m args => (FrameworkMethod.find? m).all fun f => f.arity ≤ args.length
  | _ => true

namespace Semantics

variable {ω : Type} {D : Discipline ω} {w : ω} {enough : Prop} {pre post : State} {s : Supply}

theorem length_overwrite (elements new : List Value) : (overwrite elements new).length = elements.length := by
  simp only [overwrite, List.length_append, List.length_take, List.length_drop]
  omega

section

variable (hFits : D.Fits w s.heap) (hPost : post.All (D.Holds w))

include hFits hPost

theorem newArray_upholds (dst size : Register) (type : Descriptor) :
    D.Upholds enough w (newArray pre post dst size type) s fun w' o => o.All (D.Holds w') := by
  have hMake (n : Option Nat) (es : Option (List Value)) (hazard : Option Value)
      (hHazard : ∀ v, hazard = some v → v.ids = [])
      (hMakes : s.heap.Makes (.array s.heap.next type n es)) :
      D.Upholds enough w (do
        let v ← Run.onHeap fun h => h.newArray type n es
        Run.ofExcept (Outcome.assign post dst v hazard)) s fun w' o => o.All (D.Holds w') := by
    refine (Discipline.upholds_onHeap (Q := fun w' v => D.Holds w' v) (D.make hFits hMakes)).bind
      fun w' t v hw hFits' hv => Discipline.upholds_ofExcept hFits' ?_
    exact inside_assign (hPost.imp fun _ hv => D.extend hw hv) hv dst fun u hu => D.plain (hHazard u hu)
  unfold newArray
  refine Discipline.upholds_ofExcept_bind (inside_readInt fun n => ?_)
  cases n with
  | none => exact hMake none none _ (fun v hv => by cases hv; rfl) (.untracked _ _)
  | some n =>
      dsimp only
      split
      · exact Discipline.upholds_pure hFits (all_raise hPost (fun _ => Discipline.holds_unknown _) _)
      · refine hMake _ _ none (by simp) ?_
        split
        · have hZeros : ∀ v ∈ List.replicate n.toInt.toNat (Value.zero type.elementOrObject), v.ids = [] := by
            intro v hv
            rw [List.eq_of_mem_replicate hv, Value.ids_zero]
          simpa using Heap.Makes.tracked (h := s.heap) type _ hZeros
        · exact .untracked _ _

theorem fillArray_upholds (hPre : pre.All (D.Holds w)) (hRewrites : D.Rewrites) (array : Register)
    (data : List Literal) :
    D.Upholds enough w (fillArray pre post array data) s fun w' o => o.All (D.Holds w') := by
  have hHazard {d : Descriptor} : D.Upholds enough w (pure (Outcome.nextOr post (someException d))) s
      fun w' o => o.All (D.Holds w') :=
    Discipline.upholds_pure hFits (all_nextOr hPost fun _ => holds_someException)
  have hRaise (d : Descriptor) : D.Upholds enough w (pure (Outcome.raise post d)) s
      fun w' o => o.All (D.Holds w') :=
    Discipline.upholds_pure hFits (all_raise hPost (fun _ => Discipline.holds_unknown _) _)
  unfold fillArray
  refine Discipline.upholds_ofExcept_bind (inside_read hPre fun v hv => ?_)
  split
  · exact hRaise _
  · rename_i id type length elements
    split
    · exact hRaise _
    · split
      · refine (Discipline.upholds_onHeap (Q := fun w' vs => ∀ v ∈ vs, D.Holds w' v)
          (Discipline.literals hFits _)).bind fun w' t new hw hFits' hNew => ?_
        have hArray := D.extend hw hv
        refine Discipline.upholds_pure hFits' (all_next ?_)
        refine (hPost.imp fun _ hv => D.extend hw hv).updateInstance id (hRewrites _ _ _ _ _ _ hArray ?_)
        rintro _ ⟨⟩
        constructor
        · intro u hu
          rcases mem_overwrite hu with hOld | hFilled
          · cases elements with
            | none => rw [List.eq_of_mem_replicate hOld]; exact D.plain (Value.ids_zero _)
            | some vs => exact D.element hArray hOld
          · obtain ⟨x, hx, rfl⟩ := List.mem_map.mp hFilled
            exact Discipline.holds_coerce (hNew x hx) _
        · rw [length_overwrite]
          cases elements with
          | none => exact .inl (by simp)
          | some vs => exact .inr ⟨vs, rfl, rfl⟩
      · exact hHazard
  · exact hHazard
  · exact hHazard

end

namespace Context

variable {c : Context} {i : Instruction Address}

/-- The local methods that an instruction calls keep up what is asked of values. -/
def CallsUphold (c : Context) (D : Discipline ω) (enough : Prop) (i : Instruction Address) : Prop :=
  ∀ kind m args, i = .invoke kind m args → FrameworkMethod.find? m = none →
    ∀ callee, c.callee? kind m = some callee → ∀ w values s, D.Fits w s.heap → (∀ v ∈ values, D.Holds w v) →
      D.Upholds enough w (c.call callee values) s fun w' effect => ∀ e, effect = some e → e.All (D.Holds w')

theorem invokePresent_upholds {kind : InvokeKind} {m : MethodReference} {args : List Register}
    (hCalls : c.CallsUphold D enough (.invoke kind m args))
    (hPasses : enough → (Instruction.invoke kind m args : Instruction Address).passesAll = true)
    (hFits : D.Fits w s.heap) (hPost : post.All (D.Holds w)) {values : List Value} (hValues : ∀ v ∈ values, D.Holds w v)
    (hLength : values.length = args.length) :
    D.Upholds enough w (c.invokePresent kind m args values post) s fun w' o => o.All (D.Holds w') := by
  have hOpaque {w' : ω} {t : Supply} {post' : State} (hFits' : D.Fits w' t.heap)
      (hPost' : post'.All (D.Holds w')) {f : State → Outcome}
      (hf : ∀ u : State, u.All (D.Holds w') → (f u).All (D.Holds w')) :
      D.Upholds enough w' (do
        let u ← Run.ofExcept (opaqueResult post' m args)
        return f u) t fun w' o => o.All (D.Holds w') :=
    Discipline.upholds_ofExcept_bind ((opaqueResult_keeps hPost' m args).imp
      (fun u hu => Discipline.upholds_pure hFits' (hf u hu)) fun _ he => he)
  unfold invokePresent
  split
  · rename_i f hFind
    unfold invokeFramework
    refine Discipline.Upholds.bind (P := fun w' (e : Effect) => e.All (D.Holds w'))
      (Discipline.upholds_onHeap? ?_) fun w' t e hw hFits' he => ?_
    · refine (f.call_gives c.classes).imp (fun p hp => ?_) fun e he hEnough => ?_
      · cases hp with
        | keeps e he =>
            exact ⟨w, D.refl w, hFits, fun v hv => (he v hv).elim (hValues v) D.plain⟩
        | makes v hMakes =>
            obtain ⟨w', hw, hFits', hv⟩ := D.make hFits hMakes
            exact ⟨w', hw, hFits', fun u hu => by cases hu; exact hv⟩
      · have hAll : f.arity ≤ args.length := by simpa [Instruction.passesAll, hFind] using hPasses hEnough
        omega
    · have hPost' := hPost.imp fun _ hv => D.extend hw hv
      split
      · exact hOpaque hFits' hPost' fun u hu => all_nextOr hu fun _ => holds_someException
      · exact Discipline.upholds_ofExcept hFits' (applyEffect_keeps hPost' m args he)
  · rename_i hNone
    rw [invokeOther_eq]
    refine Discipline.Upholds.bind
      (P := fun w' (effect : Option Effect) => ∀ e, effect = some e → e.All (D.Holds w')) ?_
      fun w' t effect hw hFits' hEffect => ?_
    · split
      · rename_i callee hCallee
        exact hCalls kind m args rfl hNone callee hCallee w values s hFits hValues
      · exact Discipline.upholds_pure hFits (by simp)
    · have hPost' := (hPost.imp fun _ hv => D.extend hw hv).foldl_clobber
        (fun _ => Discipline.holds_unknown _) values
      unfold conclude
      split
      · exact hOpaque hFits' hPost' fun u hu => all_nextOr hu fun _ => holds_someException
      · rename_i e
        split
        · exact hOpaque hFits' hPost' fun u hu => all_next hu
        · exact Discipline.upholds_ofExcept hFits' (applyEffect_keeps hPost' m args (hEffect e rfl))

/-- What an instruction does keeps up what is asked of values, as long as arrays may be rewritten or the
instruction writes to none, and calls do so, too. -/
theorem execute_upholds (hCalls : c.CallsUphold D enough i) (hRewrites : i.writesElements = true → D.Rewrites)
    (hMeasures : enough → D.Measures) (hPasses : enough → i.passesAll = true) (hFits : D.Fits w s.heap)
    (hPre : pre.All (D.Holds w)) (hPost : post.All (D.Holds w)) (a : Address) :
    D.Upholds enough w (c.execute a i pre post) s fun w' o => o.All (D.Holds w') := by
  have hNext : Ends (c.next a) (fun _ => True) (Inside enough) := by
    unfold Context.next
    split
    · trivial
    · exact inside_address _ _
  have hPure {r : Except Error Outcome} (h : Ends r (fun o => o.All (D.Holds w)) (Inside enough)) :
      D.Upholds enough w (Run.ofExcept r) s fun w' o => o.All (D.Holds w') :=
    Discipline.upholds_ofExcept hFits h
  cases i with
  | nop => exact Discipline.upholds_pure hFits (all_next hPost)
  | const dst l =>
      refine (Discipline.upholds_onHeap (Q := fun w' v => D.Holds w' v) (Discipline.literal hFits l)).bind
        fun w' t v hw hFits' hv => Discipline.upholds_ofExcept hFits' ?_
      exact inside_assign (hPost.imp fun _ hv => D.extend hw hv) hv dst fun _ => holds_none
  | move dst src =>
      refine hPure ?_
      rw [Dalvik.ends_bind]
      exact inside_read hPre fun v hv => inside_assign hPost hv dst fun _ => holds_none
  | moveResult dst =>
      refine hPure (inside_assign hPost ?_ dst fun _ => holds_none)
      cases hResult : pre.result with
      | none => exact Discipline.holds_unknown _
      | some v => exact hPre.result v hResult
  | moveException dst =>
      refine hPure (inside_assign hPost ?_ dst fun _ => holds_none)
      cases hException : pre.exception with
      | none => exact Discipline.holds_unknown _
      | some v => exact hPre.exception v hException
  | returnVoid => exact Discipline.upholds_pure hFits (all_stop hPost)
  | returnValue src => exact hPure (returnValue_keeps hPre hPost src)
  | throw src => exact hPure (throwValue_keeps hPre hPost src)
  | goto t => exact Discipline.upholds_pure hFits (all_jump hPost _)
  | branch cond lhs rhs t => exact hPure (branch_keeps hPre hPost hNext cond lhs rhs t)
  | switch src cases => exact hPure (switch_keeps hPre hPost hNext src cases)
  | compare k dst lhs rhs => exact hPure (compare_keeps hPre hPost k dst lhs rhs)
  | unary op dst src => exact hPure (unary_keeps hPre hPost op dst src)
  | binary op type dst lhs rhs => exact hPure (binary_keeps hPre hPost op type dst lhs rhs)
  | newInstance dst d => exact hPure (inside_assign hPost (D.plain rfl) dst fun _ => holds_none)
  | checkCast r d => exact hPure (checkCast_keeps hPre hPost r d)
  | instanceOf dst src d => exact hPure (instanceOf_keeps hPre hPost dst src d)
  | newArray dst size d => exact newArray_upholds hFits hPost dst size d
  | arrayLength dst array => exact hPure (arrayLength_keeps hPre hPost dst array)
  | arrayGet dst array index => exact hPure (arrayGet_keeps hPre hPost hMeasures dst array index)
  | arrayPut src array index =>
      exact hPure (arrayPut_keeps hPre hPost hMeasures (hRewrites rfl) src array index)
  | fillArray array data => exact fillArray_upholds hFits hPost hPre (hRewrites rfl) array data
  | fieldGet dst o fld => exact hPure (fieldGet_keeps hPost dst o fld)
  | fieldPut src o fld => exact hPure (fieldPut_keeps hPre hPost src o)
  | invoke kind m args =>
      refine Discipline.upholds_ofExcept_bind (mapM_read_keeps hPre args fun values hValues hLength => ?_)
      split
      · exact Discipline.upholds_pure hFits (all_raise hPost (fun _ => Discipline.holds_unknown _) _)
      · exact invokePresent_upholds hCalls hPasses hFits hPost hValues hLength

section

variable {P : Value → Prop} {Q : State → Prop}
  (hEnter : ∀ v, P v → Q { pre with result := none, exception := some v }) (hUnknown : ∀ d, P (.unknown d))

include hEnter hUnknown

/-- A handler is entered with the registers before the instruction, and with the exception or some one. -/
theorem all_route {exception : Value} (hException : P exception) {successors : List (Address × State)}
    (h : ∀ p ∈ successors, Q p.2) (hs : List Handler) : ∀ p ∈ route pre exception successors hs, Q p.2 := by
  have hHandler {successors : List (Address × State)} (h : ∀ p ∈ successors, Q p.2) (k : Handler)
      (certain : Bool) : ∀ p ∈ addSuccessor successors k.target
        { pre with result := none, exception := some (caught k exception certain) }, Q p.2 := by
    intro p hp
    rcases mem_addSuccessor hp with hOld | rfl
    · exact h p hOld
    · refine hEnter _ ?_
      unfold caught
      split
      · split
        · exact hException
        · exact hUnknown _
      · exact hException
  induction hs generalizing successors with
  | nil => exact h
  | cons k hs ih =>
      unfold route
      split
      · exact ih h
      · exact hHandler h k true
      · exact ih (hHandler h k false)

/-- Control goes on with the state after the instruction, or in a handler. -/
theorem all_successors (c : Context) (a : Address) {o : Outcome} (hPost : Q o.post)
    (hRaised : ∀ v, o.flow = .raise v → P v) (hHazard : ∀ v, o.hazard = some v → P v) :
    Ends (c.successors a pre o) (fun A => ∀ p ∈ A, Q p.2) (Inside enough) := by
  have hFlow : Ends (c.flowSuccessors a pre o.post o.flow) (fun A => ∀ p ∈ A, Q p.2) (Inside enough) := by
    cases hKind : o.flow with
    | next =>
        unfold flowSuccessors Context.next
        rw [ends_map]
        split
        · intro p hp
          obtain rfl := List.mem_singleton.mp hp
          exact hPost
        · exact inside_address _ _
    | jump targets => exact fun p hp => (mem_jump hp).2 ▸ hPost
    | stop => exact fun p hp => by cases hp
    | raise exception => exact all_route hEnter hUnknown (hRaised exception hKind) (by simp) _
  unfold successors
  rw [ends_map]
  refine hFlow.imp (fun A hA => ?_) fun _ he => he
  split
  · rename_i exception hSome
    exact all_route hEnter hUnknown (hHazard exception hSome) hA _
  · exact hA

end

/-- What a step does keeps up what is asked of values. -/
theorem apply_upholds {a : Address} (hCalls : ∀ i, c.method.code.at? a = some i → c.CallsUphold D enough i)
    (hRewrites : ∀ i, c.method.code.at? a = some i → i.writesElements = true → D.Rewrites)
    (hMeasures : enough → D.Measures) (hPasses : enough → ∀ i ∈ c.method.code, i.passesAll = true)
    (hFits : D.Fits w s.heap) (hPre : pre.All (D.Holds w)) :
    D.Upholds enough w (c.apply a pre) s fun w' step => step.All (D.Holds w') := by
  cases hi : c.method.code.at? a with
  | none =>
      rw [apply_of_at?_eq_none hi]
      exact inside_address _ _
  | some i =>
      rw [apply_eq c pre hi]
      refine (execute_upholds (hCalls i hi) (hRewrites i hi) hMeasures
        (fun hEnough => hPasses hEnough i (Code.mem_of_at? hi)) hFits hPre hPre.rest a).bind
        fun w' t o hw hFits' ho => Discipline.upholds_ofExcept hFits' ?_
      have hPre' := hPre.imp fun _ hv => D.extend hw hv
      rw [ends_map]
      refine (all_successors (Q := fun u => u.All (D.Holds w'))
        (fun v hv => hPre'.pass (by simp) fun u hu => Option.some.inj hu ▸ hv) (fun _ => Discipline.holds_unknown _)
        c a ho.post ho.raised ho.hazard).imp (fun A hA => ?_) fun _ he => he
      exact ⟨ho.post, hA⟩

end Context

end Semantics

namespace Graph

/-- Something holds of all values in the states of a graph. -/
def All (g : Graph) (P : Value → Prop) : Prop :=
  ∀ id n, g.node? id = some n → n.pre.All P ∧ n.post.All P

variable {g : Graph} {P : Value → Prop}

theorem All.imp {P' : Value → Prop} (h : g.All P) (hImp : ∀ v, P v → P' v) : g.All P' :=
  fun id n hn => ⟨(h id n hn).1.imp hImp, (h id n hn).2.imp hImp⟩

theorem all_start (method : Method) (entry : State) : (Graph.start method entry).All P :=
  fun id n hn => by simp [node?, start] at hn

theorem All.cut (h : g.All P) (ceiling : Ceiling) (parent : Option NodeId) : (g.cut ceiling parent).All P := by
  intro id n hn
  rw [node?_cut] at hn
  split at hn
  · obtain ⟨old, hOld, rfl⟩ := Option.map_eq_some_iff.mp hn
    exact h id old hOld
  · exact h id n hn

theorem All.add (h : g.All P) {pre post : State} (hPre : pre.All P) (hPost : post.All P) (a : Address)
    (parent : Option NodeId) : (g.add a pre post parent).All P := by
  intro id n hn
  rw [node?_add] at hn
  split at hn
  · obtain rfl := Option.some.inj hn
    exact ⟨hPre, hPost⟩
  · split at hn
    · obtain ⟨old, hOld, rfl⟩ := Option.map_eq_some_iff.mp hn
      exact h id old hOld
    · exact h id n hn

/-- What is certain of a call has been in a register of some node. -/
theorem All.verdict? (h : g.All P) (hUnknown : P (.unknown .object)) {e : Effect}
    (he : g.verdict? = some e) : e.All P := by
  rintro v rfl
  obtain ⟨x, hReturns, hEffect⟩ := returns_of_verdict? he
  obtain ⟨p, ps, hSome⟩ := List.exists_cons_of_ne_nil hReturns.ends
  obtain ⟨hn, hTerminal⟩ := mem_terminals.mp (show (p.1, p.2) ∈ g.terminals by rw [hSome]; exact .head _)
  have hReturned := hReturns.same p.1 p.2 hn hTerminal
  cases x with
  | none => cases hEffect
  | some u =>
      obtain rfl : v = u := by cases hEffect; rfl
      unfold returned? at hReturned
      split at hReturned
      · cases hReturned
      · rename_i src _
        cases hRead : p.2.post.read src with
        | error e => simp [hRead, Except.toOption] at hReturned
        | ok y =>
            obtain rfl : y = v := by simpa [hRead, Except.toOption] using hReturned
            exact (h p.1 p.2 hn).2.read hUnknown hRead
      · cases hReturned

end Graph

theorem State.all_startWith {P : Value → Prop} {method : Method} {values : List Value} {entry : State}
    (hValues : ∀ v ∈ values, P v) (hEntry : method.startWith? values = some entry) : entry.All P := by
  unfold Method.startWith? at hEntry
  split at hEntry
  · obtain rfl := Option.some.inj hEntry
    refine ⟨fun v hv => ?_, by simp [State.blank], by simp [State.blank]⟩
    rcases List.mem_append.mp hv with hLocal | hParam
    · cases List.eq_of_mem_replicate hLocal
    · rcases List.mem_append.mp hParam with hPassed | hRest
      · obtain ⟨u, hu, hSame⟩ := List.mem_map.mp hPassed
        exact Option.some.inj hSame ▸ hValues u hu
      · cases List.eq_of_mem_replicate hRest
  · cases hEntry

namespace Machine

open Exploration Semantics

variable {ω : Type} {D : Discipline ω} {w : ω} {enough : Prop} {m : Machine}

/-- What an exploration keeps up: in some world that fits the heap, something holds of all values in the
graph and in the queue. -/
def Kept (D : Discipline ω) (w : ω) (q : List Pending) (g : Graph) (_ : List (Address × Nat))
    (s : Supply) : Prop :=
  ∃ w', D.Extends w w' ∧ D.Fits w' s.heap ∧ g.All (D.Holds w') ∧ ∀ p ∈ q, p.pre.All (D.Holds w')

theorem preserves_kept (maxVisits : Nat) {c : Context} (w : ω)
    (hApply : ∀ a pre w s, D.Fits w s.heap → pre.All (D.Holds w) →
      D.Upholds enough w (c.apply a pre) s fun w' step => step.All (D.Holds w')) :
    Preserves maxVisits c (Kept D w) fun e _ => Inside enough e where
  nodes p q g v s h _ := by
    obtain ⟨w', hw, hFits, hGraph, hQueue⟩ := h
    exact ⟨w', hw, hFits, hGraph.cut _ _, fun r hr => hQueue r (.tail _ hr)⟩
  visits p q g v s h _ _ := by
    obtain ⟨w', hw, hFits, hGraph, hQueue⟩ := h
    exact ⟨w', hw, hFits, hGraph.cut _ _, fun r hr => hQueue r (.tail _ hr)⟩
  record p q g v s h _ _ := by
    obtain ⟨w₁, hw₁, hFits, hGraph, hQueue⟩ := h
    have hPre := hQueue p (.head _)
    refine Run.Ends.imp (hApply p.address p.pre w₁ s hFits hPre)
      (fun step t ⟨w₂, hw₂, hFits₂, hStep⟩ => ?_) fun _ _ he => he
    refine ⟨w₂, D.trans hw₁ hw₂, hFits₂, ?_, fun r hr => ?_⟩
    · exact (hGraph.imp fun _ hv => D.extend hw₂ hv).add (hPre.imp fun _ hv => D.extend hw₂ hv) hStep.post _ _
    · rcases List.mem_append.mp hr with hOld | hNew
      · exact (hQueue r (.tail _ hOld)).imp fun _ hv => D.extend hw₂ hv
      · obtain ⟨x, hx, rfl⟩ := List.mem_map.mp hNew
        exact hStep.successors x hx

/-- What is asked of the calls that a method makes. -/
def CallsKeep (call : Method → List Value → Run (Option Effect)) (D : Discipline ω) (enough : Prop)
    (cs : Classes) : Prop :=
  ∀ r callee, cs.method? r = some callee → ∀ w values s, D.Fits w s.heap → (∀ v ∈ values, D.Holds w v) →
    D.Upholds enough w (call callee values) s fun w' effect => ∀ e, effect = some e → e.All (D.Holds w')

theorem CallsKeep.callsUphold {call : Method → List Value → Run (Option Effect)} {method : Method}
    (h : CallsKeep call D enough m.classes) (i : Instruction Address) :
    (⟨m.classes, method, call⟩ : Context).CallsUphold D enough i := by
  intro kind r args _ _ callee hCallee
  unfold Context.callee? at hCallee
  split at hCallee
  · exact h r callee hCallee
  · exact h r callee hCallee
  · cases hCallee

/-- An exploration keeps up what is asked of values if it holds of those that it starts with. -/
theorem explore_upholds {call : Method → List Value → Run (Option Effect)}
    (hCalls : CallsKeep call D enough m.classes) (hRewrites : D.Rewrites) (hMeasures : enough → D.Measures)
    {method : Method} (hPasses : enough → ∀ i ∈ method.code, i.passesAll = true) {entry : State}
    {s : Supply} (hFits : D.Fits w s.heap) (hEntry : entry.All (D.Holds w)) :
    D.Upholds enough w (m.explore call method entry) s fun w' g => g.All (D.Holds w') := by
  unfold explore
  split
  · exact Discipline.upholds_pure hFits (Graph.all_start _ _)
  · unfold Discipline.Upholds
    rw [Run.ends_bind, Run.ends_budget, Run.ends_bind]
    have hPreserves := preserves_kept m.limits.maxVisits (c := ⟨m.classes, method, call⟩) w
      fun a pre w s hFits hPre => Context.apply_upholds (a := a) (fun i _ => hCalls.callsUphold i)
        (fun _ _ _ => hRewrites) hMeasures hPasses hFits hPre
    have hStart : Kept D w [⟨none, 0, entry⟩] (.start method entry) [] s :=
      ⟨w, D.refl w, hFits, Graph.all_start _ _, by simpa using hEntry⟩
    refine (rounds_ends (e := ⟨.start method entry, [], [⟨none, 0, entry⟩]⟩) hPreserves hStart).imp
      (fun e t ⟨w', hw, hFits', hGraph, _⟩ => ⟨w', hw, hFits', hGraph⟩) fun _ _ he => he

/-- A nested call keeps up what is asked of values if the run of its body does, also when that fails. -/
theorem callWith_upholds {run : Method → State → Run Graph} {callee : Method} {values : List Value}
    {s : Supply} (hFrugal : ∀ entry, Run.Frugal (run callee entry))
    (hRun : ∀ entry, entry.All (D.Holds w) →
      D.Upholds enough w (run callee entry) s fun w' g => g.All (D.Holds w'))
    (hFits : D.Fits w s.heap) (hValues : ∀ v ∈ values, D.Holds w v) :
    D.Upholds enough w (callWith run callee values) s
      fun w' effect => ∀ e, effect = some e → e.All (D.Holds w') := by
  unfold callWith Discipline.Upholds
  rw [Run.ends_bind, Run.ends_budget]
  split
  · exact Discipline.upholds_pure hFits (by simp)
  · split
    · exact Discipline.upholds_pure hFits (by simp)
    · rename_i entry hEntry
      rw [Run.ends_bind, Run.ends_attempt]
      have hGrows := (hFrugal entry s).1
      have hEnds := hRun entry (State.all_startWith hValues hEntry)
      unfold Discipline.Upholds Run.Ends at hEnds
      unfold Run.Ends
      split at hEnds
      · rename_i g t hResult
        obtain ⟨w', hw, hFits', hGraph⟩ := hEnds
        exact ⟨w', hw, hFits', fun e he => hGraph.verdict? (Discipline.holds_unknown _) he⟩
      · rename_i e t hResult
        rw [hResult] at hGrows
        -- the heap that a failed run leaves has only grown
        have hNone : D.Upholds enough w (pure (none : Option Effect)) t
            fun w' effect => ∀ e, effect = some e → e.All (D.Holds w') :=
          Discipline.upholds_pure (D.grow hFits hGrows) (by simp)
        cases e with
        | outOfBounds => exact hEnds
        | _ => exact hNone

/-- A run and all calls below it keep up what is asked of values. -/
theorem run_upholds (hRewrites : D.Rewrites) (hMeasures : enough → D.Measures)
    (hLocals : enough → ∀ r callee, m.classes.method? r = some callee → ∀ i ∈ callee.code, i.passesAll = true)
    (depth : Nat) {method : Method} (hPasses : enough → ∀ i ∈ method.code, i.passesAll = true)
    {entry : State} {s : Supply} (hFits : D.Fits w s.heap) (hEntry : entry.All (D.Holds w)) :
    D.Upholds enough w (m.run depth method entry) s fun w' g => g.All (D.Holds w') := by
  induction depth generalizing w method entry s with
  | zero =>
      refine explore_upholds (fun r callee _ w values s hFits _ => ?_) hRewrites hMeasures hPasses hFits hEntry
      exact Discipline.upholds_pure hFits (by simp)
  | succ depth ih =>
      refine explore_upholds (fun r callee hCallee w values s hFits hValues => ?_) hRewrites hMeasures
        hPasses hFits hEntry
      exact callWith_upholds (run_frugal depth callee)
        (fun entry hEntry => ih (fun hEnough => hLocals hEnough r callee hCallee) hFits hEntry) hFits hValues

/-- What the calls at a depth keep up. -/
theorem callAt_keeps (hRewrites : D.Rewrites) (hMeasures : enough → D.Measures)
    (hLocals : enough → ∀ r callee, m.classes.method? r = some callee → ∀ i ∈ callee.code, i.passesAll = true)
    (depth : Nat) : CallsKeep (m.callAt depth) D enough m.classes := by
  intro r callee hCallee w values s hFits hValues
  unfold callAt
  cases m.limits.maxDepth - depth with
  | zero => exact Discipline.upholds_pure hFits (by simp)
  | succ below =>
      exact callWith_upholds (run_frugal below callee)
        (fun entry hEntry => run_upholds hRewrites hMeasures hLocals below
          (fun hEnough => hLocals hEnough r callee hCallee) hFits hEntry) hFits hValues

end Machine

end Dalvik
