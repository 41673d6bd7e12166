import Dalvik.Proofs.Agreement
import Dalvik.Proofs.Consistency
import Dalvik.Proofs.Routing
import Dalvik.Proofs.Throwing

/-!
The frame of a step: which registers it may change, and where it may lead. Both are bounded by what an
instruction says of itself: the register that it assigns, the places that it names, whether it may throw and
whether it does more than assign. Registers that an instruction does not name change only along with an instance
that one of its operands holds.
-/

namespace Dalvik

/-- A register holds the instance of an identity. -/
def State.HoldsAt (s : State) (r : Register) (id : Nat) : Prop := ∃ v, s.peek? r = some v ∧ v.id? = some id

/-- Why an instruction may change a register: it assigns it, casts what it holds, constructs the object in
it, or changes an instance that both this register and an operand hold. -/
inductive Instruction.Changes (i : Instruction Address) (s : State) (r : Register) : Prop where
  | assigns (h : i.writes? = some r)
  | casts (type : Descriptor) (h : i = .checkCast r type)
  | constructs (kind : InvokeKind) (m : MethodReference) (args : List Register)
      (h : i = .invoke kind m (r :: args)) (hConstructor : m.isConstructor = true)
  | shares (hEffect : i.hasSideEffect = true) (q : Register) (id : Nat) (hRead : q ∈ i.reads)
      (hOperand : s.HoldsAt q id) (hHolds : s.HoldsAt r id)

/-- Where a step may lead, with the states that it leads there with: on to the next instruction or to a place
that the instruction names with the state after it, or to a handler with the state before it. -/
inductive Semantics.Context.Reaches (c : Context) (a : Address) (i : Instruction Address) (pre post : State) :
    Address × State → Prop where
  | next {b : Address} (hFalls : i.fallsThrough = true) (hNext : c.method.code.next? a = some b) :
      Reaches c a i pre post (b, post)
  | target {b : Address} (hNamed : b ∈ i.targets) : Reaches c a i pre post (b, post)
  | handler {h : Handler} (hThrows : i.mayThrow = true) (hCovers : h ∈ c.method.handlersAt a) (x : Value) :
      Reaches c a i pre post (h.target, entering pre x)

namespace State

variable {keep : Register → Prop} {pre s t : State}

theorem HoldsAt.of_read {q : Register} {v : Value} {id : Nat} (h : pre.read q = .ok v) (hid : v.id? = some id) :
    pre.HoldsAt q id := by
  obtain ⟨_, hv⟩ := (read_eq_ok_iff pre q v).mp h
  cases hHeld : pre.peek? q with
  | none =>
      rw [hHeld] at hv
      subst hv
      cases hid
  | some w =>
      rw [hHeld] at hv
      obtain rfl : w = v := hv
      exact ⟨w, hHeld, hid⟩

theorem Agrees.assign (h : pre.Agrees keep s) {dst : Register} (hDst : ¬ keep dst) (v : Value) :
    Ends (s.assign dst v) (fun t => pre.Agrees keep t) fun _ => True := by
  have hShape := (SameShape.refl s).ends_assign dst v
  cases hs : s.assign dst v with
  | error e => trivial
  | ok t =>
      rw [hs] at hShape
      refine ⟨h.shape.trans ⟨hShape.locals.symm, hShape.params.symm⟩, fun r hr => ?_⟩
      have hOther : dst ≠ r := fun hSame => hDst (hSame ▸ hr)
      rw [(registers_assign hs).1, List.getElem?_set_ne hOther]
      exact h.registers r hr

/-- A change of an instance leaves the registers alone that do not hold it. -/
theorem Agrees.updateInstance (h : pre.Agrees keep s) {id : Nat} (hFree : ∀ r, keep r → ¬ pre.HoldsAt r id)
    (v : Value) : pre.Agrees keep (s.updateInstance id v) := by
  have hShape := (SameShape.refl s).updateInstance id v
  refine ⟨h.shape.trans ⟨hShape.locals.symm, hShape.params.symm⟩, fun r hr => ?_⟩
  rw [registers_updateInstance, List.getElem?_map, ← h.registers r hr]
  cases hHeld : pre.registers[r]? with
  | none => rfl
  | some w =>
      cases w with
      | none => rfl
      | some w =>
          have hOther : w.id? ≠ some id := fun hid => hFree r hr ⟨w, by simp [peek?, hHeld], hid⟩
          simp [replaceInstance, hOther]

end State

namespace Semantics

variable {keep : Register → Prop} {i : Instruction Address} {pre post : State}

/-- Nothing that is kept holds the instance that a value is. -/
def Spares (keep : Register → Prop) (pre : State) (v : Value) : Prop :=
  ∀ id, v.id? = some id → ∀ r, keep r → ¬ pre.HoldsAt r id

/-- What has been read is what the step goes on with. -/
theorem ends_read_bind {β : Type} {r : Register} {f : Value → Except Error β} {Q : β → Prop}
    (h : ∀ v, pre.read r = .ok v → Ends (f v) Q fun _ => True) : Ends (pre.read r >>= f) Q fun _ => True := by
  cases hRead : pre.read r with
  | error e => trivial
  | ok v => exact h v hRead

section

variable (hPost : pre.Agrees keep post)

include hPost

theorem clobber_frame {v : Value} (hSpares : Spares keep pre v) : pre.Agrees keep (clobber post v) := by
  unfold clobber
  split
  · rename_i id hid
    split
    · exact hPost.updateInstance (hSpares id hid) _
    · exact hPost
  · exact hPost

theorem foldl_clobber_frame {vs : List Value} (hSpares : ∀ v ∈ vs, Spares keep pre v) :
    pre.Agrees keep (vs.foldl clobber post) := by
  induction vs generalizing post with
  | nil => exact hPost
  | cons v vs ih => exact ih (clobber_frame hPost (hSpares v (.head _))) fun w hw => hSpares w (.tail _ hw)

theorem assign_frame {dst : Register} (hDst : ¬ keep dst) (v : Value) (hazard : Option Value) :
    Ends (Outcome.assign post dst v hazard) (fun o => pre.Agrees keep o.post) fun _ => True := by
  unfold Outcome.assign
  rw [ends_map]
  exact hPost.assign hDst v

theorem opaqueResult_frame {m : MethodReference} {args : List Register}
    (hReceiver : m.isConstructor = true → ∀ r, args.head? = some r → ¬ keep r) :
    Ends (opaqueResult post m args) (fun t => pre.Agrees keep t) fun _ => True := by
  unfold opaqueResult
  split
  · rename_i hConstructor
    split
    · rename_i r hr
      exact hPost.assign (hReceiver hConstructor r hr) _
    · exact hPost
  · split
    · exact hPost
    · exact hPost.pass _ _ _ _

theorem applyEffect_frame {m : MethodReference} {args : List Register}
    (hReceiver : m.isConstructor = true → ∀ r, args.head? = some r → ¬ keep r) (e : Effect) :
    Ends (applyEffect post m args e) (fun o => pre.Agrees keep o.post) fun _ => True := by
  unfold applyEffect
  split
  · split
    · rename_i hConstructor
      split
      · rename_i r hr
        exact assign_frame hPost (hReceiver hConstructor r hr) _ none
      · exact hPost
    · exact hPost.pass _ _ _ _
  · exact hPost
  · exact hPost
  · exact hPost

theorem branch_frame (next : Except Error Address) (cmp : Comparison) (lhs : Register)
    (rhs : Option Register) (target : Address) :
    Ends (branch pre post next cmp lhs rhs target) (fun o => pre.Agrees keep o.post) fun _ => True := by
  rw [branch_eq]
  exact ends_bind_of_all fun v => ends_bind_of_all fun w => ends_bind_of_all fun next => hPost

theorem binary_frame (op : BinaryOp) (type : NumberType) {dst : Register} (lhs : Register) (rhs : Operand)
    (hDst : ¬ keep dst) :
    Ends (binary pre post op type dst lhs rhs) (fun o => pre.Agrees keep o.post) fun _ => True := by
  refine ends_bind_of_all fun v => ends_bind_of_all fun w => ?_
  dsimp only
  split
  · split
    · exact hPost
    · exact assign_frame hPost hDst _ _
    · exact assign_frame hPost hDst _ _
  · exact assign_frame hPost hDst _ _

theorem newArray_frame {dst : Register} (size : Register) (type : Descriptor) (hDst : ¬ keep dst)
    (s : Supply) :
    Run.Ends (newArray pre post dst size type) s (fun o _ => pre.Agrees keep o.post) fun _ _ => True := by
  unfold newArray
  rw [Run.ends_bind, Run.ends_ofExcept]
  refine ends_of_all fun n => ?_
  split
  · rw [Run.ends_bind, Run.ends_onHeap, Run.ends_ofExcept]
    exact assign_frame hPost hDst _ _
  · split
    · exact hPost
    · rw [Run.ends_bind, Run.ends_onHeap, Run.ends_ofExcept]
      exact assign_frame hPost hDst _ _

theorem arrayLength_frame {dst : Register} (array : Register) (hDst : ¬ keep dst) :
    Ends (arrayLength pre post dst array) (fun o => pre.Agrees keep o.post) fun _ => True := by
  refine ends_bind_of_all fun v => ?_
  split
  · exact hPost
  · exact assign_frame hPost hDst _ _
  · exact assign_frame hPost hDst _ _

theorem arrayGet_frame {dst : Register} (array index : Register) (hDst : ¬ keep dst) :
    Ends (arrayGet pre post dst array index) (fun o => pre.Agrees keep o.post) fun _ => True := by
  refine ends_bind_of_all fun n => ends_bind_of_all fun v => ?_
  split
  · exact hPost
  · split
    · exact hPost
    · exact ends_bind_of_all fun n => assign_frame hPost hDst _ _
    · exact assign_frame hPost hDst _ _
  · exact assign_frame hPost hDst _ _

theorem arrayPut_frame (src : Register) {array : Register} (index : Register)
    (hSpares : ∀ v, pre.read array = .ok v → Spares keep pre v) :
    Ends (arrayPut pre post src array index) (fun o => pre.Agrees keep o.post) fun _ => True := by
  refine ends_bind_of_all fun w => ends_bind_of_all fun n => ends_read_bind fun v hv => ?_
  have hFree := hSpares v hv
  split
  · exact hPost
  · split
    · exact hPost
    · exact ends_bind_of_all fun n => hPost.updateInstance (hFree _ rfl) _
    · exact hPost.updateInstance (hFree _ rfl) _
  · exact hPost

theorem fillArray_frame {array : Register} (data : List Literal)
    (hSpares : ∀ v, pre.read array = .ok v → Spares keep pre v) (s : Supply) :
    Run.Ends (fillArray pre post array data) s (fun o _ => pre.Agrees keep o.post) fun _ _ => True := by
  unfold fillArray
  rw [Run.ends_bind, Run.ends_ofExcept]
  cases hRead : pre.read array with
  | error e => trivial
  | ok v =>
      have hFree := hSpares v hRead
      rw [ends_ok]
      split
      · exact hPost
      · split
        · exact hPost
        · split
          · rw [Run.ends_bind, Run.ends_onHeap]
            exact hPost.updateInstance (hFree _ rfl) _
          · exact hPost
      · exact hPost
      · exact hPost

theorem fieldGet_frame {dst : Register} (object : Option Register) (field : FieldReference)
    (hDst : ¬ keep dst) :
    Ends (fieldGet pre post dst object field) (fun o => pre.Agrees keep o.post) fun _ => True := by
  refine ends_bind_of_all fun u => ?_
  dsimp only
  split
  · exact hPost
  · exact assign_frame hPost hDst _ _

theorem fieldPut_frame (src : Register) (object : Option Register) :
    Ends (fieldPut pre post src object) (fun o => pre.Agrees keep o.post) fun _ => True := by
  refine ends_bind_of_all fun v => ends_bind_of_all fun u => ?_
  dsimp only
  split <;> exact hPost

end

namespace Context

variable {c : Context} {a : Address}

theorem opaque_frame (hPost : pre.Agrees keep post) {m : MethodReference} {args : List Register}
    (hReceiver : m.isConstructor = true → ∀ r, args.head? = some r → ¬ keep r) (hazard : Option Value)
    (s : Supply) :
    Run.Ends (Run.ofExcept (opaqueResult post m args) >>= fun post =>
        pure (⟨.next, post, hazard⟩ : Outcome)) s (fun o _ => pre.Agrees keep o.post) fun _ _ => True := by
  rw [Run.ends_bind, Run.ends_ofExcept]
  exact opaqueResult_frame hPost hReceiver

theorem spares_of_mapM_read {args : List Register}
    (hArgs : ∀ q ∈ args, ∀ v, pre.read q = .ok v → Spares keep pre v) {vs : List Value}
    (h : args.mapM pre.read = .ok vs) : ∀ v ∈ vs, Spares keep pre v := by
  induction args generalizing vs with
  | nil =>
      obtain rfl : [] = vs := Except.ok.inj h
      simp
  | cons q args ih =>
      rw [List.mapM_cons] at h
      obtain ⟨v, hv, h⟩ := except_bind_eq_ok.mp h
      obtain ⟨ws, hws, h⟩ := except_bind_eq_ok.mp h
      obtain rfl : v :: ws = vs := Except.ok.inj h
      intro w hw
      rcases List.mem_cons.mp hw with rfl | hw
      · exact hArgs q (.head _) w hv
      · exact ih (fun q hq => hArgs q (.tail _ hq)) hws w hw

theorem invoke_frame (hPost : pre.Agrees keep post) (kind : InvokeKind) {m : MethodReference}
    {args : List Register} (hArgs : ∀ q ∈ args, ∀ v, pre.read q = .ok v → Spares keep pre v)
    (hReceiver : m.isConstructor = true → ∀ r, args.head? = some r → ¬ keep r) (s : Supply) :
    Run.Ends (c.invoke kind m args pre post) s (fun o _ => pre.Agrees keep o.post) fun _ _ => True := by
  unfold invoke
  rw [Run.ends_bind, Run.ends_ofExcept]
  cases hRead : args.mapM pre.read with
  | error e => trivial
  | ok values =>
      rw [ends_ok]
      split
      · exact hPost
      · unfold invokePresent
        split
        · unfold invokeFramework
          rw [Run.ends_bind]
          refine Run.ends_of_forall (fun e t => ?_) fun _ _ => trivial
          cases e with
          | unknown => exact opaque_frame hPost hReceiver _ t
          | _ => exact Run.ends_ofExcept.mpr (applyEffect_frame hPost hReceiver _)
        · have hPost := foldl_clobber_frame hPost (spares_of_mapM_read hArgs hRead)
          rw [invokeOther_eq, Run.ends_bind]
          refine Run.ends_of_forall (fun e t => ?_) fun _ _ => trivial
          cases e with
          | none => exact opaque_frame hPost hReceiver _ t
          | some e =>
              dsimp only [conclude]
              split
              · exact opaque_frame hPost hReceiver none t
              · exact Run.ends_ofExcept.mpr (applyEffect_frame hPost hReceiver e)

/-- An instruction changes no register but those that it has a reason to change. -/
theorem execute_frame (hPost : pre.Agrees (fun r => ¬ i.Changes pre r) post) (s : Supply) :
    Run.Ends (c.execute a i pre post) s (fun o _ => pre.Agrees (fun r => ¬ i.Changes pre r) o.post)
      fun _ _ => True := by
  have hPure {x : Except Error Outcome}
      (h : Ends x (fun o => pre.Agrees (fun r => ¬ i.Changes pre r) o.post) fun _ => True) :
      Run.Ends (Run.ofExcept x) s (fun o _ => pre.Agrees (fun r => ¬ i.Changes pre r) o.post)
        fun _ _ => True :=
    Run.ends_ofExcept.mpr h
  have hDst {dst : Register} (h : i.writes? = some dst) : ¬ ¬ i.Changes pre dst := not_not_intro (.assigns h)
  have hSpares (hEffect : i.hasSideEffect = true) : ∀ q ∈ i.reads, ∀ v, pre.read q = .ok v →
      Spares (fun r => ¬ i.Changes pre r) pre v :=
    fun q hq v hv id hid r hr hHolds => hr (.shares hEffect q id hq (.of_read hv hid) hHolds)
  cases i with
  | nop => exact hPost
  | returnVoid => exact hPost
  | goto target => exact hPost
  | const dst l =>
      unfold execute
      rw [Run.ends_bind, Run.ends_onHeap, Run.ends_ofExcept]
      exact assign_frame hPost (hDst rfl) _ _
  | move dst src => exact hPure (ends_bind_of_all fun v => assign_frame hPost (hDst rfl) _ _)
  | moveResult dst => exact hPure (assign_frame hPost (hDst rfl) _ _)
  | moveException dst => exact hPure (assign_frame hPost (hDst rfl) _ _)
  | returnValue src => exact hPure (ends_bind_of_all fun v => hPost)
  | throw src =>
      refine hPure (ends_bind_of_all fun v => ?_)
      split <;> exact hPost
  | branch cond lhs rhs target => exact hPure (branch_frame hPost _ cond lhs rhs target)
  | switch src cases =>
      refine hPure (ends_bind_of_all fun next => ends_bind_of_all fun v => ?_)
      split <;> exact hPost
  | compare kind dst lhs rhs =>
      exact hPure (ends_bind_of_all fun v => ends_bind_of_all fun w => assign_frame hPost (hDst rfl) _ _)
  | unary op dst src => exact hPure (ends_bind_of_all fun v => assign_frame hPost (hDst rfl) _ _)
  | binary op type dst lhs rhs => exact hPure (binary_frame hPost op type lhs rhs (hDst rfl))
  | newInstance dst d => exact hPure (assign_frame hPost (hDst rfl) _ _)
  | checkCast r d =>
      refine hPure (ends_bind_of_all fun v => ?_)
      split
      · exact hPost
      · exact assign_frame hPost (not_not_intro (.casts d rfl)) _ _
      · exact hPost
  | instanceOf dst src d =>
      refine hPure (ends_bind_of_all fun v => ?_)
      split <;> exact assign_frame hPost (hDst rfl) _ _
  | newArray dst size d => exact newArray_frame hPost size d (hDst rfl) s
  | arrayLength dst array => exact hPure (arrayLength_frame hPost array (hDst rfl))
  | arrayGet dst array index => exact hPure (arrayGet_frame hPost array index (hDst rfl))
  | arrayPut src array index =>
      exact hPure (arrayPut_frame hPost src index (hSpares rfl array (.tail _ (.head _))))
  | fillArray array data => exact fillArray_frame hPost data (hSpares rfl array (.head _)) s
  | fieldGet dst o field => exact hPure (fieldGet_frame hPost o field (hDst rfl))
  | fieldPut src o field => exact hPure (fieldPut_frame hPost src o)
  | invoke kind m args =>
      refine invoke_frame hPost kind (hSpares rfl) (fun hConstructor r hr => not_not_intro ?_) s
      obtain ⟨rest, rfl⟩ := List.head?_eq_some_iff.mp hr
      exact .constructs kind m rest rfl hConstructor

end Context

end Semantics

/-- Whether the instruction does nothing but assign a register, unless it throws. -/
def Instruction.isAssignment {τ : Type} : Instruction τ → Bool
  | const _ _ | move _ _ | moveResult _ | unary _ _ _ | binary _ _ _ _ _ | compare _ _ _ _
  | instanceOf _ _ _ => true
  | _ => false

/-- An instruction has assigned its register and gone on. -/
structure Outcome.Assigns (i : Instruction Address) (post : State) (o : Outcome) : Prop where
  flow : o.flow = .next
  hazard : o.hazard = none
  assigns : ∃ dst v, i.writes? = some dst ∧ post.assign dst v = .ok o.post

namespace Instruction

variable {i : Instruction Address}

/-- What neither throws nor does more than assign a register assigns one, or does nothing. -/
theorem eq_nop_or_isAssignment (hEffect : i.hasSideEffect = false) (hSafe : i.mayThrow = false) :
    i = .nop ∨ i.isAssignment = true := by
  cases i with
  | nop => exact .inl rfl
  | const | move | moveResult | compare | unary | binary | instanceOf => exact .inr rfl
  | fieldGet => cases hSafe
  | newArray | arrayLength | arrayGet | checkCast => cases hSafe
  | _ => cases hEffect

theorem writes_of_isAssignment (h : i.isAssignment = true) :
    i.hasSideEffect = false ∧ ∃ dst, i.writes? = some dst := by
  cases i with
  | const dst | move dst | moveResult dst | unary _ dst | binary _ _ dst | compare _ dst | instanceOf dst =>
      exact ⟨rfl, dst, rfl⟩
  | _ => cases h

/-- Only a jump without a condition leads to no next instruction. -/
theorem exists_goto (hBranch : i.isBranch = true) (hFalls : i.fallsThrough = false) : ∃ t, i = .goto t := by
  cases i with
  | goto t => exact ⟨t, rfl⟩
  | branch | switch => cases hFalls
  | _ => cases hBranch

end Instruction

namespace Semantics

variable {c : Context} {i : Instruction Address} {pre post : State} {a : Address}

theorem ends_assigns {dst : Register} {v : Value} (hDst : i.writes? = some dst) :
    Ends (Outcome.assign post dst v none) (Outcome.Assigns i post) fun _ => True := by
  unfold Outcome.assign
  cases hNow : post.assign dst v with
  | error e => trivial
  | ok s => exact ⟨rfl, rfl, dst, v, hDst, hNow⟩

/-- A quotient that does not throw is assigned. -/
theorem binary_assigns {op : BinaryOp} {type : NumberType} {dst lhs : Register} {rhs : Operand}
    (hSafe : (Instruction.binary op type dst lhs rhs : Instruction Address).mayThrow = false) :
    Ends (binary pre post op type dst lhs rhs) (Outcome.Assigns (.binary op type dst lhs rhs) post)
      fun _ => True := by
  rw [binary_of_safe hSafe]
  exact ends_bind_of_all fun v => ends_bind_of_all fun w => ends_assigns rfl

namespace Context

theorem execute_assigns (pre post : State) (hAssign : i.isAssignment = true) (hSafe : i.mayThrow = false)
    (s : Supply) :
    Run.Ends (c.execute a i pre post) s (fun o _ => o.Assigns i post) fun _ _ => True := by
  have hPure {x : Except Error Outcome} (h : Ends x (Outcome.Assigns i post) fun _ => True) :
      Run.Ends (Run.ofExcept x) s (fun o _ => o.Assigns i post) fun _ _ => True :=
    Run.ends_ofExcept.mpr h
  cases i with
  | const dst l =>
      unfold execute
      rw [Run.ends_bind, Run.ends_onHeap, Run.ends_ofExcept]
      exact ends_assigns rfl
  | move dst src => exact hPure (ends_bind_of_all fun v => ends_assigns rfl)
  | moveResult dst => exact hPure (ends_assigns rfl)
  | compare kind dst lhs rhs =>
      exact hPure (ends_bind_of_all fun v => ends_bind_of_all fun w => ends_assigns rfl)
  | unary op dst src => exact hPure (ends_bind_of_all fun v => ends_assigns rfl)
  | binary op type dst lhs rhs => exact hPure (binary_assigns hSafe)
  | instanceOf dst src d =>
      refine hPure (ends_bind_of_all fun v => ?_)
      split <;> exact ends_assigns rfl
  | _ => cases hAssign

variable {s t : Supply} {step : Step}

/-- An instruction that neither throws nor does more than assign changes nothing besides its register. -/
theorem apply_quiet (hi : c.method.code.at? a = some i) (hEffect : i.hasSideEffect = false)
    (hSafe : i.mayThrow = false) (h : c.apply a pre s = (.ok step, t)) :
    ∃ b, c.method.code.next? a = some b ∧ step.successors = [(b, step.post)] ∧ step.post.result = none ∧
      step.post.exception = none ∧ pre.Agrees (fun r => i.writes? ≠ some r) step.post := by
  obtain ⟨j, o, hj, hDoes, hSuccessors, hPost⟩ := exists_outcome h
  obtain rfl := Option.some.inj (hj.symm.trans hi)
  rw [hPost]
  rcases Instruction.eq_nop_or_isAssignment hEffect hSafe with rfl | hAssign
  · obtain ⟨hOutcome, _⟩ := Prod.mk.inj hDoes
    obtain rfl := Except.ok.inj hOutcome
    obtain ⟨b, hNext, hLeads⟩ := successors_next rfl rfl hSuccessors
    exact ⟨b, hNext, hLeads, rfl, rfl, ⟨rfl, rfl⟩, fun _ _ => rfl⟩
  · have hEnds := execute_assigns (c := c) (a := a) pre { pre with result := none, exception := none } hAssign
      hSafe s
    unfold Run.Ends at hEnds
    rw [hDoes] at hEnds
    obtain ⟨hFlow, hHazard, dst, v, hDst, hNow⟩ := hEnds
    obtain ⟨b, hNext, hLeads⟩ := successors_next hFlow hHazard hSuccessors
    obtain ⟨_, hResult, hException⟩ := State.registers_assign hNow
    have hSame : pre.Agrees (fun r => j.writes? ≠ some r) { pre with result := none, exception := none } :=
      ⟨⟨rfl, rfl⟩, fun _ _ => rfl⟩
    have hAgrees := hSame.assign (not_not_intro hDst) v
    rw [hNow] at hAgrees
    exact ⟨b, hNext, hLeads, hResult, hException, hAgrees⟩

/-- An assignment that does not throw goes on to the next instruction with its register changed. -/
theorem apply_assigns (hi : c.method.code.at? a = some i) (hAssign : i.isAssignment = true)
    (hSafe : i.mayThrow = false) (h : c.apply a pre s = (.ok step, t)) :
    ∃ b dst, i.writes? = some dst ∧ c.method.code.next? a = some b ∧ step.successors = [(b, step.post)] ∧
      pre.Agrees (· ≠ dst) step.post := by
  obtain ⟨hEffect, dst, hDst⟩ := Instruction.writes_of_isAssignment hAssign
  obtain ⟨b, hNext, hLeads, _, _, hAgrees⟩ := apply_quiet hi hEffect hSafe h
  refine ⟨b, dst, hDst, hNext, hLeads, hAgrees.mono fun r hr hWrites => hr ?_⟩
  exact Option.some.inj (hWrites.symm.trans hDst)

/-- Control goes only where an instruction may send it. -/
theorem reaches_of_execute {o : Outcome} {A : List (Address × State)} (hLapse : c.CallsLapse)
    (hDoes : c.execute a i pre { pre with result := none, exception := none } s = (.ok o, t))
    (h : c.successors a pre o = .ok A) : ∀ p ∈ A, c.Reaches a i pre o.post p := by
  have hRespects : Run.Ends (c.execute a i pre { pre with result := none, exception := none }) s
      (fun o _ => Respects c a i pre o) fun e _ => Lapses c a i pre e :=
    execute_ends hLapse (sameShape_pass none none) i s
  have hObeys : Run.Ends (c.execute a i pre { pre with result := none, exception := none }) s
      (fun o _ => o.Obeys i) fun _ _ => True :=
    execute_obeys rfl pre a i s
  unfold Run.Ends at hRespects hObeys
  rw [hDoes] at hRespects hObeys
  obtain ⟨_, hFlow⟩ := hRespects
  have hHandled {x : Value} {B : List (Address × State)} (hThrows : i.mayThrow = true)
      (hB : ∀ p ∈ B, c.Reaches a i pre o.post p) :
      ∀ p ∈ route pre x B (c.method.handlersAt a), c.Reaches a i pre o.post p := by
    intro p hp
    rcases mem_route hp with hOld | ⟨k, hk, v, rfl⟩
    · exact hB p hOld
    · exact .handler hThrows hk v
  have hGoes : Ends (c.flowSuccessors a pre o.post o.flow) (fun B => ∀ p ∈ B, c.Reaches a i pre o.post p)
      fun _ => True := by
    unfold flowSuccessors
    cases hKind : o.flow with
    | next =>
        dsimp only
        cases hNext : c.next a with
        | error e => trivial
        | ok b =>
            intro p hp
            obtain rfl : p = (b, o.post) := List.mem_singleton.mp hp
            rw [hKind] at hFlow
            exact .next hFlow (next_eq_ok_iff.mp hNext)
    | jump ts =>
        intro p hp
        obtain ⟨hMem, hState⟩ := mem_jump hp
        obtain ⟨b, u⟩ := p
        obtain rfl : u = o.post := hState
        rw [hKind] at hFlow
        rcases hFlow.2 b hMem with hNamed | hNext
        · exact .target hNamed
        · cases hFalls : i.fallsThrough with
          | true => exact .next hFalls (next_eq_ok_iff.mp hNext)
          | false =>
              obtain ⟨target, rfl⟩ := Instruction.exists_goto (hObeys.jumps ts hKind) hFalls
              obtain ⟨hOutcome, _⟩ := Prod.mk.inj hDoes
              obtain rfl := Except.ok.inj hOutcome
              obtain rfl := Flow.jump.inj hKind
              exact .target hMem
    | stop => exact fun p hp => absurd hp (List.not_mem_nil)
    | raise x => exact hHandled (hObeys.raises x hKind) (by simp)
  unfold successors at h
  cases hSome : c.flowSuccessors a pre o.post o.flow with
  | error e =>
      rw [hSome] at h
      cases h
  | ok B =>
      rw [hSome] at h hGoes
      obtain rfl := Except.ok.inj h
      dsimp only
      split
      · rename_i x hHazard
        exact hHandled (hObeys.hazard (by rw [hHazard]; nofun)) hGoes
      · exact hGoes

/-- A step does no more than its instruction says of itself. -/
structure Heeds (c : Context) (a : Address) (i : Instruction Address) (pre : State) (s : Supply)
    (step : Step) : Prop where
  /-- An exception is raised, or possible besides, only if the instruction may throw. -/
  throws : ∀ o t, c.execute a i pre { pre with result := none, exception := none } s = (.ok o, t) →
    (∃ x, o.flow = .raise x) ∨ o.hazard ≠ none → i.mayThrow = true
  reaches : ∀ p ∈ step.successors, c.Reaches a i pre step.post p
  /-- An instruction that neither throws nor does more than assign goes on with nothing else changed. -/
  quiet : i.hasSideEffect = false → i.mayThrow = false →
    ∃ b, c.method.code.next? a = some b ∧ step.successors = [(b, step.post)] ∧ step.post.result = none ∧
      step.post.exception = none ∧ pre.Agrees (fun r => i.writes? ≠ some r) step.post
  shape : step.post.SameShape pre
  changes : ∀ r, step.post.registers[r]? ≠ pre.registers[r]? → i.Changes pre r

theorem heeds_of_apply (hLapse : c.CallsLapse) (h : c.apply a pre s = (.ok step, t)) :
    ∃ i, c.method.code.at? a = some i ∧ c.Heeds a i pre s step := by
  obtain ⟨i, o, hi, hDoes, hSuccessors, hPost⟩ := exists_outcome h
  have hObeys : Run.Ends (c.execute a i pre { pre with result := none, exception := none }) s
      (fun o _ => o.Obeys i) fun _ _ => True :=
    execute_obeys rfl pre a i s
  have hSame : pre.Agrees (fun r => ¬ i.Changes pre r) { pre with result := none, exception := none } :=
    ⟨⟨rfl, rfl⟩, fun _ _ => rfl⟩
  have hFrame := execute_frame (c := c) (a := a) hSame s
  have hReaches := reaches_of_execute hLapse hDoes hSuccessors
  unfold Run.Ends at hObeys hFrame
  rw [hDoes] at hObeys hFrame
  dsimp only at hFrame
  rw [← hPost] at hReaches hFrame
  refine ⟨i, hi, fun o' u hDoes' => ?_, hReaches, fun hEffect hSafe => apply_quiet hi hEffect hSafe h, ?_,
    fun r hChanged => ?_⟩
  · obtain ⟨hOutcome, _⟩ := Prod.mk.inj (hDoes.symm.trans hDoes')
    obtain rfl := Except.ok.inj hOutcome
    rintro (⟨x, hx⟩ | hHazard)
    · exact hObeys.raises x hx
    · exact hObeys.hazard hHazard
  · exact ⟨hFrame.shape.locals.symm, hFrame.shape.params.symm⟩
  · by_contra hNone
    exact hChanged (hFrame.registers r hNone).symm

end Context

end Semantics

namespace Machine

/-- What an instruction says of itself bounds what a step of it does: where it leads, whether it raises an
exception, and which registers it changes. -/
theorem apply_heeds (m : Machine) (method : Method) (depth : Nat) {a : Address} {pre : State} {s t : Supply}
    {step : Step} (h : (m.context method depth).apply a pre s = (.ok step, t)) :
    ∃ i, method.code.at? a = some i ∧ (m.context method depth).Heeds a i pre s step :=
  Semantics.Context.heeds_of_apply (callsLapse_context m method depth) h

/-- A method that lends an array to a method that is not known. -/
def lendingMethod : Method where
  reference := ⟨⟨"La;"⟩, "run", [], .void⟩
  flags := { static := true }
  locals := 3
  code := [.invoke .static ⟨⟨"Lb;"⟩, "use", [⟨"[I"⟩], .void⟩ [0], .returnVoid, .moveException 2,
    .returnVoid]
  tries := [⟨0, 3, [⟨none, 4⟩]⟩]

/-- A state of `lendingMethod` in which two registers hold the same thing. -/
def lendingState (v : Value) (exception : Option Value) : State where
  locals := [some v, some v, none]
  params := []
  result := none
  exception := exception

/-- After the call nothing is known of the array any more, by either of its registers; in the handler it is
held as before. -/
def lendingStep : Step where
  post := lendingState (.unknown ⟨"[I"⟩) none
  successors := [(3, lendingState (.unknown ⟨"[I"⟩) none),
    (4, lendingState (.array 7 ⟨"[I"⟩ (some 1) (some [.int 0])) (some (.unknown .throwable)))]

theorem apply_heeds_lendingMethod :
    let c := (⟨.empty, {}⟩ : Machine).context lendingMethod 0
    let pre := lendingState (.array 7 ⟨"[I"⟩ (some 1) (some [.int 0])) none
    c.apply 0 pre ⟨.after pre, 1⟩ = (.ok lendingStep, ⟨.after pre, 1⟩) ∧
      ∃ i, lendingMethod.code.at? 0 = some i ∧ c.Heeds 0 i pre ⟨.after pre, 1⟩ lendingStep := by
  have hStep : ((⟨.empty, {}⟩ : Machine).context lendingMethod 0).apply 0
      (lendingState (.array 7 ⟨"[I"⟩ (some 1) (some [.int 0])) none)
      ⟨.after (lendingState (.array 7 ⟨"[I"⟩ (some 1) (some [.int 0])) none), 1⟩ =
      (.ok lendingStep, ⟨.after (lendingState (.array 7 ⟨"[I"⟩ (some 1) (some [.int 0])) none), 1⟩) := rfl
  exact ⟨hStep, apply_heeds ⟨.empty, {}⟩ lendingMethod 0 hStep⟩

end Machine

end Dalvik
