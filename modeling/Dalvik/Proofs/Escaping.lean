import Dalvik.Proofs.Coherence
import Dalvik.Proofs.Descent
import Dalvik.Proofs.Throwing

/-!
What calls leave of arrays. The arguments of a call may come back changed: no register that refers to one of them keeps
what was known of it. What is only reached from an argument, or from a field, is not looked for, so that all that a call
may reach is covered as long as arrays are neither put into arrays nor into fields.
-/

namespace Dalvik

open Relation (TransGen)

namespace Value

variable {u v : Value} {i : Nat}

/-- Code to which a value is passed may change an instance. -/
def Changes (v : Value) (i : Nat) : Prop :=
  v.id? = some i ∧ v.isMutable = true ∧ v.descriptor.isImmutable = false

/-- No array is inside the value. -/
def Shallow (v : Value) : Prop := ∀ u ∈ v.inner, u.arrayId? = none

instance (v : Value) : Decidable v.Shallow := by
  unfold Shallow
  infer_instance

theorem shallow_of_arrayId? (h : v.arrayId? = none) : v.Shallow := by
  simp [Shallow, inner_of_arrayId? h]

theorem arrayId?_of_ids (hv : v.ids = []) (hu : u ∈ v.parts) : u.arrayId? = none := by
  have hNone := id?_of_ids hv hu
  cases u <;> first | rfl | cases hNone

theorem shallow_of_ids (hv : v.ids = []) : v.Shallow := fun _ hu => arrayId?_of_ids hv (List.mem_cons_of_mem v hu)

/-- No value of an array type is immutable. -/
theorem isImmutable_of_isArray {d : Descriptor} (h : d.isArray = true) : d.isImmutable = false := by
  have hHead : d.text.toList.head? = some '[' := of_decide_eq_true h
  have hOther : ∀ e ∈ Descriptor.immutableClasses, e.text.toList.head? ≠ some '[' := by decide
  unfold Descriptor.isImmutable Descriptor.isPrimitive
  rw [Bool.or_eq_false_iff]
  refine ⟨?_, decide_eq_false fun hMem => hOther d hMem hHead⟩
  split
  · rename_i c hText
    rw [hText] at hHead
    obtain rfl := Option.some.inj hHead
    decide
  · rfl

theorem shallow_array_iff {n : Option Nat} {d : Descriptor} {es : Option (List Value)} :
    (array i d n es).Shallow ↔ ∀ vs, es = some vs → ∀ v ∈ vs, v.arrayId? = none := by
  constructor
  · intro h vs hvs v hv
    exact h v (mem_inner_array.mpr ⟨vs, hvs, v, hv, mem_parts_self v⟩)
  · intro h u hu
    obtain ⟨vs, hvs, v, hv, hPart⟩ := mem_inner_array.mp hu
    have hNone := h vs hvs v hv
    rcases List.mem_cons.mp hPart with rfl | hInner
    · exact hNone
    · simp [inner_of_arrayId? hNone] at hInner

theorem arrayId?_coerce (h : v.arrayId? = none) (d : Descriptor) : (v.coerce d).arrayId? = none := by
  rcases v.coerce_eq_or d with hSame | hNone
  · rwa [hSame]
  · exact arrayId?_of_ids hNone (mem_parts_self _)

end Value

/-- Values without arrays inside. No world is needed to say so. -/
def Discipline.shallow : Discipline Unit where
  Extends _ _ := True
  Holds _ v := v.Shallow
  Fits _ _ := True
  refl _ := trivial
  trans _ _ := trivial
  extend _ hv := hv
  grow _ _ := trivial
  plain := Value.shallow_of_ids
  element hArray hv := Value.shallow_of_arrayId? (Value.shallow_array_iff.mp hArray _ rfl _ hv)
  make {_ _ v} _ hMakes := by
    refine ⟨(), trivial, trivial, ?_⟩
    cases hMakes with
    | tracked d vs hvs =>
        refine Value.shallow_array_iff.mpr ?_
        rintro _ ⟨⟩ u hu
        exact Value.arrayId?_of_ids (hvs u hu) (Value.mem_parts_self u)
    | untracked d n => exact Value.shallow_array_iff.mpr nofun
    | _ => exact Value.shallow_of_arrayId? rfl
  intern _ _ := ⟨(), trivial, trivial, Value.shallow_of_arrayId? rfl⟩

namespace State

variable {s : State}

/-- Some register holds an array with elements that are known one by one. -/
def Tracks (s : State) (i : Nat) : Prop := ∃ r d n es, s.peek? r = some (.array i d n (some es))

end State

namespace Semantics

variable {post : State} {values : List Value} {r : Register} {u v : Value}

/-- Where a call may change an instance, no register keeps it. -/
theorem peek?_clobber (h : (clobber post v).peek? r = some u) :
    (∃ d, u = .unknown d) ∨ post.peek? r = some u ∧ ∀ i, v.Changes i → u.id? ≠ some i := by
  unfold clobber at h
  split at h
  · rename_i id hid
    split at h
    · rw [State.peek?_updateInstance] at h
      obtain ⟨w, hw, rfl⟩ := Option.map_eq_some_iff.mp h
      unfold State.replaceInstance
      split
      · exact .inl ⟨_, rfl⟩
      · rename_i hOther
        refine .inr ⟨hw, fun i hi => ?_⟩
        obtain rfl := Option.some.inj (hid.symm.trans hi.1)
        exact hOther
    · rename_i hFixed
      exact .inr ⟨h, fun i hi => absurd (by simp [hi.2.1, hi.2.2]) hFixed⟩
  · rename_i hid
    exact .inr ⟨h, fun i hi => by cases hid.symm.trans hi.1⟩

theorem peek?_foldl_clobber (h : (values.foldl clobber post).peek? r = some u) :
    (∃ d, u = .unknown d) ∨ post.peek? r = some u ∧ ∀ v ∈ values, ∀ i, v.Changes i → u.id? ≠ some i := by
  induction values generalizing post with
  | nil => exact .inr ⟨h, by simp⟩
  | cons v values ih =>
      rcases ih h with hUnknown | ⟨hFirst, hRest⟩
      · exact .inl hUnknown
      · exact (peek?_clobber hFirst).imp id fun h => ⟨h.1, List.forall_mem_cons.mpr ⟨h.2, hRest⟩⟩

end Semantics

/-- What a call leaves if nothing is known of it but its result: a register holds what it has held before, unless a
value that may have been changed, and exceptions are some of a type. -/
structure Outcome.Leaves (o : Outcome) (post : State) (values : List Value) : Prop where
  registers : ∀ r u, o.post.peek? r = some u → (∃ d, u = .unknown d) ∨
    post.peek? r = some u ∧ ∀ v ∈ values, ∀ i, v.Changes i → u.id? ≠ some i
  exception : o.post.exception = post.exception
  raised : ∀ v, o.flow = .raise v → ∃ d, v = .unknown d
  hazard : ∀ v, o.hazard = some v → ∃ d, v = .unknown d

namespace Semantics

variable {post post' : State} {values : List Value}

theorem opaqueResult_leaves (m : MethodReference) (args : List Register) {flow : Flow} {hazard : Option Value}
    (hRaised : ∀ v, flow = .raise v → ∃ d, v = .unknown d) (hHazard : ∀ v, hazard = some v → ∃ d, v = .unknown d) :
    Ends (opaqueResult (values.foldl clobber post) m args) (fun t => Outcome.Leaves ⟨flow, t, hazard⟩ post values)
      fun _ => True := by
  have hSame (result : Option Value) :
      Outcome.Leaves ⟨flow, { values.foldl clobber post with result }, hazard⟩ post values :=
    ⟨fun _ _ => peek?_foldl_clobber, exception_foldl_clobber _ _, hRaised, hHazard⟩
  have hKept : Outcome.Leaves ⟨flow, values.foldl clobber post, hazard⟩ post values := hSame _
  unfold opaqueResult
  split
  · split
    · refine ends_of_eq fun t ht => ⟨fun r u hu => ?_, ?_, hRaised, hHazard⟩
      · rw [State.peek?_assign ht] at hu
        split at hu
        · exact .inl ⟨_, (Option.some.inj hu).symm⟩
        · exact peek?_foldl_clobber hu
      · rw [(State.registers_assign ht).2.2, exception_foldl_clobber]
    · exact hKept
  · split
    · exact hKept
    · exact hSame _

namespace Context

variable {c : Context}

theorem invokeOther_leaves (kind : InvokeKind) (m : MethodReference) (args : List Register) (s : Supply) :
    Run.Ends (c.invokeOther kind m args values post) s (fun o _ => o.Leaves post values) fun _ _ => True := by
  have hOpaque (hazard : Option Value) (hHazard : ∀ v, hazard = some v → ∃ d, v = .unknown d) (t : Supply) :
      Run.Ends (do
        let u ← Run.ofExcept (opaqueResult (values.foldl clobber post) m args)
        return Outcome.nextOr u hazard) t (fun o _ => o.Leaves post values) fun _ _ => True := by
    rw [Run.ends_bind, Run.ends_ofExcept]
    exact opaqueResult_leaves m args nofun hHazard
  have hKept (result : Option Value) (flow : Flow) (hRaised : ∀ v, flow = .raise v → ∃ d, v = .unknown d) :
      Outcome.Leaves ⟨flow, { values.foldl clobber post with result }, none⟩ post values :=
    ⟨fun _ _ => peek?_foldl_clobber, exception_foldl_clobber _ _, hRaised, nofun⟩
  rw [invokeOther_eq, Run.ends_bind]
  refine Run.ends_of_forall (fun effect t => ?_) fun _ _ => trivial
  cases effect with
  | none =>
      refine hOpaque _ (fun v hv => ?_) t
      cases hv
      exact ⟨_, rfl⟩
  | some e =>
      dsimp only [conclude]
      split
      · exact hOpaque none nofun t
      · rename_i hOther
        rw [Run.ends_ofExcept]
        unfold applyEffect
        cases e with
        | returns v =>
            dsimp only
            rw [if_neg hOther]
            exact hKept _ _ nofun
        | void => exact hKept _ _ nofun
        | unknown => exact hKept _ _ nofun
        | throws type =>
            refine hKept _ _ fun v hv => ?_
            cases hv
            exact ⟨_, rfl⟩

theorem invoke_leaves {kind : InvokeKind} {m : MethodReference} {args : List Register} {pre : State}
    (hOther : FrameworkMethod.find? m = none) (hReads : args.mapM pre.read = .ok values)
    (hReceiver : hasNullReceiver kind values = false) (s : Supply) :
    Run.Ends (c.invoke kind m args pre post) s (fun o _ => o.Leaves post values) fun _ _ => True := by
  unfold invoke
  rw [Run.ends_bind, Run.ends_ofExcept, hReads, ends_ok, if_neg (by simp [hReceiver])]
  unfold invokePresent
  rw [hOther]
  exact invokeOther_leaves kind m args s

end Context

end Semantics

theorem State.exists_peek? {s : State} {v : Value} (h : some v ∈ s.registers) : ∃ r, s.peek? r = some v := by
  obtain ⟨r, hr⟩ := List.mem_iff_getElem?.mp h
  exact ⟨r, by simp [State.peek?, hr]⟩

/-- Nothing but the result can have an array inside that has had none. -/
theorem Outcome.Leaves.shallow {o : Outcome} {post : State} {values : List Value} (h : o.Leaves post values)
    (hPost : post.All Value.Shallow) (hReturns : ∀ v, o.post.result = some v → v.Shallow) :
    o.All Value.Shallow := by
  have hUnknown {v : Value} (hv : ∃ d, v = .unknown d) : v.Shallow := by
    obtain ⟨d, rfl⟩ := hv
    exact Value.shallow_of_arrayId? rfl
  refine ⟨⟨fun v hv => ?_, hReturns, fun v hv => ?_⟩, fun v hv => hUnknown (h.raised v hv),
    fun v hv => hUnknown (h.hazard v hv)⟩
  · obtain ⟨r, hr⟩ := State.exists_peek? hv
    rcases h.registers r v hr with hNone | ⟨hOld, _⟩
    · exact hUnknown hNone
    · exact hPost.registers v (Semantics.mem_registers_of_peek? hOld)
  · exact hPost.exception v (h.exception ▸ hv)

/-- If an instruction stores an array, then neither in an array nor in a field. -/
def Instruction.StoresNoArray {τ : Type} (i : Instruction τ) (pre : State) : Prop :=
  match i with
  | .arrayPut src _ _ => (pre.peek? src).bind Value.arrayId? = none
  | .fieldPut src _ _ => (pre.peek? src).bind Value.arrayId? = none
  | _ => True

instance {τ : Type} (i : Instruction τ) (pre : State) : Decidable (i.StoresNoArray pre) :=
  match i with
  | .arrayPut src _ _ | .fieldPut src _ _ => Option.decidableEqNone ((pre.peek? src).bind Value.arrayId?)
  | .nop | .const .. | .move .. | .moveResult _ | .moveException _ | .returnVoid | .returnValue _ | .throw _
  | .goto _ | .branch .. | .switch .. | .compare .. | .unary .. | .binary .. | .newInstance .. | .checkCast ..
  | .instanceOf .. | .newArray .. | .arrayLength .. | .arrayGet .. | .fillArray .. | .fieldGet .. | .invoke .. =>
    instDecidableTrue

namespace Semantics

variable {pre : State} {s t : Supply} {o : Outcome}

theorem shallow_unknown (d : Descriptor) : (Value.unknown d).Shallow := Value.shallow_of_arrayId? rfl

theorem shallow_someException {d : Descriptor} {v : Value} (hv : someException d = some v) : v.Shallow :=
  holds_someException (D := .shallow) (w := ()) hv

theorem arrayPut_shallow (hPre : pre.All Value.Shallow) {src array index : Register}
    (hStores : (Instruction.arrayPut src array index : Instruction Address).StoresNoArray pre) :
    Ends (arrayPut pre { pre with result := none, exception := none } src array index)
      (fun o => o.All Value.Shallow) fun _ => True := by
  have hPost := hPre.rest
  unfold arrayPut
  rw [ends_bind]
  refine ends_of_eq fun x hSrc => ?_
  have hStored : x.arrayId? = none := by
    rcases peek?_or_unknown hSrc with hPeek | rfl
    · change (pre.peek? src).bind Value.arrayId? = none at hStores
      rwa [hPeek] at hStores
    · rfl
  rw [ends_bind]
  refine ends_of_all fun k => ?_
  rw [ends_bind]
  refine ends_of_eq fun v hRead => ?_
  split
  · exact all_raise hPost shallow_unknown _
  · rename_i i d n es
    have hArray : (Value.array i d n es).Shallow := hPre.registers _ (array_of_read hRead).1
    split
    · exact all_raise hPost shallow_unknown _
    · rename_i vs hSlot
      obtain ⟨rfl, _⟩ := slot_eq_tracked hSlot
      rw [ends_bind]
      refine ends_of_all fun p => all_next (hPost.updateInstance i (Value.shallow_array_iff.mpr ?_))
      rintro _ ⟨⟩ u hu
      rcases List.mem_or_eq_of_mem_set hu with hOld | rfl
      · exact Value.shallow_array_iff.mp hArray _ rfl u hOld
      · exact Value.arrayId?_coerce hStored _
    · exact all_nextOr (hPost.updateInstance i (Value.shallow_array_iff.mpr (by simp))) fun _ => shallow_someException
  · exact all_nextOr hPost fun _ => shallow_someException

theorem fillArray_shallow (hPre : pre.All Value.Shallow) (array : Register) (data : List Literal) (s : Supply) :
    Run.Ends (fillArray pre { pre with result := none, exception := none } array data) s
      (fun o _ => o.All Value.Shallow) fun _ _ => True := by
  have hPost := hPre.rest
  have hKeep (d : Descriptor) := all_nextOr hPost fun _ => shallow_someException (d := d)
  unfold fillArray
  rw [Run.ends_bind, Run.ends_ofExcept]
  refine ends_of_eq fun v hRead => ?_
  split
  · exact all_raise hPost shallow_unknown _
  · rename_i i d n es
    have hArray : (Value.array i d (some n) es).Shallow := hPre.registers _ (array_of_read hRead).1
    split
    · exact all_raise hPost shallow_unknown _
    · split
      · rw [Run.ends_bind, Run.ends_onHeap]
        refine all_next (hPost.updateInstance i (Value.shallow_array_iff.mpr ?_))
        rintro _ ⟨⟩ u hu
        rcases mem_overwrite hu with hOld | hFilled
        · cases es with
          | none =>
              rw [List.eq_of_mem_replicate hOld]
              exact Value.arrayId?_of_ids (Value.ids_zero _) (Value.mem_parts_self _)
          | some vs => exact Value.shallow_array_iff.mp hArray _ rfl u hOld
        · obtain ⟨x, hx, rfl⟩ := List.mem_map.mp hFilled
          have hFixed := isMutable_literals _ _ x hx
          exact Value.arrayId?_coerce (by cases x <;> first | rfl | cases hFixed) _
      · exact hKeep _
  · exact hKeep _
  · exact hKeep _

namespace Context

variable {c : Context} {a : Address} {i : Instruction Address}

/-- An instruction gets no array into another one, unless it stores one there or a local method returns such an
array. -/
theorem execute_shallow (hPre : pre.All Value.Shallow) (hStores : i.StoresNoArray pre)
    (hReturns : ∀ v, o.post.result = some v → v.Shallow)
    (hDoes : c.execute a i pre { pre with result := none, exception := none } s = (.ok o, t)) :
    o.All Value.Shallow := by
  have hUpholds (hCalls : c.CallsUphold .shallow False i) (hPlain : i.writesElements = false) :
      o.All Value.Shallow := by
    have hEnds := execute_upholds (D := .shallow) (w := ()) (s := s) hCalls (fun hSome => by simp [hPlain] at hSome)
      False.elim False.elim trivial hPre hPre.rest a
    unfold Discipline.Upholds Run.Ends at hEnds
    rw [hDoes] at hEnds
    obtain ⟨_, _, _, ho⟩ := hEnds
    exact ho
  cases i with
  | arrayPut src array index => exact (arrayPut_shallow hPre hStores).of_eq_ok (Prod.mk.inj hDoes).1
  | fillArray array data =>
      have hEnds := fillArray_shallow hPre array data s
      unfold Run.Ends at hEnds
      change fillArray pre _ array data s = _ at hDoes
      rwa [hDoes] at hEnds
  | invoke kind m args =>
      by_cases hOther : FrameworkMethod.find? m = none
      · change c.invoke kind m args pre _ s = _ at hDoes
        obtain ⟨values, u, hReads, hRest⟩ := Run.bind_eq_ok hDoes
        obtain rfl : s = u := congrArg Prod.snd hReads
        have hReads : args.mapM pre.read = .ok values := congrArg Prod.fst hReads
        cases hReceiver : hasNullReceiver kind values with
        | true =>
            rw [if_pos hReceiver] at hRest
            obtain ⟨rfl, _⟩ := Run.pure_eq_ok hRest
            exact all_raise hPre.rest shallow_unknown _
        | false =>
            have hEnds : Run.Ends (c.invoke _ _ args pre { pre with result := none, exception := none }) s
                (fun o _ => o.Leaves _ values) fun _ _ => True := invoke_leaves hOther hReads hReceiver s
            unfold Run.Ends at hEnds
            rw [hDoes] at hEnds
            exact hEnds.shallow hPre.rest hReturns
      · exact hUpholds (fun _ _ _ hi hNone => by cases hi; exact absurd hNone hOther) rfl
  | _ => exact hUpholds nofun rfl

/-- So does what a step leaves, and every state that it leads to. -/
theorem apply_shallow {step : Step} (hPre : pre.All Value.Shallow)
    (hStores : ∀ i, c.method.code.at? a = some i → i.StoresNoArray pre)
    (hReturns : ∀ v, step.post.result = some v → v.Shallow) (hApply : c.apply a pre s = (.ok step, t)) :
    step.post.All Value.Shallow ∧ ∀ p ∈ step.successors, p.2.All Value.Shallow := by
  obtain ⟨i, o, hi, hDoes, hSuccessors, hPost⟩ := exists_outcome hApply
  rw [hPost] at hReturns
  have ho := execute_shallow hPre (hStores i hi) hReturns hDoes
  have hEnter (v : Value) (hv : v.Shallow) :
      ({ pre with result := none, exception := some v } : State).All Value.Shallow :=
    hPre.pass (by simp) fun u hu => Option.some.inj hu ▸ hv
  have hEnds : Ends (c.successors a pre o) (fun A => ∀ p ∈ A, p.2.All Value.Shallow) (Inside False) :=
    all_successors (Q := fun u => u.All Value.Shallow) hEnter shallow_unknown c a ho.post ho.raised ho.hazard
  exact ⟨hPost ▸ ho.post, hEnds.of_eq_ok hSuccessors⟩

end Context

end Semantics

namespace Graph

variable {g : Graph} {c : Semantics.Context} {maxVisits : Nat} {entry : State} {s t : Supply}
  {log : List Performance}

/-- Arrays get neither into arrays nor into fields: no instruction stores one there, and no result has one inside. -/
def StoresNoArray (g : Graph) (c : Semantics.Context) : Prop :=
  ∀ n ∈ g.nodes.toList.filterMap id, (∀ i ∈ c.method.code.at? n.address, i.StoresNoArray n.pre) ∧
    ∀ v ∈ n.post.result, v.Shallow

instance (g : Graph) (c : Semantics.Context) : Decidable (g.StoresNoArray c) := by
  unfold StoresNoArray
  infer_instance

/-- What a call may reach: an array that is passed, or is inside one, at any depth, and an array that has been stored
in a field on the way to the call. -/
inductive Exposes (g : Graph) (k : NodeId) (values : List Value) (i : Nat) : Prop
  | passed {v : Value} {d : Descriptor} {n : Option Nat} {es : Option (List Value)} (hPassed : v ∈ values)
      (hInside : .array i d n es ∈ v.parts) (hArray : d.isArray = true)
  | stored {p : NodeId} {m : Node} {src : Register} {object : Option Register} {field : FieldReference}
      (hBefore : g.Below p k) (hOther : p ≠ k) (hm : g.node? p = some m)
      (hPut : g.method.code.at? m.address = some (.fieldPut src object field))
      (hStored : (m.pre.peek? src).bind Value.arrayId? = some i)

/-- No array is inside another one in any state before an instruction. -/
theorem Recording.shallow (h : g.Recording c maxVisits entry s log t)
    (hFrugal : ∀ a pre, Run.Frugal (c.apply a pre)) (hEntry : entry.All Value.Shallow)
    (hStores : g.StoresNoArray c) {k : NodeId} {n : Node} (hn : g.node? k = some n) : n.pre.All Value.Shallow := by
  obtain ⟨r, hr, _⟩ := h.records k n hn
  refine h.induct (P := fun _ _ pre => pre.All Value.Shallow) hFrugal hEntry ?_ hn hr
  intro p np rp hnp _ hRecords hParent q hq _ _
  obtain ⟨hOwn, hResult⟩ := hStores np (mem_nodes hnp)
  exact (Semantics.Context.apply_shallow hParent hOwn (fun v hv => hResult v (by rwa [hRecords.post]))
    hRecords.applied).2 q hq

end Graph

namespace Machine

variable {m : Machine} {method : Method} {entry : State} {g : Graph} {k : NodeId} {n : Node} {kind : InvokeKind}
  {ref : MethodReference} {args : List Register} {values : List Value}

/-- What the call of a method that is not emulated leaves in the state after it. -/
theorem leaves_of_execute (h : m.execute method entry = .ok g) (hn : g.node? k = some n)
    (hCall : method.code.at? n.address = some (.invoke kind ref args)) (hOther : FrameworkMethod.find? ref = none)
    (hReads : args.mapM n.pre.read = .ok values) (hReceiver : Semantics.Context.hasNullReceiver kind values = false) :
    ∃ o : Outcome, o.post = n.post ∧ o.Leaves { n.pre with result := none, exception := none } values := by
  obtain ⟨g₀, log, t, rfl, hRecording⟩ := execute_recording h
  obtain ⟨r, _, hRecords⟩ := hRecording.records k n hn
  obtain ⟨i, o, hi, hDoes, _, hPost⟩ := Semantics.Context.exists_outcome hRecords.applied
  obtain rfl := Option.some.inj (hi.symm.trans hCall)
  refine ⟨o, hPost.symm.trans hRecords.post.symm, ?_⟩
  have hEnds : Run.Ends ((m.context method 0).invoke kind ref args n.pre
      { n.pre with result := none, exception := none }) r.before (fun o _ => o.Leaves _ values) fun _ _ => True :=
    Semantics.Context.invoke_leaves hOther hReads hReceiver r.before
  unfold Run.Ends at hEnds
  change (m.context method 0).invoke kind ref args n.pre _ r.before = _ at hDoes
  rwa [hDoes] at hEnds

/-- After a call that is not emulated and has a receiver, a register holds what it has held before or something
unknown, and none holds a tracked array that has been an argument, whichever register it was passed in. If arrays are
put neither into arrays nor into fields, then these are all the arrays that the call can reach. -/
theorem execute_invalidates {m : Machine} {method : Method} {entry : State} {g : Graph} {k : NodeId} {n : Node}
    {kind : InvokeKind} {ref : MethodReference} {args : List Register} {values : List Value}
    (h : m.execute method entry = .ok g) (hn : g.node? k = some n)
    (hCall : method.code.at? n.address = some (.invoke kind ref args)) (hOther : FrameworkMethod.find? ref = none)
    (hReads : args.mapM n.pre.read = .ok values) (hReceiver : Semantics.Context.hasNullReceiver kind values = false) :
    (∀ r v, n.post.peek? r = some v → (∃ d, v = .unknown d) ∨ n.pre.peek? r = some v) ∧
      (∀ i d l es, .array i d l es ∈ values → d.isArray = true → ¬ n.post.Tracks i) ∧
      ((∀ v ∈ entry.held, v.Shallow) → g.StoresNoArray (m.context method 0) →
        ∀ i, g.Exposes k values i → ¬ n.post.Tracks i) := by
  obtain ⟨o, hPost, hLeaves⟩ := leaves_of_execute h hn hCall hOther hReads hReceiver
  have hRegisters := hPost ▸ hLeaves.registers
  have hArgument (i : Nat) (d : Descriptor) (l : Option Nat) (es : Option (List Value))
      (hv : .array i d l es ∈ values) (hd : d.isArray = true) : ¬ n.post.Tracks i := by
    rintro ⟨r, d', l', vs, hHeld⟩
    rcases hRegisters r _ hHeld with ⟨_, hNone⟩ | ⟨_, hKept⟩
    · cases hNone
    · exact hKept _ hv i ⟨rfl, rfl, Value.isImmutable_of_isArray hd⟩ rfl
  refine ⟨fun r v hv => (hRegisters r v hv).imp id And.left, hArgument, fun hEntry hStores i hExposes => ?_⟩
  have hMethod := (execute_consistent h).1
  obtain ⟨g₀, log, t, rfl, hRecording⟩ := execute_recording h
  have hPre : n.pre.All Value.Shallow :=
    hRecording.shallow (context_frugal method 0) (State.all_iff.mpr hEntry) hStores hn
  have hAll : Ends (args.mapM n.pre.read) (fun vs => ∀ v ∈ vs, v.Shallow) (Inside True) :=
    Semantics.mapM_read_keeps (D := .shallow) (w := ()) hPre args fun _ hvs _ => hvs
  have hValues : ∀ v ∈ values, v.Shallow := hAll.of_eq_ok hReads
  cases hExposes with
  | passed hPassed hInside hArray =>
      rcases List.mem_cons.mp hInside with rfl | hInner
      · exact hArgument i _ _ _ hPassed hArray
      · exact absurd (hValues _ hPassed _ hInner) (by simp [Value.arrayId?])
  | stored hBefore hOther hm hPut hStored =>
      -- no array has been stored in a field
      have hNone := (hStores _ (Graph.mem_nodes hm)).1 _ (hMethod ▸ hPut)
      cases hNone.symm.trans hStored

/-- A method out of reach that gets an array. -/
def takingReference : MethodReference := ⟨⟨"Lb;"⟩, "take", [.arrayOf .int], .void⟩

/-- A method that passes one of two arrays, by another register than the one that it was made in. -/
def handingMethod : Method where
  reference := ⟨⟨"La;"⟩, "lend", [], .void⟩
  flags := { static := true }
  locals := 4
  code :=
    [.const 0 (.int 1), .newArray 1 0 (.arrayOf .int), .move 2 1, .newArray 3 0 (.arrayOf .int),
      .invoke .static takingReference [2], .returnVoid]
  tries := []

/-- A machine without classes. -/
def bareMachine : Machine := ⟨⟨[]⟩, ⟨20, 5, 2⟩⟩

theorem execute_invalidates_handingMethod :
    ∃ g n, bareMachine.execute handingMethod (initialState handingMethod) = .ok g ∧ g.node? 4 = some n ∧
      n.pre.Tracks 0 ∧ ¬ n.post.Tracks 0 ∧ n.post.Tracks 1 := by
  have hRun : bareMachine.execute handingMethod (initialState handingMethod) =
      .ok (bareMachine.graphOf handingMethod (initialState handingMethod)) :=
    execute_eq_graphOf (by decide +kernel)
  have hNode : ∃ n, (bareMachine.graphOf handingMethod (initialState handingMethod)).node? 4 = some n ∧
      handingMethod.code.at? n.address = some (.invoke .static takingReference [2]) ∧
      [2].mapM n.pre.read = .ok [.array 0 (.arrayOf .int) (some 1) (some [.int 0])] ∧
      n.pre.peek? 1 = some (.array 0 (.arrayOf .int) (some 1) (some [.int 0])) ∧
      n.post.peek? 3 = some (.array 1 (.arrayOf .int) (some 1) (some [.int 0])) :=
    ⟨_, rfl, by decide +kernel, by decide +kernel, by decide +kernel, by decide +kernel⟩
  obtain ⟨n, hn, hCall, hReads, hFirst, hOther⟩ := hNode
  have hAfter := (execute_invalidates hRun hn hCall (by decide +kernel) hReads rfl).2.2 (by decide +kernel)
    (by decide +kernel)
  exact ⟨_, n, hRun, hn, ⟨_, _, _, _, hFirst⟩,
    hAfter 0 (.passed (.head _) (Value.mem_parts_self _) (by decide)), ⟨_, _, _, _, hOther⟩⟩

/-- A method out of reach that gets arrays in an array. -/
def searchingReference : MethodReference := ⟨⟨"Lb;"⟩, "search", [.arrayOf (.arrayOf .int)], .void⟩

/-- A method that passes an array around one that it holds itself. -/
def hidingMethod : Method where
  reference := ⟨⟨"La;"⟩, "m", [], .int⟩
  flags := { static := true }
  locals := 5
  code :=
    [.const 0 (.int 1), .newArray 1 0 (.arrayOf .int), .newArray 2 0 (.arrayOf (.arrayOf .int)), .const 3 (.int 0),
      .arrayPut 1 2 3, .invoke .static searchingReference [2], .arrayGet 4 1 3, .returnValue 4]
  tries := []

/-- What the arguments of a call hold is not looked for: a register keeps what was known of an array inside an
argument. -/
theorem not_invalidated_of_exposes :
    ¬ ∀ (m : Machine) (method : Method) (entry : State) (g : Graph) (k : NodeId) (n : Node) (kind : InvokeKind)
      (ref : MethodReference) (args : List Register) (values : List Value), m.execute method entry = .ok g →
      g.node? k = some n → method.code.at? n.address = some (.invoke kind ref args) →
      FrameworkMethod.find? ref = none → args.mapM n.pre.read = .ok values →
      Semantics.Context.hasNullReceiver kind values = false → ∀ i, g.Exposes k values i → ¬ n.post.Tracks i := by
  intro h
  have hRun : bareMachine.execute hidingMethod (initialState hidingMethod) =
      .ok (bareMachine.graphOf hidingMethod (initialState hidingMethod)) :=
    execute_eq_graphOf (by decide +kernel)
  have hNode : ∃ n, (bareMachine.graphOf hidingMethod (initialState hidingMethod)).node? 5 = some n ∧
      hidingMethod.code.at? n.address = some (.invoke .static searchingReference [2]) ∧
      [2].mapM n.pre.read = .ok [.array 1 (.arrayOf (.arrayOf .int)) (some 1)
        (some [.array 0 (.arrayOf .int) (some 1) (some [.int 0])])] ∧
      n.post.peek? 1 = some (.array 0 (.arrayOf .int) (some 1) (some [.int 0])) :=
    ⟨_, rfl, by decide +kernel, by decide +kernel, by decide +kernel⟩
  obtain ⟨n, hn, hCall, hReads, hKept⟩ := hNode
  have hInside : .array 0 (.arrayOf .int) (some 1) (some [.int 0]) ∈ (Value.array 1 (.arrayOf (.arrayOf .int)) (some 1)
      (some [.array 0 (.arrayOf .int) (some 1) (some [.int 0])])).parts := by decide
  exact h _ _ _ _ 5 n _ _ _ _ hRun hn hCall (by decide +kernel) hReads rfl 0
    (.passed (.head _) hInside (by decide)) ⟨_, _, _, _, hKept⟩

end Machine

end Dalvik
