import Dalvik.Proofs.Ledger
import Dalvik.Proofs.Simulation

/-!
Aliases. A write to an array reaches every register that refers to it, but no copy of the array that is an element of
another one. As long as no array is written that is inside another one, all occurrences of an instance in a state stay
the same value.
-/

namespace Dalvik

open Run (Frugal)

namespace Value

variable {u v w : Value}

/-- The identity of an array. -/
def arrayId? : Value → Option Nat
  | array id _ _ _ => some id
  | _ => none

theorem shell_of_arrayId? (h : v.arrayId? = none) : v.shell = v := by
  cases v <;> first | rfl | cases h

theorem arrayId?_shell (v : Value) : v.shell.arrayId? = v.arrayId? := by cases v <;> rfl

/-- Values that differ in the elements of an array only are the same if they are no arrays. -/
theorem eq_of_shell (h : v.shell = w.shell) (hv : v.arrayId? = none) : v = w := by
  have hw : w.arrayId? = none := by rw [← arrayId?_shell, ← h, arrayId?_shell, hv]
  rwa [shell_of_arrayId? hv, shell_of_arrayId? hw] at h

theorem inner_of_arrayId? (h : v.arrayId? = none) : v.inner = [] := by
  cases v <;> first | rfl | cases h

theorem coerce_eq_or (v : Value) (d : Descriptor) : v.coerce d = v ∨ (v.coerce d).ids = [] := by
  rcases v.coerce_cases d with hSame | hSame | hAtom | hSame
  · exact .inl hSame
  · exact .inr (by rw [hSame]; rfl)
  · exact .inr (ids_of_isAtom hAtom)
  · exact .inr (by rw [hSame]; rfl)

end Value

/-- An instance is not inside an array that a register holds. -/
def State.Unnested (s : State) (i : Nat) : Prop :=
  ∀ v ∈ s.registers.filterMap id, ∀ u ∈ v.inner, u.id? ≠ some i

/-- If an instruction writes to an array, then this is not inside another one, nor does it get into itself. -/
def Instruction.WritesApart {τ : Type} (i : Instruction τ) (pre : State) : Prop :=
  match i with
  | .arrayPut src array _ =>
    ∀ id ∈ (pre.peek? array).bind Value.arrayId?, pre.Unnested id ∧ (pre.peek? src).bind Value.id? ≠ some id
  | .fillArray array _ => ∀ id ∈ (pre.peek? array).bind Value.arrayId?, pre.Unnested id
  | _ => True

instance {τ : Type} (i : Instruction τ) (pre : State) : Decidable (i.WritesApart pre) := by
  unfold Instruction.WritesApart State.Unnested
  split <;> infer_instance

/-- The arrays in the result are different ones, and none is held elsewhere. -/
def State.ReturnsApart (s : State) : Prop :=
  ∀ v ∈ s.result, (v.parts.filterMap Value.arrayId?).Nodup ∧
    ∀ u ∈ v.parts, u.arrayId? ≠ none → ∀ w ∈ ({ s with result := none } : State).parts, u.arrayId? ≠ w.arrayId?

instance (s : State) : Decidable s.ReturnsApart := by
  unfold State.ReturnsApart
  infer_instance

section

variable {s : State} {h : Heap} {L : Ledger}

/-- A write to an array that is not inside another one leaves a state that agrees with a ledger. -/
theorem State.coheres_updateInstance (hFits : L.Fits id h) (hAll : s.All (L.Lists id)) {i : Nat} {d : Descriptor}
    {n : Option Nat} {es es' : Option (List Value)} (hArray : L.Lists id (.array i d n es))
    (hApart : s.Unnested i) (hRest : ∀ v, s.result = some v ∨ s.exception = some v → v.ids = [])
    (hNew : ∀ vs, es' = some vs → ∀ v ∈ vs, L.Lists id v ∧ ∀ u ∈ v.parts, u.id? ≠ some i) :
    (s.updateInstance i (.array i d n es')).Coheres h := by
  have hListed : (L.note i (.array i d n es')).Lists id (.array i d n es') := by
    refine @Ledger.lists_note id L i _ rfl fun u hu j hj => ?_
    obtain ⟨vs, rfl, v, hv, hu⟩ := Value.mem_inner_array.mp hu
    obtain ⟨hIn, hOther⟩ := hNew vs rfl v hv
    exact ⟨fun hSame => hOther u hu (hSame ▸ hj), hIn u hu j hj⟩
  have hPlain {v : Value} (hv : v.ids = []) : (L.note i (.array i d n es')).Lists id v :=
    (Discipline.ledger id).plain hv
  have hOld : L i = some (.array i d n es) := hArray _ (Value.mem_parts_self _) i rfl
  refine ⟨L.note i (.array i d n es'), hFits.note (hFits.below i _ hOld) fun t ht => ?_,
    fun v hv => ?_, fun v hv => ?_, fun v hv => hPlain (hRest v (.inr hv))⟩
  · -- no literal loads an array
    cases hFits.interned i _ t hOld ht
  · rw [registers_updateInstance] at hv
    obtain ⟨x, hx, hSome⟩ := List.mem_map.mp hv
    obtain ⟨old, rfl, rfl⟩ := Option.map_eq_some_iff.mp hSome
    unfold replaceInstance
    split
    · exact hListed
    · rename_i hOther
      refine (hAll.registers old hx).note fun u hu => ?_
      rcases List.mem_cons.mp hu with rfl | hu
      · exact hOther
      · exact hApart old (List.mem_filterMap.mpr ⟨_, hx, rfl⟩) u hu
  · obtain ⟨old, hOld, rfl⟩ := Option.map_eq_some_iff.mp hv
    unfold replaceInstance
    split
    · exact hListed
    · exact hPlain (hRest old (.inl hOld))

theorem State.mem_parts_cases {v : Value} (hv : v ∈ s.parts) :
    v ∈ ({ s with result := none } : State).parts ∨ ∃ u, s.result = some u ∧ v ∈ u.parts := by
  obtain ⟨u, hu, hPart⟩ := Value.mem_allParts.mp hv
  obtain ⟨_, hu, rfl⟩ := List.mem_filterMap.mp hu
  rcases List.mem_append.mp hu with hRegister | hOther
  · exact .inl (Value.mem_allParts.mpr
      ⟨u, List.mem_filterMap.mpr ⟨_, List.mem_append_left _ hRegister, rfl⟩, hPart⟩)
  · rcases List.mem_cons.mp hOther with hResult | hException
    · exact .inr ⟨u, hResult.symm, hPart⟩
    · refine .inl (Value.mem_allParts.mpr ⟨u, List.mem_filterMap.mpr ⟨some u, ?_, rfl⟩, hPart⟩)
      simpa using .inr (List.mem_singleton.mp hException)

theorem eq_of_nodup_filterMap {α β : Type} {f : α → Option β} {l : List α} (hNodup : (l.filterMap f).Nodup)
    {a b : α} (ha : a ∈ l) (hb : b ∈ l) {x : β} (hax : f a = some x) (hbx : f b = some x) : a = b := by
  induction l with
  | nil => cases ha
  | cons c l ih =>
      have hTail : (l.filterMap f).Nodup := hNodup.sublist ((List.sublist_cons_self c l).filterMap f)
      have hHead {d : α} (hc : f c = some x) (hd : d ∈ l) (hdx : f d = some x) : False := by
        rw [List.filterMap_cons_some hc] at hNodup
        exact (List.nodup_cons.mp hNodup).1 (List.mem_filterMap.mpr ⟨d, hd, hdx⟩)
      rcases List.mem_cons.mp ha with rfl | ha'
      · rcases List.mem_cons.mp hb with rfl | hb'
        · rfl
        · exact (hHead hax hb' hbx).elim
      · rcases List.mem_cons.mp hb with rfl | hb'
        · exact (hHead hbx ha' hax).elim
        · exact ih hTail ha' hb'

/-- A result whose arrays are held nowhere else leaves a state that agrees with a ledger, if all is listed as far as
elements of arrays are not looked at. -/
theorem State.coheres_of_returnsApart (hFits : L.Fits id h)
    (hRest : ({ s with result := none } : State).All (L.Lists id)) {S : Ledger} (hShells : S.Fits Value.shell h)
    (hAll : s.All (S.Lists Value.shell)) (hApart : s.ReturnsApart) : s.Coheres h := by
  have hShell {v : Value} (hv : v ∈ s.parts) {i : Nat} (hi : v.id? = some i) : S i = some v.shell := by
    obtain ⟨u, hu, hPart⟩ := Value.mem_allParts.mp hv
    exact State.all_iff.mp hAll u hu v hPart i hi
  have hKept : ({ s with result := none } : State).Coherent := (show State.Coheres h _ from ⟨L, hFits, hRest⟩).coherent
  refine State.Coherent.coheres (fun v hv w hw hSame hSome => ?_) hFits.sound (fun v hv i hi => ?_)
    fun v hv i t hi ht => ?_
  · obtain ⟨i, hi⟩ := Option.ne_none_iff_exists'.mp hSome
    have hEqual : v.shell = w.shell :=
      Option.some.inj ((hShell hv hi).symm.trans (hShell hw (hSame ▸ hi)))
    cases hArray : v.arrayId? with
    | none => exact Value.eq_of_shell hEqual hArray
    | some j =>
        have hArray' : w.arrayId? = some j := by
          rw [← Value.arrayId?_shell, ← hEqual, Value.arrayId?_shell, hArray]
        rcases State.mem_parts_cases hv with hOld | ⟨u, hu, hNew⟩
        · rcases State.mem_parts_cases hw with hOld' | ⟨u', hu', hNew'⟩
          · exact hKept v hOld w hOld' hSame hSome
          · exact absurd (hArray'.trans hArray.symm) ((hApart u' hu').2 w hNew' (by simp [hArray']) v hOld)
        · rcases State.mem_parts_cases hw with hOld' | ⟨u', hu', hNew'⟩
          · exact absurd (hArray.trans hArray'.symm) ((hApart u hu).2 v hNew (by simp [hArray]) w hOld')
          · obtain rfl := Option.some.inj (hu.symm.trans hu')
            exact eq_of_nodup_filterMap (hApart u hu).1 hNew hNew' hArray hArray'
  · exact hShells.below i _ (hShell hv hi)
  · exact (Value.eq_of_shell (hShells.interned i _ t (hShell hv hi) ht).symm rfl).symm

end

/-- What an instruction leaves agrees with a ledger, and what it raises is listed in the one of the registers. -/
structure Outcome.Coheres (o : Outcome) (L : Ledger) (h : Heap) : Prop where
  post : o.post.Coheres h
  raised : ∀ v, o.flow = .raise v → L.Lists id v
  hazard : ∀ v, o.hazard = some v → L.Lists id v

namespace Semantics

variable {pre : State} {h : Heap} {L : Ledger}

theorem coheres_of_all {o : Outcome} (hFits : L.Fits id h) (ho : o.All (L.Lists id)) : o.Coheres L h :=
  ⟨⟨L, hFits, ho.post⟩, ho.raised, ho.hazard⟩

theorem lists_unknown (d : Descriptor) : L.Lists id (.unknown d) := (Discipline.ledger id).plain rfl

theorem lists_someException {d : Descriptor} {v : Value} (hv : someException d = some v) : L.Lists id v :=
  holds_someException (D := .ledger id) hv

theorem coheres_nextOr {post : State} (hPost : post.Coheres h) {hazard : Option Value}
    (hHazard : ∀ v, hazard = some v → L.Lists id v) : (Outcome.nextOr post hazard).Coheres L h :=
  ⟨hPost, fun v hv => (by cases hv), hHazard⟩

theorem coheres_next {post : State} (hPost : post.Coheres h) : (Outcome.next post).Coheres L h :=
  ⟨hPost, fun v hv => (by cases hv), fun v hv => (by cases hv)⟩

/-- What is read from a register is in it, or it is unknown. -/
theorem peek?_or_unknown {r : Register} {v : Value} (hRead : pre.read r = .ok v) :
    pre.peek? r = some v ∨ v = .unknown .object := by
  unfold State.read at hRead
  unfold State.peek?
  split at hRead
  · rename_i x hx
    obtain rfl := Except.ok.inj hRead
    rw [hx]
    cases x with
    | none => exact .inr rfl
    | some v => exact .inl rfl
  · cases hRead

theorem mem_registers_of_peek? {r : Register} {v : Value} (hPeek : pre.peek? r = some v) :
    some v ∈ pre.registers :=
  List.mem_of_getElem? (Option.join_eq_some_iff.mp hPeek)

/-- An array that has been read from a register is in it. -/
theorem array_of_read {array : Register} {i : Nat} {d : Descriptor} {n : Option Nat} {es : Option (List Value)}
    (hRead : pre.read array = .ok (.array i d n es)) :
    some (.array i d n es) ∈ pre.registers ∧ i ∈ (pre.peek? array).bind Value.arrayId? := by
  rcases peek?_or_unknown hRead with hPeek | hNone
  · exact ⟨mem_registers_of_peek? hPeek, by rw [hPeek]; rfl⟩
  · cases hNone

/-- The elements of an array that is not inside another one are listed, and do not have that in them. -/
theorem apart_of_mem {i : Nat} {d : Descriptor} {n : Option Nat} {vs : List Value} {v : Value}
    (hPre : pre.All (L.Lists id)) (hUnnested : pre.Unnested i)
    (hArray : some (Value.array i d n (some vs)) ∈ pre.registers) (hv : v ∈ vs) :
    L.Lists id v ∧ ∀ u ∈ v.parts, u.id? ≠ some i :=
  ⟨(hPre.registers _ hArray).element hv, fun u hu =>
    hUnnested _ (List.mem_filterMap.mpr ⟨_, hArray, rfl⟩) u (Value.mem_inner_array.mpr ⟨vs, rfl, v, hv, hu⟩)⟩

/-- What is stored in an array does not have the array in it, if it is another value. -/
theorem apart_coerce {i : Nat} {v : Value} (hUnnested : ∀ u ∈ v.inner, u.id? ≠ some i) (hOther : v.id? ≠ some i)
    (d : Descriptor) : ∀ u ∈ (v.coerce d).parts, u.id? ≠ some i := by
  rcases v.coerce_eq_or d with hSame | hNone
  · rw [hSame]
    exact List.forall_mem_cons.mpr ⟨hOther, hUnnested⟩
  · intro u hu
    simp [Value.id?_of_ids hNone hu]

theorem arrayPut_coheres (hFits : L.Fits id h) (hPre : pre.All (L.Lists id)) {src array index : Register}
    (hApart : (Instruction.arrayPut src array index : Instruction Address).WritesApart pre) :
    Ends (arrayPut pre { pre with result := none, exception := none } src array index)
      (fun o => o.Coheres L h) fun _ => True := by
  have hPost := hPre.rest
  have hRaise (d : Descriptor) : (Outcome.raise { pre with result := none, exception := none } d).Coheres L h :=
    coheres_of_all hFits (all_raise hPost lists_unknown d)
  have hKeep (d : Descriptor) :
      (Outcome.nextOr { pre with result := none, exception := none } (someException d)).Coheres L h :=
    coheres_of_all hFits (all_nextOr hPost fun _ => lists_someException)
  unfold arrayPut
  rw [ends_bind]
  refine ends_of_eq fun x hSrc => ?_
  rw [ends_bind]
  refine ends_of_all fun k => ?_
  rw [ends_bind]
  refine ends_of_eq fun v hRead => ?_
  split
  · exact hRaise _
  · rename_i i d n es
    obtain ⟨hMem, hHere⟩ := array_of_read hRead
    obtain ⟨hUnnested, hOther⟩ := hApart i hHere
    have hUpdate (es' : Option (List Value)) (hNew : ∀ vs, es' = some vs →
        ∀ v ∈ vs, L.Lists id v ∧ ∀ u ∈ v.parts, u.id? ≠ some i) :
        (State.updateInstance { pre with result := none, exception := none } i (.array i d n es')).Coheres h :=
      State.coheres_updateInstance hFits hPost (hPre.registers _ hMem) hUnnested (by simp) hNew
    split
    · exact hRaise _
    · rename_i vs hSlot
      obtain ⟨rfl, _⟩ := slot_eq_tracked hSlot
      rw [ends_bind]
      refine ends_of_all fun m => coheres_next (hUpdate _ ?_)
      rintro _ ⟨⟩ v hv
      have hStored : L.Lists id x ∧ ∀ u ∈ (x.coerce d.elementOrObject).parts, u.id? ≠ some i := by
        rcases peek?_or_unknown hSrc with hPeek | rfl
        · have hMemSrc := mem_registers_of_peek? hPeek
          rw [hPeek] at hOther
          exact ⟨hPre.registers x hMemSrc,
            apart_coerce (hUnnested x (List.mem_filterMap.mpr ⟨_, hMemSrc, rfl⟩)) hOther _⟩
        · exact ⟨lists_unknown _, apart_coerce (by simp [Value.inner]) (by simp [Value.id?]) _⟩
      rcases List.mem_or_eq_of_mem_set hv with hOld | rfl
      · exact apart_of_mem hPre hUnnested hMem hOld
      · exact ⟨Discipline.holds_coerce (D := .ledger id) hStored.1 _, hStored.2⟩
    · exact coheres_nextOr (hUpdate none (by simp)) fun _ => lists_someException
  · exact hKeep _

/-- Literals are no arrays. -/
theorem apart_of_literals {ls : List Literal} {v : Value} (hv : v ∈ (h.literals ls).1)
    (hListed : L.Lists id v) {i : Nat} {d : Descriptor} {n : Option Nat} {es : Option (List Value)}
    (hArray : L i = some (.array i d n es)) : v.inner = [] ∧ v.id? ≠ some i := by
  have hNone : v.arrayId? = none := by
    have hFixed := isMutable_literals h ls v hv
    cases v <;> first | rfl | cases hFixed
  refine ⟨Value.inner_of_arrayId? hNone, fun hi => ?_⟩
  obtain rfl := Option.some.inj (hArray.symm.trans (hListed v (Value.mem_parts_self v) i hi))
  cases hNone

theorem fillArray_coheres {s : Supply} (hFits : L.Fits id s.heap) (hPre : pre.All (L.Lists id)) {array : Register}
    {data : List Literal} (hApart : (Instruction.fillArray array data : Instruction Address).WritesApart pre) :
    Run.Ends (fillArray pre { pre with result := none, exception := none } array data) s
      (fun o t => ∃ L' : Ledger, (∀ i v, L i = some v → L' i = some v) ∧ L'.Fits id t.heap ∧ o.Coheres L' t.heap)
      fun _ _ => True := by
  have hPost := hPre.rest
  have hSame {o : Outcome} (ho : o.All (L.Lists id)) :
      ∃ L' : Ledger, (∀ i v, L i = some v → L' i = some v) ∧ L'.Fits id s.heap ∧ o.Coheres L' s.heap :=
    ⟨L, fun _ _ hv => hv, hFits, coheres_of_all hFits ho⟩
  have hRaise (d : Descriptor) := hSame (all_raise hPost lists_unknown d)
  have hKeep (d : Descriptor) := hSame (all_nextOr hPost fun _ => lists_someException (d := d))
  unfold fillArray
  rw [Run.ends_bind, Run.ends_ofExcept]
  refine ends_of_eq fun v hRead => ?_
  split
  · exact hRaise _
  · rename_i i d n es
    obtain ⟨hMem, hHere⟩ := array_of_read hRead
    have hUnnested := hApart i hHere
    split
    · exact hRaise _
    · split
      · obtain ⟨L', hExtends, hFits', hNew⟩ := Discipline.literals (D := .ledger id) hFits
          (data.take (es.getD (List.replicate n (.zero d.elementOrObject))).length)
        have hPre' : pre.All (L'.Lists id) := hPre.imp fun _ hv => (Discipline.ledger id).extend hExtends hv
        have hArray := hPre'.registers _ hMem
        refine ⟨L', hExtends, hFits',
          coheres_next (State.coheres_updateInstance hFits' hPre'.rest hArray hUnnested (by simp) ?_)⟩
        rintro _ ⟨⟩ v hv
        rcases mem_overwrite hv with hOld | hFilled
        · cases es with
          | none =>
              rw [List.eq_of_mem_replicate hOld]
              refine ⟨(Discipline.ledger id).plain (Value.ids_zero _), fun u hu => ?_⟩
              simp [Value.id?_of_ids (Value.ids_zero _) hu]
          | some vs => exact apart_of_mem hPre' hUnnested hMem hOld
        · obtain ⟨x, hx, rfl⟩ := List.mem_map.mp hFilled
          obtain ⟨hInner, hOther⟩ := apart_of_literals hx (hNew x hx) (hArray _ (Value.mem_parts_self _) i rfl)
          exact ⟨Discipline.holds_coerce (D := .ledger id) (hNew x hx) _,
            apart_coerce (by simp [hInner]) hOther _⟩
      · exact hKeep _
  · exact hKeep _
  · exact hKeep _

theorem all_withoutResult {P : Value → Prop} {s : State} (hs : s.All P) :
    ({ s with result := none } : State).All P :=
  ⟨hs.registers, by simp, hs.exception⟩

namespace Context

variable {c : Context} {post : State}

/-- A call of a local method leaves nothing new but the result. -/
theorem invokeOther_rest (hPost : post.All (L.Lists id)) (kind : InvokeKind) (m : MethodReference)
    (args : List Register) (values : List Value) (s : Supply) :
    Run.Ends (c.invokeOther kind m args values post) s
      (fun o _ => ({ o with post := { o.post with result := none } } : Outcome).All (L.Lists id))
      fun _ _ => True := by
  have hClobbered := hPost.foldl_clobber (fun _ => lists_unknown _) values
  have hRest {o : Outcome} (ho : o.All (L.Lists id)) :
      ({ o with post := { o.post with result := none } } : Outcome).All (L.Lists id) :=
    ⟨all_withoutResult ho.post, ho.raised, ho.hazard⟩
  have hOpaque (t : Supply) {f : State → Outcome}
      (hf : ∀ u : State, u.All (L.Lists id) → (f u).All (L.Lists id)) :
      Run.Ends (do
        let u ← Run.ofExcept (opaqueResult (values.foldl clobber post) m args)
        return f u) t (fun o _ => ({ o with post := { o.post with result := none } } : Outcome).All (L.Lists id))
        fun _ _ => True := by
    rw [Run.ends_bind, Run.ends_ofExcept]
    have hEnds : Ends (opaqueResult (values.foldl clobber post) m args) (fun u => u.All (L.Lists id))
        (Inside False) := opaqueResult_keeps (D := .ledger id) hClobbered m args
    exact hEnds.imp (fun u hu => hRest (hf u hu)) fun _ _ => trivial
  rw [invokeOther_eq, Run.ends_bind]
  refine Run.ends_of_forall (fun effect t => ?_) fun _ _ => trivial
  cases effect with
  | none => exact hOpaque t fun u hu => all_nextOr hu fun _ => lists_someException
  | some e =>
      dsimp only [conclude]
      split
      · exact hOpaque t fun u hu => all_next hu
      · rename_i hOther
        rw [Run.ends_ofExcept]
        unfold applyEffect
        cases e with
        | returns v =>
            dsimp only
            rw [if_neg hOther]
            exact all_next ⟨hClobbered.registers, by simp, hClobbered.exception⟩
        | void => exact hRest (all_next hClobbered)
        | unknown => exact hRest (all_next hClobbered)
        | throws type => exact hRest (all_raise hClobbered lists_unknown type)

theorem invoke_rest (hPre : pre.All (L.Lists id)) {m : MethodReference} (hOther : FrameworkMethod.find? m = none)
    (kind : InvokeKind) (args : List Register) (s : Supply) :
    Run.Ends (c.invoke kind m args pre { pre with result := none, exception := none }) s
      (fun o _ => ({ o with post := { o.post with result := none } } : Outcome).All (L.Lists id))
      fun _ _ => True := by
  unfold invoke
  rw [Run.ends_bind, Run.ends_ofExcept]
  refine ends_of_all fun values => ?_
  split
  · exact all_raise (all_withoutResult hPre.rest) lists_unknown _
  · unfold invokePresent
    rw [hOther]
    exact invokeOther_rest hPre.rest kind m args values s

variable {a : Address} {i : Instruction Address} {s t : Supply} {o : Outcome}

/-- What an instruction leaves agrees with a ledger if arrays are only written, and only returned from a local
method, when they are not held elsewhere. -/
theorem execute_coheres (hShells : c.CallsUphold (.ledger Value.shell) False i) (hFits : L.Fits id s.heap)
    (hPre : pre.All (L.Lists id)) (hWrites : i.WritesApart pre) (hReturns : ¬ c.RunsNoBody i → o.post.ReturnsApart)
    (hGrows : s.heap.Grows t.heap)
    (hDoes : c.execute a i pre { pre with result := none, exception := none } s = (.ok o, t)) :
    ∃ L' : Ledger, (∀ i v, L i = some v → L' i = some v) ∧ L'.Fits id t.heap ∧ o.Coheres L' t.heap := by
  by_cases hNoBody : c.RunsNoBody i
  · by_cases hPlain : i.writesElements = true
    · cases i with
      | arrayPut src array index =>
          obtain ⟨hResult, rfl⟩ := Prod.mk.inj hDoes
          exact ⟨L, fun _ _ hv => hv, hFits, (arrayPut_coheres hFits hPre hWrites).of_eq_ok hResult⟩
      | fillArray array data =>
          have hEnds := fillArray_coheres hFits hPre hWrites
          unfold Run.Ends at hEnds
          change fillArray pre _ array data s = _ at hDoes
          rwa [hDoes] at hEnds
      | _ => cases hPlain
    · have hNone : c.CallsUphold (.ledger id) False i := fun kind m args hi hOther callee hCallee => by
        rw [hNoBody kind m args hi hOther] at hCallee
        cases hCallee
      have hEnds := execute_upholds hNone (fun hSome => absurd hSome hPlain) False.elim False.elim hFits hPre
        hPre.rest a
      unfold Discipline.Upholds Run.Ends at hEnds
      rw [hDoes] at hEnds
      obtain ⟨L', hExtends, hFits', ho⟩ := hEnds
      exact ⟨L', hExtends, hFits', coheres_of_all hFits' ho⟩
  · have hShellEnds := execute_upholds hShells (fun _ => Discipline.rewrites_ledger) False.elim
      False.elim (hFits.map Value.shell) (hPre.imp fun _ hv => hv.map Value.shell)
      (hPre.rest.imp fun _ hv => hv.map Value.shell) a
    have hReturned := hReturns hNoBody
    simp only [RunsNoBody, not_forall] at hNoBody
    obtain ⟨kind, m, args, rfl, hOther, _⟩ := hNoBody
    have hEnds := invoke_rest (c := c) hPre hOther kind args s
    unfold Discipline.Upholds Run.Ends at hShellEnds
    unfold Run.Ends at hEnds
    rw [hDoes] at hShellEnds
    change c.invoke kind m args pre _ s = _ at hDoes
    rw [hDoes] at hEnds
    obtain ⟨S, _, hShellFits, hShellAll⟩ := hShellEnds
    exact ⟨L, fun _ _ hv => hv, hFits.grow hGrows,
      State.coheres_of_returnsApart (hFits.grow hGrows) hEnds.post hShellFits hShellAll.post hReturned,
      hEnds.raised, hEnds.hazard⟩

/-- So does what a step leaves, and every state that it leads to. -/
theorem apply_coheres {step : Step} (hShells : ∀ i, c.CallsUphold (.ledger Value.shell) False i)
    (hFrugal : Frugal (c.apply a pre)) (hPre : pre.Coheres s.heap)
    (hApart : ∀ i, c.method.code.at? a = some i →
      i.WritesApart pre ∧ (¬ c.RunsNoBody i → step.post.ReturnsApart))
    (hApply : c.apply a pre s = (.ok step, t)) :
    step.post.Coheres t.heap ∧ ∀ p ∈ step.successors, p.2.Coheres t.heap := by
  obtain ⟨L, hFits, hAll⟩ := hPre
  have hGrows := (hFrugal s).1
  rw [hApply] at hGrows
  obtain ⟨i, o, hi, hDoes, hSuccessors, hPost⟩ := exists_outcome hApply
  obtain ⟨hWrites, hReturns⟩ := hApart i hi
  rw [hPost] at hReturns
  obtain ⟨L', hExtends, hFits', ho⟩ := execute_coheres (hShells i) hFits hAll hWrites hReturns hGrows hDoes
  have hPre' : pre.All (L'.Lists id) := hAll.imp fun _ hv => (Discipline.ledger id).extend hExtends hv
  have hEnter (v : Value) (hv : L'.Lists id v) :
      ({ pre with result := none, exception := some v } : State).Coheres t.heap :=
    ⟨L', hFits', hPre'.pass (by simp) fun u hu => Option.some.inj hu ▸ hv⟩
  have hEnds : Ends (c.successors a pre o) (fun A => ∀ p ∈ A, p.2.Coheres t.heap) (Inside False) :=
    all_successors hEnter lists_unknown c a ho.post ho.raised ho.hazard
  exact ⟨hPost ▸ ho.post, hEnds.of_eq_ok hSuccessors⟩

/-- Whether an instruction calls a local method. -/
instance (i : Instruction Address) : Decidable (c.RunsNoBody i) :=
  match i with
  | .invoke kind m args =>
    decidable_of_iff (FrameworkMethod.find? m = none → c.callee? kind m = none)
      ⟨fun h _ _ _ hi => by cases hi; exact h, fun h => h kind m args rfl⟩
  | .nop | .const _ _ | .move _ _ | .moveResult _ | .moveException _ | .returnVoid | .returnValue _ | .throw _
  | .goto _ | .branch _ _ _ _ | .switch _ _ | .compare _ _ _ _ | .unary _ _ _ | .binary _ _ _ _ _
  | .newInstance _ _ | .checkCast _ _ | .instanceOf _ _ _ | .newArray _ _ _ | .arrayLength _ _ | .arrayGet _ _ _
  | .arrayPut _ _ _ | .fillArray _ _ | .fieldGet _ _ _ | .fieldPut _ _ _ =>
    isTrue fun _ _ _ => nofun

end Context

end Semantics

namespace Graph

variable {g : Graph} {c : Semantics.Context} {maxVisits : Nat} {entry : State} {s t : Supply}
  {log : List Performance}

/-- Wherever an array is written it is not inside another one, and wherever a local method returns arrays they are
not held elsewhere. -/
def KeepsApart (g : Graph) (c : Semantics.Context) : Prop :=
  ∀ n ∈ g.nodes.toList.filterMap id, ∀ i ∈ c.method.code.at? n.address,
    i.WritesApart n.pre ∧ (¬ c.RunsNoBody i → n.post.ReturnsApart)

instance (g : Graph) (c : Semantics.Context) : Decidable (g.KeepsApart c) := by
  unfold KeepsApart
  infer_instance

theorem mem_nodes {k : NodeId} {n : Node} (hn : g.node? k = some n) : n ∈ g.nodes.toList.filterMap id := by
  refine List.mem_filterMap.mpr ⟨some n, ?_, rfl⟩
  unfold node? at hn
  exact Array.mem_toList_iff.mpr (Array.mem_of_getElem? (Option.join_eq_some_iff.mp hn))

/-- The states of every node agree with a ledger if those of the entry do. -/
theorem Recording.coheres (h : g.Recording c maxVisits entry s log t) (hFrugal : ∀ a pre, Frugal (c.apply a pre))
    (hShells : ∀ i, c.CallsUphold (.ledger Value.shell) False i) (hEntry : entry.Coheres s.heap)
    (hApart : g.KeepsApart c) {k : NodeId} {n : Node} {r : Performance} (hn : g.node? k = some n)
    (hr : log[k]? = some r) : n.pre.Coheres r.before.heap ∧ n.post.Coheres r.after.heap := by
  have hStep {k : NodeId} {n : Node} {r : Performance} (hn : g.node? k = some n) (hRecords : n.Records g c r)
      (hPre : n.pre.Coheres r.before.heap) :
      r.step.post.Coheres r.after.heap ∧ ∀ p ∈ r.step.successors, p.2.Coheres r.after.heap :=
    Semantics.Context.apply_coheres hShells (hFrugal _ _) hPre
      (fun i hi => hRecords.post ▸ hApart n (mem_nodes hn) i hi) hRecords.applied
  have hPre : n.pre.Coheres r.before.heap :=
    h.induct (P := fun heap _ pre => pre.Coheres heap) hFrugal hEntry
      (fun p np rp hnp _ hRecords hParent q hq later hLater => ((hStep hnp hRecords hParent).2 q hq).grow hLater)
      hn hr
  obtain ⟨r', hr', hRecords⟩ := h.records k n hn
  obtain rfl := Option.some.inj (hr'.symm.trans hr)
  exact ⟨hPre, hRecords.post ▸ (hStep hn hRecords hPre).1⟩

end Graph

namespace Machine

/-- Aliases. Let all occurrences of an instance in the entry be the same value, of instances that the heap counts as
handed out. Then all occurrences of an instance in a graph are the same value but for the elements of an array. As long
as no array is written that is inside another one, and local methods return only arrays that are not held elsewhere,
they are the same in every state also as to their elements. -/
theorem execute_coherent {m : Machine} {method : Method} {entry : State} {g : Graph}
    (h : m.execute method entry = .ok g) (hEntry : entry.Coherent)
    (hBelow : ∀ v ∈ entry.parts, ∀ i ∈ v.id?, i < (Heap.after entry).next) :
    (∀ k n k' n', g.node? k = some n → g.node? k' = some n' → ∀ v ∈ n.pre.parts ++ n.post.parts,
        ∀ w ∈ n'.pre.parts ++ n'.post.parts, v.id? = w.id? → v.id? ≠ none → v.shell = w.shell) ∧
      (g.KeepsApart (m.context method 0) →
        ∀ k n, g.node? k = some n → n.pre.Coherent ∧ n.post.Coherent) := by
  obtain ⟨L, hFits, hAll⟩ : entry.Coheres (.after entry) :=
    hEntry.coheres (Heap.sound_after entry) (fun v hv i hi => hBelow v hv i hi) (by simp [Heap.after])
  have hCalls : CallsKeep (m.callAt 0) (.ledger Value.shell) False m.classes :=
    callAt_keeps Discipline.rewrites_ledger False.elim False.elim 0
  constructor
  · obtain ⟨_, g₀, t, hRun, rfl⟩ := execute_eq_ok_iff.mp h
    have hEnds : (Discipline.ledger Value.shell).Upholds False (fun i => (L i).map Value.shell)
        (m.explore (m.callAt 0) method entry) ⟨.after entry, m.limits.maxNodes⟩
        fun S g => g.All (S.Lists Value.shell) :=
      explore_upholds hCalls Discipline.rewrites_ledger False.elim False.elim (hFits.map Value.shell)
        (hAll.imp fun _ hv => hv.map Value.shell)
    unfold Discipline.Upholds Run.Ends at hEnds
    change m.explore (m.callAt 0) method entry _ = _ at hRun
    rw [hRun] at hEnds
    obtain ⟨S, _, _, hGraph⟩ := hEnds
    have hListed {k : NodeId} {n : Node} (hn : g₀.node? k = some n) {v : Value}
        (hv : v ∈ n.pre.parts ++ n.post.parts) {i : Nat} (hi : v.id? = some i) : S i = some v.shell := by
      rcases List.mem_append.mp hv with hPre | hPost
      · obtain ⟨u, hu, hPart⟩ := Value.mem_allParts.mp hPre
        exact State.all_iff.mp (hGraph k n hn).1 u hu v hPart i hi
      · obtain ⟨u, hu, hPart⟩ := Value.mem_allParts.mp hPost
        exact State.all_iff.mp (hGraph k n hn).2 u hu v hPart i hi
    intro k n k' n' hn hn' v hv w hw hSame hSome
    obtain ⟨i, hi⟩ := Option.ne_none_iff_exists'.mp hSome
    exact Option.some.inj ((hListed hn hv hi).symm.trans (hListed hn' hw (hSame ▸ hi)))
  · intro hApart k n hn
    obtain ⟨g₀, log, t, rfl, hRecording⟩ := execute_recording h
    obtain ⟨r, hr, _⟩ := hRecording.records k n hn
    obtain ⟨hPre, hPost⟩ := hRecording.coheres (context_frugal method 0) (fun i => hCalls.callsUphold i)
      ⟨L, hFits, hAll⟩ hApart hn hr
    exact ⟨hPre.coherent, hPost.coherent⟩

/-- A local method that returns a new array. -/
def makingMethod : Method where
  reference := ⟨⟨"La;"⟩, "make", [], .arrayOf .int⟩
  flags := { static := true }
  locals := 2
  code := [.const 0 (.int 1), .newArray 1 0 (.arrayOf .int), .returnValue 1]
  tries := []

/-- A method that writes to an array before it puts that into another one, from where it fetches it. -/
def fillingMethod : Method where
  reference := ⟨⟨"La;"⟩, "run", [], .arrayOf .int⟩
  flags := { static := true }
  locals := 5
  code :=
    [.const 0 (.int 1), .const 1 (.int 0), .invoke .static makingMethod.reference [], .moveResult 2,
      .arrayPut 0 2 1, .newArray 3 0 (.arrayOf (.arrayOf .int)), .arrayPut 2 3 1, .arrayGet 4 3 1, .returnValue 4]
  tries := []

/-- A machine with the method that is called. -/
def makingMachine : Machine := ⟨⟨[⟨⟨"La;"⟩, [makingMethod]⟩]⟩, ⟨20, 5, 2⟩⟩

theorem execute_coherent_fillingMethod :
    ∃ g, makingMachine.execute fillingMethod (initialState fillingMethod) = .ok g ∧ g.nodes.size = 9 ∧
      ∀ k n, g.node? k = some n → n.pre.Coherent ∧ n.post.Coherent := by
  have hRun : makingMachine.execute fillingMethod (initialState fillingMethod) =
      .ok (makingMachine.graphOf fillingMethod (initialState fillingMethod)) :=
    execute_eq_graphOf (by decide +kernel)
  exact ⟨_, hRun, by decide +kernel,
    (execute_coherent hRun (by decide +kernel) (by decide +kernel)).2 (by decide +kernel)⟩

/-- A method that puts an array into another one, and writes to it before it fetches it. -/
def staleMethod : Method where
  reference := ⟨⟨"La;"⟩, "m", [], .int⟩
  flags := { static := true }
  locals := 4
  code :=
    [.const 0 (.int 1), .newArray 1 0 (.arrayOf .int), .newArray 2 0 (.arrayOf (.arrayOf .int)), .const 3 (.int 0),
      .arrayPut 1 2 3, .arrayPut 0 1 3, .arrayGet 2 2 3, .arrayGet 3 2 3, .returnValue 3]
  tries := []

/-- Two registers may refer to one array with different elements: a write does not reach the copy of it that is an
element of another array. -/
theorem exists_incoherent :
    ¬ ∀ (m : Machine) (method : Method) (entry : State) (g : Graph), entry.Coherent →
      m.execute method entry = .ok g → ∀ k n, g.node? k = some n → ∀ r r' v v', n.post.peek? r = some v →
        n.post.peek? r' = some v' → v.id? = v'.id? → v.id? ≠ none → v = v' := by
  intro h
  have hRun : makingMachine.execute staleMethod (initialState staleMethod) =
      .ok (makingMachine.graphOf staleMethod (initialState staleMethod)) :=
    execute_eq_graphOf (by decide +kernel)
  have hNode : ∃ n, (makingMachine.graphOf staleMethod (initialState staleMethod)).node? 6 = some n ∧
      n.post.peek? 1 = some (.array 0 (.arrayOf .int) (some 1) (some [.int 1])) ∧
      n.post.peek? 2 = some (.array 0 (.arrayOf .int) (some 1) (some [.int 0])) :=
    ⟨_, rfl, by decide +kernel, by decide +kernel⟩
  obtain ⟨n, hn, hFirst, hSecond⟩ := hNode
  have hSame := h _ _ _ _ (by decide +kernel) hRun 6 n hn 1 2 _ _ hFirst hSecond rfl (by simp [Value.id?])
  simp at hSame

end Machine

end Dalvik
