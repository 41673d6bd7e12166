import Dalvik.Proofs.Mirroring

/-!
Steps of two runs whose states differ in what instances are called only. The steps differ in no more, and
neither do the heaps that they leave, as long as this is so for the calls of local methods.
-/

namespace Dalvik

open Links (Spans)

/-- What a framework method does in two runs: the effects and the heaps differ in names only. -/
def Links.Alike (Λ : Links) (k h : Heap) (p q : Effect × Heap) : Prop :=
  ∃ Λ', Λ.Advances k h Λ' p.2 q.2 ∧ Λ'.Renames Effect.rename p.1 q.1

namespace FrameworkMethod

variable {Λ : Links} {f : Nat → Nat} {k h : Heap} {cs : Classes} {args args' : List Value}
  {v v' : Value}

theorem argument_rename (f : Nat → Nat) (args : List Value) (n : Nat) :
    argument (args.map (Value.rename f)) n = (argument args n).map (Value.rename f) := by
  unfold argument
  rw [List.getElem?_map]
  cases args[n]? <;> rfl

theorem argument_concur (hBond : Λ.Bond k h)
    (hArgs : Λ.Renames (fun f => List.map (Value.rename f)) args args') (n : Nat) :
    Concur (Λ.Renames Value.rename) (argument args n) (argument args' n) := by
  refine .of_map hBond fun f hf => ?_
  rw [← hArgs f hf, argument_rename]

@[simp] theorem classType?_rename (v : Value) : classType? (v.rename f) = classType? v := by
  cases v with
  | array _ _ _ es => cases es <;> rfl
  | _ => rfl

theorem paramTypes?_rename (v : Value) : paramTypes? (v.rename f) = paramTypes? v := by
  have hElements : (v.rename f).elements?.bind (fun es => es.mapM classType?) =
      v.elements?.bind fun es => es.mapM classType? := by
    rw [Value.elements?_rename, Option.bind_map]
    exact Option.bind_congr fun es _ => Value.mapM_rename classType?_rename es
  cases v with
  | null d => rfl
  | array id d n es => cases es <;> exact hElements
  | _ => exact hElements

/-- An effect in which nothing has a name. -/
theorem keeping_concur (hBond : Λ.Bond k h) {e e' : Effect} (he : Λ.Renames Effect.rename e e') :
    Concur (Λ.Alike k h) (keeping k e) (keeping h e') :=
  .ok ⟨Λ, .refl hBond, he⟩

theorem returnString_concur (hBond : Λ.Bond k h) (text : String) :
    Concur (Λ.Alike k h) (returnString k text) (returnString h text) := by
  obtain ⟨Λ', hΛ, hSame⟩ := hBond.exists_alloc
  refine .ok ⟨Λ', hΛ, fun f hf => ?_⟩
  simp [Effect.rename, Heap.alloc, hf.same _ _ hSame]

theorem findClass_concur (hBond : Λ.Bond k h) (hv : Λ.Renames Value.rename v v') :
    Concur (Λ.Alike k h) (findClass cs k v) (findClass cs h v') := by
  obtain ⟨f, hf⟩ := hBond.exists_spans
  obtain rfl := hv f hf
  cases v with
  | string id text =>
      refine keeping_concur hBond fun g hg => ?_
      split <;> rfl
  | array id d n es => cases es <;> exact keeping_concur hBond fun g hg => rfl
  | _ => exact keeping_concur hBond fun g hg => rfl

theorem readInteger_concur (hBond : Λ.Bond k h) (hv : Λ.Renames Value.rename v v') :
    Concur (Λ.Alike k h) (readInteger k v) (readInteger h v') := by
  obtain ⟨f, hf⟩ := hBond.exists_spans
  obtain rfl := hv f hf
  cases v with
  | string id text =>
      rw [Value.rename_string]
      unfold readInteger
      dsimp only
      split <;> exact keeping_concur hBond fun g hg => rfl
  | array id d n es => cases es <;> exact keeping_concur hBond fun g hg => rfl
  | _ => exact keeping_concur hBond fun g hg => rfl

theorem findMethod_concur (hBond : Λ.Bond k h)
    (hArgs : Λ.Renames (fun f => List.map (Value.rename f)) args args') :
    Concur (Λ.Alike k h) (findMethod cs k args) (findMethod cs h args') := by
  obtain ⟨f, hf⟩ := hBond.exists_spans
  have hUnknown : Concur (Λ.Alike k h) (keeping k .unknown) (keeping h .unknown) :=
    keeping_concur hBond fun _ _ => rfl
  refine (argument_concur hBond hArgs 0).bind fun definer definer' hDefiner => ?_
  refine (argument_concur hBond hArgs 1).bind fun name name' hName => ?_
  obtain rfl := hDefiner f hf
  obtain rfl := hName f hf
  cases definer with
  | type d =>
      cases name with
      | string id text =>
          refine (argument_concur hBond hArgs 2).bind fun params params' hParams => ?_
          obtain rfl := hParams f hf
          rw [paramTypes?_rename]
          cases (paramTypes? params).bind fun ps => cs.lookup? d text ps with
          | none => exact hUnknown
          | some found =>
              obtain ⟨m, _⟩ := found
              obtain ⟨Λ', hΛ, hSame⟩ := hBond.exists_alloc
              refine .ok ⟨Λ', hΛ, fun f hf => ?_⟩
              simp [Effect.rename, Heap.alloc, hf.same _ _ hSame]
      | array id d n es => cases es <;> exact hUnknown
      | _ => exact hUnknown
  | array id d n es => cases es <;> exact hUnknown
  | _ => exact hUnknown

theorem compareString_concur (hBond : Λ.Bond k h)
    (hArgs : Λ.Renames (fun f => List.map (Value.rename f)) args args') :
    Concur (Λ.Alike k h) (compareString k args) (compareString h args') := by
  obtain ⟨f, hf⟩ := hBond.exists_spans
  have hUnknown : Concur (Λ.Alike k h) (keeping k .unknown) (keeping h .unknown) :=
    keeping_concur hBond fun _ _ => rfl
  refine (argument_concur hBond hArgs 0).bind fun receiver receiver' hReceiver => ?_
  obtain rfl := hReceiver f hf
  cases receiver with
  | string id text =>
      refine (argument_concur hBond hArgs 1).bind fun other other' hOther => ?_
      obtain rfl := hOther f hf
      have hCompared : Concur (Λ.Alike k h)
          (keeping k (.returns (.boolean (other.text? = some text))))
          (keeping h (.returns (.boolean ((other.rename f).text? = some text)))) := by
        refine keeping_concur hBond fun g hg => ?_
        rw [Value.text?_rename]
        rfl
      cases other with
      | unknown d => exact hUnknown
      | uninit d => exact hUnknown
      | array id d n es => cases es <;> exact hCompared
      | _ => exact hCompared
  | array id d n es => cases es <;> exact hUnknown
  | _ => exact hUnknown

/-- A framework method does the same with arguments that differ in names only. -/
theorem call_concur (hBond : Λ.Bond k h)
    (hArgs : Λ.Renames (fun f => List.map (Value.rename f)) args args') (m : FrameworkMethod) :
    Concur (Λ.Alike k h) (m.call cs k args) (m.call cs h args') := by
  obtain ⟨f, hf⟩ := hBond.exists_spans
  have hUnknown : Concur (Λ.Alike k h) (keeping k .unknown) (keeping h .unknown) :=
    keeping_concur hBond fun _ _ => rfl
  cases m with
  | classForName =>
      exact (argument_concur hBond hArgs 0).bind fun v v' hv => findClass_concur hBond hv
  | className =>
      refine (argument_concur hBond hArgs 0).bind fun v v' hv => ?_
      obtain rfl := hv f hf
      cases v with
      | type d => exact returnString_concur hBond _
      | array id d n es => cases es <;> exact hUnknown
      | _ => exact hUnknown
  | classMethod | classDeclaredMethod => exact findMethod_concur hBond hArgs
  | stringOfBytes =>
      refine (argument_concur hBond hArgs 1).bind fun v v' hv => ?_
      rw [← hv f hf, Value.bytes?_rename]
      cases v.bytes? with
      | some bytes => exact returnString_concur hBond _
      | none => exact hUnknown
  | stringOfChars =>
      refine (argument_concur hBond hArgs 1).bind fun v v' hv => ?_
      rw [← hv f hf, Value.chars?_rename]
      cases v.chars? with
      | some units => exact returnString_concur hBond _
      | none => exact hUnknown
  | stringOfString =>
      refine (argument_concur hBond hArgs 1).bind fun v v' hv => ?_
      obtain rfl := hv f hf
      cases v with
      | string id text => exact returnString_concur hBond text
      | null d => exact keeping_concur hBond fun _ _ => rfl
      | array id d n es => cases es <;> exact hUnknown
      | _ => exact hUnknown
  | stringLength =>
      refine (argument_concur hBond hArgs 0).bind fun v v' hv => ?_
      rw [← hv f hf, Value.text?_rename]
      cases v.text? with
      | some text => exact keeping_concur hBond fun _ _ => rfl
      | none => exact hUnknown
  | stringEquals => exact compareString_concur hBond hArgs
  | stringOfInt =>
      refine (argument_concur hBond hArgs 0).bind fun v v' hv => ?_
      rw [← hv f hf, Value.int32?_rename]
      cases v.int32? with
      | some n => exact returnString_concur hBond _
      | none => exact hUnknown
  | stringToString =>
      refine (argument_concur hBond hArgs 0).bind fun v v' hv => keeping_concur hBond fun g hg => ?_
      rw [← hv g hg, Value.text?_rename]
      split <;> rfl
  | integerOfInt =>
      refine (argument_concur hBond hArgs 0).bind fun v v' hv => ?_
      rw [← hv f hf, Value.int32?_rename]
      cases v.int32? with
      | none => exact hUnknown
      | some n =>
          obtain ⟨Λ', hΛ, hSame⟩ := hBond.exists_alloc
          refine .ok ⟨Λ', hΛ, fun f hf => ?_⟩
          simp [Effect.rename, Heap.alloc, hf.same _ _ hSame]
  | integerToInt =>
      refine (argument_concur hBond hArgs 0).bind fun v v' hv => ?_
      rw [← hv f hf, Value.unboxed?_rename]
      have hInt : (v.unboxed?.map (Value.rename f)).bind Value.int32? = v.unboxed?.bind Value.int32? := by
        cases v.unboxed? <;> simp
      rw [hInt]
      cases v.unboxed?.bind Value.int32? with
      | some n => exact keeping_concur hBond fun _ _ => rfl
      | none => exact hUnknown
  | integerOfString =>
      exact (argument_concur hBond hArgs 0).bind fun v v' hv => readInteger_concur hBond hv

end FrameworkMethod

namespace Semantics

open Run (Mirrors)

variable {Λ : Links} {s t : Supply} {pre pre' post post' : State}

/-- An array that both heaps have made. -/
theorem assignArray_mirrors (hBond : Λ.Bond s.heap t.heap) (hBudget : s.budget = t.budget)
    (hPost : Λ.Renames State.rename post post') (dst : Register) (type : Descriptor)
    (length : Option Nat) {elements : Option (List Value)}
    (hElements : ∀ f, elements.map (List.map (Value.rename f)) = elements) {hazard : Option Value}
    (hHazard : ∀ f, hazard.map (Value.rename f) = hazard) :
    let made : Run Outcome := do
      let v ← Run.onHeap fun h => h.newArray type length elements
      Run.ofExcept (Outcome.assign post dst v hazard)
    let made' : Run Outcome := do
      let v ← Run.onHeap fun h => h.newArray type length elements
      Run.ofExcept (Outcome.assign post' dst v hazard)
    Mirrors Λ made made' s t fun Λ' => Λ'.Renames Outcome.rename := by
  have hMade : Mirrors Λ (Run.onHeap fun h => h.newArray type length elements)
      (Run.onHeap fun h => h.newArray type length elements) s t fun Λ' => Λ'.Renames Value.rename := by
    obtain ⟨Λ', hΛ, hSame⟩ := hBond.exists_alloc
    refine Run.mirrors_onHeap hBudget ⟨Λ', hΛ, fun f hf => ?_⟩
    simp [Heap.newArray, Heap.alloc, hf.same _ _ hSame, hElements f]
  refine hMade.bind fun Λ' s' t' v v' hΛ hLeft hv => Run.mirrors_ofExcept hΛ.bond hLeft fun f hf => ?_
  rw [← hv f hf, ← hPost.grow hΛ.grows f hf]
  exact (assign_rename (hHazard f) dst v).symm

theorem newArray_mirrors (hBond : Λ.Bond s.heap t.heap) (hBudget : s.budget = t.budget)
    (hPre : Λ.Renames State.rename pre pre') (hPost : Λ.Renames State.rename post post')
    (dst size : Register) (type : Descriptor) :
    Mirrors Λ (newArray pre post dst size type) (newArray pre' post' dst size type) s t
      fun Λ' => Λ'.Renames Outcome.rename := by
  have hSize : Mirrors Λ (Run.ofExcept (readInt pre size)) (Run.ofExcept (readInt pre' size)) s t
      fun Λ' => Λ'.Renames fun _ => id := by
    refine Run.mirrors_ofExcept hBond hBudget fun f hf => ?_
    rw [← hPre f hf, readInt_rename]
    cases readInt pre size <;> rfl
  refine hSize.bind fun Λ' s' t' n n' hΛ hLeft hn => ?_
  obtain ⟨f, hf⟩ := hΛ.bond.exists_spans
  obtain rfl : n = n' := hn f hf
  have hNow := hPost.grow hΛ.grows
  cases n with
  | none => exact assignArray_mirrors hΛ.bond hLeft hNow dst type none (fun _ => rfl) fun _ => rfl
  | some n =>
      dsimp only
      split
      · refine Run.mirrors_pure hΛ.bond hLeft fun f hf => ?_
        rw [← hNow f hf]
        rfl
      · refine assignArray_mirrors hΛ.bond hLeft hNow dst type _ (fun f => ?_) fun _ => rfl
        split
        · rw [Option.map_some, List.map_replicate, Value.rename_zero]
        · rfl

theorem fillArray_mirrors (hBond : Λ.Bond s.heap t.heap) (hBudget : s.budget = t.budget)
    (hPre : Λ.Renames State.rename pre pre') (hPost : Λ.Renames State.rename post post')
    (array : Register) (data : List Literal) :
    Mirrors Λ (fillArray pre post array data) (fillArray pre' post' array data) s t
      fun Λ' => Λ'.Renames Outcome.rename := by
  have hArray : Mirrors Λ (Run.ofExcept (pre.read array)) (Run.ofExcept (pre'.read array)) s t
      fun Λ' => Λ'.Renames Value.rename := by
    refine Run.mirrors_ofExcept hBond hBudget fun f hf => ?_
    rw [← hPre f hf, State.read_rename]
  refine hArray.bind fun Λ' s' t' v v' hΛ hLeft hv => ?_
  have hNow := hPost.grow hΛ.grows
  have hRaise (type : Descriptor) : Mirrors Λ' (pure (Outcome.raise post type))
      (pure (Outcome.raise post' type)) s' t' fun Λ' => Λ'.Renames Outcome.rename :=
    Run.mirrors_pure hΛ.bond hLeft fun f hf => by rw [← hNow f hf]; rfl
  have hMayRaise (type : Descriptor) : Mirrors Λ' (pure (Outcome.nextOr post (someException type)))
      (pure (Outcome.nextOr post' (someException type))) s' t' fun Λ' => Λ'.Renames Outcome.rename :=
    Run.mirrors_pure hΛ.bond hLeft fun f hf => by rw [← hNow f hf]; rfl
  obtain ⟨f, hf⟩ := hΛ.bond.exists_spans
  have hOne := hv f hf
  cases v with
  | null d =>
      obtain rfl := hOne
      exact hRaise _
  | array id d n es =>
      rw [Value.rename_array] at hOne
      subst hOne
      cases n with
      | none => exact hMayRaise _
      | some length =>
          dsimp only
          split
          · exact hRaise _
          · split
            · have hOld : (es.map (List.map (Value.rename f))).getD
                  (List.replicate length (Value.zero d.elementOrObject)) =
                (es.getD (List.replicate length (Value.zero d.elementOrObject))).map (Value.rename f) := by
                cases es <;> simp
              rw [hOld, List.length_map]
              have hNew : Mirrors Λ'
                  (Run.onHeap fun h => h.literals (data.take
                    (es.getD (List.replicate length (Value.zero d.elementOrObject))).length))
                  (Run.onHeap fun h => h.literals (data.take
                    (es.getD (List.replicate length (Value.zero d.elementOrObject))).length)) s' t'
                  fun Λ'' => Λ''.Renames fun f => List.map (Value.rename f) :=
                Run.mirrors_onHeap hLeft (hΛ.bond.literals_rename _)
              refine hNew.bind fun Λ'' s'' t'' new new' hΛ' hLeft' hnew =>
                Run.mirrors_pure hΛ'.bond hLeft' fun g hg => ?_
              -- every renaming that spans the links renames the old contents alike
              have hSame := (hv.grow hΛ'.grows) g hg
              rw [Value.rename_array] at hSame
              injection hSame with hId _ _ hElements
              have hOld' : (es.getD (List.replicate length (Value.zero d.elementOrObject))).map
                  (Value.rename f) =
                (es.getD (List.replicate length (Value.zero d.elementOrObject))).map (Value.rename g) := by
                cases es with
                | none => simp
                | some es => exact (Option.some.inj hElements).symm
              have hCoerced : new'.map (fun v => v.coerce d.elementOrObject) =
                  (new.map fun v => v.coerce d.elementOrObject).map (Value.rename g) := by
                rw [← hnew g hg]
                simp [Function.comp_def]
              rw [hOld', hCoerced, overwrite_rename, ← hId, ← hNow.grow hΛ'.grows g hg]
              have hUpdate := State.updateInstance_rename hg.injective post id
                (.array id d (some length) (some (overwrite
                  (es.getD (List.replicate length (Value.zero d.elementOrObject)))
                  (new.map fun v => v.coerce d.elementOrObject))))
              rw [Value.rename_array, Option.map_some] at hUpdate
              exact congrArg Outcome.next hUpdate.symm
            · exact hMayRaise _
  | _ =>
      obtain rfl := hOne
      exact hMayRaise _

namespace Context

/-- The calls of local methods do the same with arguments that differ in names only. -/
def CallsMirror (c : Context) : Prop :=
  ∀ (callee : Method) (values values' : List Value) (Λ : Links) (s t : Supply),
    Λ.Bond s.heap t.heap → s.budget = t.budget →
      Λ.Renames (fun f => List.map (Value.rename f)) values values' →
        Mirrors Λ (c.call callee values) (c.call callee values') s t fun Λ' =>
          Λ'.Renames fun f => Option.map (Effect.rename f)

variable {c : Context} {values values' : List Value}

/-- After a call of which nothing is known. -/
theorem opaque_mirrors (hBond : Λ.Bond s.heap t.heap) (hBudget : s.budget = t.budget)
    (hPost : Λ.Renames State.rename post post') (m : MethodReference) (args : List Register)
    (done : State → Outcome) (hDone : ∀ f s, done (State.rename f s) = (done s).rename f) :
    Mirrors Λ (Run.ofExcept (opaqueResult post m args) >>= fun post => pure (done post))
      (Run.ofExcept (opaqueResult post' m args) >>= fun post => pure (done post)) s t
      fun Λ' => Λ'.Renames Outcome.rename := by
  have hOpaque : Mirrors Λ (Run.ofExcept (opaqueResult post m args))
      (Run.ofExcept (opaqueResult post' m args)) s t fun Λ' => Λ'.Renames State.rename := by
    refine Run.mirrors_ofExcept hBond hBudget fun f hf => ?_
    rw [← hPost f hf, opaqueResult_rename]
  refine hOpaque.bind fun Λ' s' t' w v hΛ hLeft hw => Run.mirrors_pure hΛ.bond hLeft fun f hf => ?_
  rw [← hw f hf, hDone]

theorem applyEffect_mirrors (hBond : Λ.Bond s.heap t.heap) (hBudget : s.budget = t.budget)
    (hPost : Λ.Renames State.rename post post') (m : MethodReference) (args : List Register)
    {e e' : Effect} (he : Λ.Renames Effect.rename e e') :
    Mirrors Λ (Run.ofExcept (applyEffect post m args e)) (Run.ofExcept (applyEffect post' m args e')) s t
      fun Λ' => Λ'.Renames Outcome.rename := by
  refine Run.mirrors_ofExcept hBond hBudget fun f hf => ?_
  rw [← hPost f hf, ← he f hf, applyEffect_rename]

theorem invokeFramework_mirrors (hBond : Λ.Bond s.heap t.heap) (hBudget : s.budget = t.budget)
    (hPost : Λ.Renames State.rename post post')
    (hValues : Λ.Renames (fun f => List.map (Value.rename f)) values values') (fm : FrameworkMethod)
    (m : MethodReference) (args : List Register) :
    Mirrors Λ (c.invokeFramework fm m args values post) (c.invokeFramework fm m args values' post') s t
      fun Λ' => Λ'.Renames Outcome.rename := by
  have hCall : Mirrors Λ (Run.onHeap? fun h => fm.call c.classes h values)
      (Run.onHeap? fun h => fm.call c.classes h values') s t fun Λ' => Λ'.Renames Effect.rename :=
    Run.mirrors_onHeap? hBond hBudget (FrameworkMethod.call_concur hBond hValues fm)
  refine hCall.bind fun Λ' s' t' e e' hΛ hLeft he => ?_
  have hNow := hPost.grow hΛ.grows
  obtain ⟨f, hf⟩ := hΛ.bond.exists_spans
  have hOne := he f hf
  cases e with
  | unknown =>
      obtain rfl := hOne
      exact opaque_mirrors hΛ.bond hLeft hNow m args (fun post =>
        .nextOr post (someException .throwable)) fun _ _ => rfl
  | _ =>
      obtain rfl := hOne
      exact applyEffect_mirrors hΛ.bond hLeft hNow m args he

theorem invokeOther_mirrors (hCalls : c.CallsMirror) (hBond : Λ.Bond s.heap t.heap)
    (hBudget : s.budget = t.budget) (hPost : Λ.Renames State.rename post post')
    (hValues : Λ.Renames (fun f => List.map (Value.rename f)) values values') (kind : InvokeKind)
    (m : MethodReference) (args : List Register) :
    Mirrors Λ (c.invokeOther kind m args values post) (c.invokeOther kind m args values' post') s t
      fun Λ' => Λ'.Renames Outcome.rename := by
  rw [invokeOther_eq, invokeOther_eq]
  refine Mirrors.bind (P := fun Λ' => Λ'.Renames fun f => Option.map (Effect.rename f)) ?_
    fun Λ' s' t' e e' hΛ hLeft he => ?_
  · cases c.callee? kind m with
    | none => exact Run.mirrors_pure hBond hBudget fun _ _ => rfl
    | some callee => exact hCalls callee values values' Λ s t hBond hBudget hValues
  have hNow : Λ'.Renames State.rename (values.foldl clobber post) (values'.foldl clobber post') := by
    intro f hf
    rw [← hValues.grow hΛ.grows f hf, ← hPost.grow hΛ.grows f hf, foldl_clobber_rename hf.injective]
  obtain ⟨f, hf⟩ := hΛ.bond.exists_spans
  have hOne := he f hf
  cases e with
  | none =>
      obtain rfl := hOne
      exact opaque_mirrors hΛ.bond hLeft hNow m args (fun post =>
        .nextOr post (someException .throwable)) fun _ _ => rfl
  | some e =>
      obtain rfl := hOne
      dsimp only [conclude, Option.map]
      split
      · exact opaque_mirrors hΛ.bond hLeft hNow m args .next fun _ _ => rfl
      · exact applyEffect_mirrors hΛ.bond hLeft hNow m args fun g hg => Option.some.inj (he g hg)

theorem invoke_mirrors (hCalls : c.CallsMirror) (hBond : Λ.Bond s.heap t.heap)
    (hBudget : s.budget = t.budget) (hPre : Λ.Renames State.rename pre pre')
    (hPost : Λ.Renames State.rename post post') (kind : InvokeKind) (m : MethodReference)
    (args : List Register) :
    Mirrors Λ (c.invoke kind m args pre post) (c.invoke kind m args pre' post') s t
      fun Λ' => Λ'.Renames Outcome.rename := by
  have hRead : Mirrors Λ (Run.ofExcept (args.mapM pre.read)) (Run.ofExcept (args.mapM pre'.read)) s t
      fun Λ' => Λ'.Renames fun f => List.map (Value.rename f) := by
    refine Run.mirrors_ofExcept hBond hBudget fun f hf => ?_
    rw [← hPre f hf, mapM_read_rename]
  refine hRead.bind fun Λ' s' t' values values' hΛ hLeft hValues => ?_
  have hNow := hPost.grow hΛ.grows
  have hNull : hasNullReceiver kind values' = hasNullReceiver kind values := by
    obtain ⟨f, hf⟩ := hΛ.bond.exists_spans
    rw [← hValues f hf, hasNullReceiver_rename]
  rw [hNull]
  split
  · refine Run.mirrors_pure hΛ.bond hLeft fun f hf => ?_
    rw [← hNow f hf]
    rfl
  · unfold invokePresent
    split
    · exact invokeFramework_mirrors hΛ.bond hLeft hNow hValues _ m args
    · exact invokeOther_mirrors hCalls hΛ.bond hLeft hNow hValues kind m args

/-- An instruction does the same in states that differ in names only. -/
theorem execute_mirrors (hCalls : c.CallsMirror) (hBond : Λ.Bond s.heap t.heap)
    (hBudget : s.budget = t.budget) (hPre : Λ.Renames State.rename pre pre')
    (hPost : Λ.Renames State.rename post post') (a : Address) (i : Instruction Address) :
    Mirrors Λ (c.execute a i pre post) (c.execute a i pre' post') s t
      fun Λ' => Λ'.Renames Outcome.rename := by
  have hGoes {o o' : Outcome} (h : Λ.Renames Outcome.rename o o') :
      Mirrors Λ (pure o) (pure o') s t fun Λ' => Λ'.Renames Outcome.rename :=
    Run.mirrors_pure hBond hBudget h
  -- what depends on the states alone
  have hPure {x x' : Except Error Outcome}
      (h : ∀ f, Λ.Spans f → pre.rename f = pre' → post.rename f = post' → x' = x.map (Outcome.rename f)) :
      Mirrors Λ (Run.ofExcept x) (Run.ofExcept x') s t fun Λ' => Λ'.Renames Outcome.rename :=
    Run.mirrors_ofExcept hBond hBudget fun f hf => (h f hf (hPre f hf) (hPost f hf)).symm
  cases i with
  | nop => exact hGoes fun f hf => by rw [← hPost f hf]; rfl
  | returnVoid => exact hGoes fun f hf => by rw [← hPost f hf]; rfl
  | goto target => exact hGoes fun f hf => by rw [← hPost f hf]; rfl
  | const dst l =>
      have hLoad : Mirrors Λ (Run.onHeap fun h => h.literal l) (Run.onHeap fun h => h.literal l) s t
          fun Λ' => Λ'.Renames Value.rename :=
        Run.mirrors_onHeap hBudget (hBond.literal_renames l)
      refine hLoad.bind fun Λ' s' t' v v' hΛ hLeft hv => Run.mirrors_ofExcept hΛ.bond hLeft fun f hf => ?_
      rw [← hv f hf, ← hPost.grow hΛ.grows f hf]
      exact (assign_rename rfl dst v).symm
  | move dst src =>
      refine hPure ?_
      rintro f _ rfl rfl
      rw [State.read_rename]
      exact except_map_bind fun v => assign_rename rfl dst v
  | moveResult dst =>
      refine hPure ?_
      rintro f _ rfl rfl
      have hResult : (pre.rename f).result.getD (.unknown .object) =
          (pre.result.getD (.unknown .object)).rename f := by
        simp only [State.rename]
        cases pre.result <;> rfl
      rw [hResult]
      exact assign_rename rfl dst _
  | moveException dst =>
      refine hPure ?_
      rintro f _ rfl rfl
      have hException : (pre.rename f).exception.getD (.unknown .throwable) =
          (pre.exception.getD (.unknown .throwable)).rename f := by
        simp only [State.rename]
        cases pre.exception <;> rfl
      rw [hException]
      exact assign_rename rfl dst _
  | returnValue src => exact hPure (by rintro f _ rfl rfl; exact returnValue_rename src)
  | throw src => exact hPure (by rintro f _ rfl rfl; exact throwValue_rename src)
  | branch cond lhs rhs target =>
      exact hPure (by rintro f hf rfl rfl; exact branch_rename hf.injective _ cond lhs rhs target)
  | switch src cases => exact hPure (by rintro f _ rfl rfl; exact switch_rename _ src cases)
  | compare kind dst lhs rhs => exact hPure (by rintro f _ rfl rfl; exact compare_rename kind dst lhs rhs)
  | unary op dst src => exact hPure (by rintro f _ rfl rfl; exact unary_rename op dst src)
  | binary op type dst lhs rhs =>
      exact hPure (by rintro f _ rfl rfl; exact binary_rename op type dst lhs rhs)
  | newInstance dst d => exact hPure (by rintro f _ rfl rfl; exact assign_rename_self rfl rfl dst)
  | checkCast r d => exact hPure (by rintro f _ rfl rfl; exact checkCast_rename r d)
  | instanceOf dst src d => exact hPure (by rintro f _ rfl rfl; exact instanceOf_rename dst src d)
  | newArray dst size d => exact newArray_mirrors hBond hBudget hPre hPost dst size d
  | arrayLength dst array => exact hPure (by rintro f _ rfl rfl; exact arrayLength_rename dst array)
  | arrayGet dst array index => exact hPure (by rintro f _ rfl rfl; exact arrayGet_rename dst array index)
  | arrayPut src array index =>
      exact hPure (by rintro f hf rfl rfl; exact arrayPut_rename hf.injective src array index)
  | fillArray array data => exact fillArray_mirrors hBond hBudget hPre hPost array data
  | fieldGet dst o field => exact hPure (by rintro f _ rfl rfl; exact fieldGet_rename dst o field)
  | fieldPut src o field => exact hPure (by rintro f _ rfl rfl; exact fieldPut_rename src o)
  | invoke kind m args => exact invoke_mirrors hCalls hBond hBudget hPre hPost kind m args

/-- A step from states that differ in names only leads to the same places, with states that differ in
names only. -/
theorem apply_mirrors (hCalls : c.CallsMirror) (hBond : Λ.Bond s.heap t.heap)
    (hBudget : s.budget = t.budget) (hPre : Λ.Renames State.rename pre pre') (a : Address) :
    Mirrors Λ (c.apply a pre) (c.apply a pre') s t fun Λ' => Λ'.Renames Step.rename := by
  cases hi : c.method.code.at? a with
  | none =>
      unfold apply
      rw [hi]
      exact Run.mirrors_throw hBond hBudget (.address a)
  | some i =>
      rw [apply_eq c pre hi, apply_eq c pre' hi]
      have hResting : Λ.Renames State.rename { pre with result := none, exception := none }
          { pre' with result := none, exception := none } := fun f hf => by rw [← hPre f hf]; rfl
      refine (execute_mirrors hCalls hBond hBudget hPre hResting a i).bind
        fun Λ' s' t' o o' hΛ hLeft ho => Run.mirrors_ofExcept hΛ.bond hLeft fun f hf => ?_
      rw [← ho f hf, ← hPre.grow hΛ.grows f hf, successors_rename]
      cases c.successors a pre o <;> rfl

end Context

end Semantics

end Dalvik
