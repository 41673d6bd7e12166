import Dalvik.Proofs.ArrayCovering
import Dalvik.Proofs.Frugal

/-!
What two runs make of calls. The effect of a framework method on arguments that the second run does not
know is none that changes anything, so that the first run may know what it is.
-/

namespace Dalvik

open Value (Stands)

/-- What is known of a call in two runs. -/
inductive Effect.Stands (Λ : Links) : Effect → Effect → Prop
  | returns {w v : Value} : Value.Stands Λ w v → Effect.Stands Λ (.returns w) (.returns v)
  | void : Effect.Stands Λ .void .void
  | throws (type : Descriptor) : Effect.Stands Λ (.throws type) (.throws type)
  | unknown : Effect.Stands Λ .unknown .unknown
  | hidden {e : Effect} : Λ.loose → e ≠ .void → (∀ w, e = .returns w → w.Hidden Λ) →
      Effect.Stands Λ e .unknown

namespace FrameworkMethod

variable {Λ : Links} {k h : Heap} {w v : Value} {ws vs : List Value}

/-- What two heaps and the effects of a call have in common. -/
def Agrees (Λ : Links) (k h : Heap) (p q : Effect × Heap) : Prop :=
  ∃ Λ', Λ.Advances k h Λ' p.2 q.2 ∧ Effect.Stands Λ' p.1 q.1

theorem argument_tracks (hArgs : List.Forall₂ (Stands Λ) ws vs) (index : Nat) :
    Tracks Λ (argument ws index) (argument vs index) (Stands Λ) := by
  unfold argument
  induction hArgs generalizing index with
  | nil => rintro _ ⟨⟩
  | cons hHead _ ih =>
      cases index with
      | zero => exact tracks_pure hHead
      | succ index => exact ih index

theorem keeping_tracks (hBond : Λ.Bond k h) {e e' : Effect} (hEffect : Effect.Stands Λ e e') :
    Tracks Λ (keeping k e) (keeping h e') (Agrees Λ k h) :=
  tracks_pure ⟨Λ, .refl hBond, hEffect⟩

/-- Both calls return a new instance. -/
theorem alloc_tracks (hBond : Λ.Bond k h) {make : Nat → Value}
    (hMake : ∀ (Λ' : Links) (i j : Nat), Λ'.Fixed i j → Stands Λ' (make i) (make j)) :
    Tracks Λ (.ok (.returns (make k.alloc.1), k.alloc.2)) (.ok (.returns (make h.alloc.1), h.alloc.2))
      (Agrees Λ k h) :=
  tracks_pure ⟨_, hBond.alloc False, .returns (hMake _ _ _ hBond.allocFixed)⟩

/-- Only the first call is known to return a new instance. -/
theorem alloc_first_tracks (hBond : Λ.Bond k h) (hl : Λ.loose) {make : Nat → Value}
    (hMake : ∀ (Λ' : Links) (i : Nat), Λ'.Free i → (make i).Hidden Λ') :
    Tracks Λ (.ok (.returns (make k.alloc.1), k.alloc.2)) (keeping h .unknown) (Agrees Λ k h) := by
  have hNow := hBond.advances (Heap.grows_alloc k) (Heap.Grows.refl h)
  refine tracks_pure ⟨_, hNow, .hidden hl (by simp) ?_⟩
  rintro w ⟨⟩
  refine hMake _ _ ⟨Nat.lt_succ_self _, fun hOld => ?_⟩
  exact Nat.not_lt_of_le hBond.bound (hBond.changing _ hOld).1

theorem hidden_string {Λ' : Links} {i : Nat} (text : String) (h : Λ'.Free i) :
    (Value.string i text).Hidden Λ' :=
  ⟨by simpa [Value.ids] using h, by simp [Value.stores]⟩

theorem hidden_box {Λ' : Links} {i : Nat} (n : Int32) (h : Λ'.Free i) :
    (Value.boxed i .integerBox (.int n)).Hidden Λ' :=
  ⟨by simpa [Value.ids] using h, by simp [Value.stores]⟩

theorem hidden_method {Λ' : Links} {i : Nat} (m : MethodReference) (h : Λ'.Free i) :
    (Value.method i .reflectedMethod m).Hidden Λ' :=
  ⟨by simpa [Value.ids] using h, by simp [Value.stores]⟩

/-- A new string that may be known of in the first run only. -/
theorem string_tracks (hBond : Λ.Bond k h) (text : String) :
    Tracks Λ (returnString k text) (returnString h text) (Agrees Λ k h) ∧
      (Λ.loose → Tracks Λ (returnString k text) (keeping h .unknown) (Agrees Λ k h)) :=
  ⟨alloc_tracks hBond fun _ _ _ hFixed => .string text hFixed,
    fun hl => alloc_first_tracks hBond hl fun _ _ hFree => hidden_string text hFree⟩

theorem sharper_mapM {β : Type} {g : Value → Option β}
    (hg : ∀ w v, Stands Λ w v → Value.Sharper Λ (g w) (g v)) (hvs : List.Forall₂ (Stands Λ) ws vs) :
    Value.Sharper Λ (ws.mapM g) (vs.mapM g) := by
  induction hvs with
  | nil => exact .inl rfl
  | cons hHead _ ih =>
      rw [List.mapM_cons, List.mapM_cons]
      rcases hg _ _ hHead with hSame | ⟨hl, hNone⟩
      · rw [hSame]
        rcases ih with hRest | ⟨hl, hNone⟩
        · exact .inl (by rw [hRest])
        · refine .inr ⟨hl, ?_⟩
          rw [hNone]
          cases g _ <;> rfl
      · exact .inr ⟨hl, by rw [hNone]; rfl⟩

/-- What all elements of an array are known to be. -/
theorem sharper_elements {β : Type} {g : Value → Option β}
    (hg : ∀ w v, Stands Λ w v → Value.Sharper Λ (g w) (g v)) (hv : Stands Λ w v) :
    Value.Sharper Λ (w.elements?.bind fun es => es.mapM g) (v.elements?.bind fun es => es.mapM g) := by
  cases hv with
  | hidden d hl hw => exact .inr ⟨hl, rfl⟩
  | atom h => exact .inl rfl
  | array d n _ hvs _ => exact sharper_mapM hg hvs
  | tracked d m n _ hl _ _ => exact .inr ⟨hl, rfl⟩
  | _ => exact .inl rfl

theorem sharper_bytes? (hv : Stands Λ w v) : Value.Sharper Λ w.bytes? v.bytes? :=
  sharper_elements (fun _ _ hv => hv.sharper (fun _ => rfl) fun hKnown => by
    cases hv <;> first | rfl | cases hKnown) hv

theorem sharper_chars? (hv : Stands Λ w v) : Value.Sharper Λ w.chars? v.chars? :=
  sharper_elements (fun _ _ hv => hv.sharper (fun _ => rfl) fun hKnown => by
    cases hv <;> first | rfl | cases hKnown) hv

theorem sharper_classType? (hv : Stands Λ w v) : Value.Sharper Λ (classType? w) (classType? v) :=
  hv.sharper (fun _ => rfl) fun hKnown => by cases hv <;> first | rfl | cases hKnown

theorem sharper_paramTypes? (hv : Stands Λ w v) :
    Value.Sharper Λ (paramTypes? w) (paramTypes? v) := by
  have hElements := sharper_elements (fun _ _ hv => sharper_classType? hv) hv
  cases hv with
  | hidden d hl hw => exact .inr ⟨hl, rfl⟩
  | null d e => exact .inl rfl
  | atom h => exact .inl rfl
  | array d n _ _ _ => exact hElements
  | tracked d m n _ hl _ _ => exact .inr ⟨hl, rfl⟩
  | _ => exact .inl rfl

/-- The first run may know of an exception. -/
theorem throws_first_tracks (hBond : Λ.Bond k h) (hl : Λ.loose) (type : Descriptor) :
    Tracks Λ (keeping k (.throws type)) (keeping h .unknown) (Agrees Λ k h) :=
  keeping_tracks hBond (.hidden hl (by simp) (by simp))

theorem atom_first_tracks (hBond : Λ.Bond k h) (hl : Λ.loose) (hAtom : w.isAtom = true) :
    Tracks Λ (keeping k (.returns w)) (keeping h .unknown) (Agrees Λ k h) := by
  refine keeping_tracks hBond (.hidden hl (by simp) ?_)
  rintro _ ⟨⟩
  exact Value.hidden_of_isAtom hAtom

theorem findClass_tracks (hBond : Λ.Bond k h) (cs : Classes) (hv : Stands Λ w v) :
    Tracks Λ (findClass cs k w) (findClass cs h v) (Agrees Λ k h) := by
  have hUnknown := keeping_tracks hBond .unknown
  cases hv with
  | hidden d hl hw =>
      unfold findClass
      split
      · exact throws_first_tracks hBond hl _
      · dsimp only
        split
        · exact atom_first_tracks hBond hl rfl
        · exact hUnknown
      · exact hUnknown
  | null d e => exact keeping_tracks hBond (.throws _)
  | atom h => cases w <;> first | (cases h; done) | exact hUnknown
  | string text hFixed =>
      unfold findClass
      dsimp only
      split
      · exact keeping_tracks hBond (.returns (.atom rfl))
      · exact hUnknown
  | _ => exact hUnknown

/-- A method that is looked up in the first run only. -/
theorem lookup_first_tracks (hBond : Λ.Bond k h) (hl : Λ.loose) (cs : Classes) (us : List Value)
    (definer : Descriptor) (name : String) :
    Tracks Λ
      (argument us 2 >>= fun params =>
        match (paramTypes? params).bind fun ps => cs.lookup? definer name ps with
        | some (m, _) => pure (.returns (k.newMethod m).1, (k.newMethod m).2)
        | none => pure (.unknown, k))
      (keeping h .unknown) (Agrees Λ k h) := by
  refine .bind_first hl fun params _ => ?_
  split
  · exact alloc_first_tracks hBond hl fun _ _ hFree => hidden_method _ hFree
  · exact keeping_tracks hBond .unknown

/-- A method that is looked up in both runs, with parameter types that may be known in the first only. -/
theorem lookup_tracks (hBond : Λ.Bond k h) (cs : Classes) (hArgs : List.Forall₂ (Stands Λ) ws vs)
    (definer : Descriptor) (name : String) :
    Tracks Λ
      (argument ws 2 >>= fun params =>
        match (paramTypes? params).bind fun ps => cs.lookup? definer name ps with
        | some (m, _) => pure (.returns (k.newMethod m).1, (k.newMethod m).2)
        | none => pure (.unknown, k))
      (argument vs 2 >>= fun params =>
        match (paramTypes? params).bind fun ps => cs.lookup? definer name ps with
        | some (m, _) => pure (.returns (h.newMethod m).1, (h.newMethod m).2)
        | none => pure (.unknown, h)) (Agrees Λ k h) := by
  refine (argument_tracks hArgs 2).bind fun u u' hu => ?_
  rcases sharper_paramTypes? hu with hSame | ⟨hl, hNone⟩
  · rw [hSame]
    split
    · exact alloc_tracks hBond fun _ _ _ hFixed => .method _ _ hFixed
    · exact keeping_tracks hBond .unknown
  · rw [hNone]
    dsimp only [Option.bind_none]
    split
    · exact alloc_first_tracks hBond hl fun _ _ hFree => hidden_method _ hFree
    · exact keeping_tracks hBond .unknown

theorem findMethod_tracks (hBond : Λ.Bond k h) (cs : Classes)
    (hArgs : List.Forall₂ (Stands Λ) ws vs) :
    Tracks Λ (findMethod cs k ws) (findMethod cs h vs) (Agrees Λ k h) := by
  have hUnknown := keeping_tracks hBond .unknown
  refine (argument_tracks hArgs 0).bind fun w v hv =>
    (argument_tracks hArgs 1).bind fun w' v' hv' => ?_
  cases hv with
  | hidden d hl hw =>
      split
      · exact lookup_first_tracks hBond hl cs ws _ _
      · exact hUnknown
  | atom h =>
      cases w with
      | type d =>
          cases hv' with
          | hidden e hl hw =>
              split
              · rename_i hType _
                cases hType
                exact lookup_first_tracks hBond hl cs ws _ _
              · exact hUnknown
          | string text _ => exact lookup_tracks hBond cs hArgs d text
          | atom h => cases w' <;> first | (cases h; done) | exact hUnknown
          | _ => exact hUnknown
      | _ => first | (cases h; done) | exact hUnknown
  | _ => exact hUnknown

/-- An atom that may be known in the first run only. -/
theorem atom_tracks (hBond : Λ.Bond k h) (hAtom : w.isAtom = true) :
    Tracks Λ (keeping k (.returns w)) (keeping h (.returns w)) (Agrees Λ k h) ∧
      (Λ.loose → Tracks Λ (keeping k (.returns w)) (keeping h .unknown) (Agrees Λ k h)) :=
  ⟨keeping_tracks hBond (.returns (.atom hAtom)), fun hl => atom_first_tracks hBond hl hAtom⟩

/-- A string that is compared in the first run only. -/
theorem compareString_first_tracks (hBond : Λ.Bond k h) (hl : Λ.loose) (u : Value) (text : String) :
    Tracks Λ
      (match u with
        | .unknown _ => pure (.unknown, k)
        | .uninit _ => pure (.unknown, k)
        | v => pure (.returns (.boolean (v.text? = some text)), k))
      (keeping h .unknown) (Agrees Λ k h) := by
  split
  · exact keeping_tracks hBond .unknown
  · exact keeping_tracks hBond .unknown
  · exact atom_first_tracks hBond hl rfl

theorem compareString_tracks (hBond : Λ.Bond k h) (hArgs : List.Forall₂ (Stands Λ) ws vs) :
    Tracks Λ (compareString k ws) (compareString h vs) (Agrees Λ k h) := by
  have hUnknown := keeping_tracks hBond .unknown
  refine (argument_tracks hArgs 0).bind fun w v hv => ?_
  cases hv with
  | hidden d hl hw =>
      split
      · exact .bind_first hl fun u _ => compareString_first_tracks hBond hl u _
      · exact hUnknown
  | atom h => cases w <;> first | (cases h; done) | exact hUnknown
  | string text _ =>
      refine (argument_tracks hArgs 1).bind fun w' v' hv' => ?_
      have hAtom (b : Bool) := (atom_tracks (w := .boolean b) hBond rfl).1
      cases hv' with
      | unknown d => exact hUnknown
      | hidden d hl _ => exact compareString_first_tracks hBond hl w' text
      | atom h => cases w' <;> first | (cases h; done) | exact hUnknown | exact hAtom _
      | _ => exact hAtom _
  | _ => exact hUnknown

theorem readInteger_tracks (hBond : Λ.Bond k h) (hv : Stands Λ w v) :
    Tracks Λ (readInteger k w) (readInteger h v) (Agrees Λ k h) := by
  have hUnknown := keeping_tracks hBond .unknown
  cases hv with
  | hidden d hl hw =>
      unfold readInteger
      split
      · exact throws_first_tracks hBond hl _
      · split
        · exact atom_first_tracks hBond hl rfl
        · exact throws_first_tracks hBond hl _
      · exact hUnknown
  | null d e => exact keeping_tracks hBond (.throws _)
  | atom h => cases w <;> first | (cases h; done) | exact hUnknown
  | string text hFixed =>
      unfold readInteger
      dsimp only
      split
      · exact keeping_tracks hBond (.returns (.atom rfl))
      · exact keeping_tracks hBond (.throws _)
  | _ => exact hUnknown

/-- Every framework method keeps to what the second run knows of its arguments. -/
theorem call_tracks (hBond : Λ.Bond k h) (hArgs : List.Forall₂ (Stands Λ) ws vs) (cs : Classes)
    (f : FrameworkMethod) : Tracks Λ (f.call cs k ws) (f.call cs h vs) (Agrees Λ k h) := by
  have hUnknown := keeping_tracks hBond .unknown
  cases f with
  | classForName => exact (argument_tracks hArgs 0).bind fun _ _ hv => findClass_tracks hBond cs hv
  | className =>
      refine (argument_tracks hArgs 0).bind fun w v hv => ?_
      cases hv with
      | hidden d hl hw =>
          split
          · exact (string_tracks hBond _).2 hl
          · exact hUnknown
      | atom h =>
          cases w <;> first
            | (cases h; done)
            | exact hUnknown
            | exact (string_tracks hBond _).1
      | _ => exact hUnknown
  | classMethod => exact findMethod_tracks hBond cs hArgs
  | classDeclaredMethod => exact findMethod_tracks hBond cs hArgs
  | stringOfBytes =>
      refine (argument_tracks hArgs 1).bind fun w v hv => ?_
      exact (sharper_bytes? hv).elim hUnknown (fun _ => (string_tracks hBond _).1)
        fun hl _ => (string_tracks hBond _).2 hl
  | stringOfChars =>
      refine (argument_tracks hArgs 1).bind fun w v hv => ?_
      exact (sharper_chars? hv).elim hUnknown (fun _ => (string_tracks hBond _).1)
        fun hl _ => (string_tracks hBond _).2 hl
  | stringOfString =>
      refine (argument_tracks hArgs 1).bind fun w v hv => ?_
      cases hv with
      | hidden d hl hw =>
          split
          · exact throws_first_tracks hBond hl _
          · exact (string_tracks hBond _).2 hl
          · exact hUnknown
      | null d e => exact keeping_tracks hBond (.throws _)
      | atom h => cases w <;> first | (cases h; done) | exact hUnknown
      | string text _ => exact (string_tracks hBond text).1
      | _ => exact hUnknown
  | stringLength =>
      refine (argument_tracks hArgs 0).bind fun w v hv => ?_
      exact hv.text?.elim hUnknown (fun _ => (atom_tracks hBond rfl).1)
        fun hl _ => (atom_tracks hBond rfl).2 hl
  | stringEquals => exact compareString_tracks hBond hArgs
  | stringOfInt =>
      refine (argument_tracks hArgs 0).bind fun w v hv => ?_
      exact hv.int32?.elim hUnknown (fun _ => (string_tracks hBond _).1)
        fun hl _ => (string_tracks hBond _).2 hl
  | stringToString =>
      refine (argument_tracks hArgs 0).bind fun w v hv => ?_
      cases hv with
      | hidden d hl hw =>
          refine keeping_tracks hBond (.hidden hl (by split <;> simp) fun u hu => ?_)
          split at hu
          · cases hu
            exact hw
          · cases hu
      | atom h => cases w <;> first | (cases h; done) | exact hUnknown
      | string text hFixed => exact keeping_tracks hBond (.returns (.string text hFixed))
      | _ => exact hUnknown
  | integerOfInt =>
      refine (argument_tracks hArgs 0).bind fun w v hv => ?_
      refine hv.int32?.elim hUnknown (fun n => ?_) fun hl n => ?_
      · exact alloc_tracks hBond fun _ _ _ hFixed =>
          .boxed _ hFixed (.atom rfl) fun _ => Value.hidden_of_isAtom rfl
      · exact alloc_first_tracks hBond hl fun _ _ hFree => hidden_box n hFree
  | integerToInt =>
      refine (argument_tracks hArgs 0).bind fun w v hv => ?_
      have hInt : Value.Sharper Λ (w.unboxed?.bind Value.int32?) (v.unboxed?.bind Value.int32?) := by
        cases hv with
        | hidden d hl hw => exact .inr ⟨hl, rfl⟩
        | atom h => exact .inl rfl
        | boxed d _ hv _ => exact hv.int32?
        | _ => exact .inl rfl
      exact hInt.elim hUnknown (fun _ => (atom_tracks hBond rfl).1)
        fun hl _ => (atom_tracks hBond rfl).2 hl
  | integerOfString =>
      exact (argument_tracks hArgs 0).bind fun _ _ hv => readInteger_tracks hBond hv

end FrameworkMethod

namespace FrameworkMethod

/-- Nothing is known of a method of an unknown object but what it creates. -/
theorem call_unknown {f : FrameworkMethod} {cs : Classes} {h h' : Heap} {d : Descriptor}
    {vs : List Value} {e : Effect} (hCall : f.call cs h (.unknown d :: vs) = .ok (e, h')) :
    e = .unknown ∨ f.reference.isConstructor = true ∧ ∀ v, e = .returns v → v.isAtom = false := by
  have hFind (hFind : findMethod cs h (.unknown d :: vs) = .ok (e, h')) : e = .unknown := by
    obtain ⟨definer, hDefiner, hRest⟩ := except_bind_eq_ok.mp hFind
    cases hDefiner
    obtain ⟨name, _, hRest⟩ := except_bind_eq_ok.mp hRest
    cases hRest
    rfl
  cases f with
  | classMethod => exact .inl (hFind hCall)
  | classDeclaredMethod => exact .inl (hFind hCall)
  | stringOfBytes | stringOfChars =>
      refine .inr ⟨by decide, ?_⟩
      obtain ⟨w, _, hRest⟩ := except_bind_eq_ok.mp hCall
      split at hRest
      · cases hRest
        simp [Value.isAtom]
      · cases hRest
        simp
  | stringOfString =>
      refine .inr ⟨by decide, ?_⟩
      obtain ⟨w, _, hRest⟩ := except_bind_eq_ok.mp hCall
      split at hRest
      · cases hRest
        simp
      · cases hRest
        simp [Value.isAtom]
      · cases hRest
        simp
  | _ =>
      cases hCall
      exact .inl rfl

end FrameworkMethod

namespace Semantics

section

variable {Λ : Links} {f : Address → Address} {hs : List Handler} {post post' : State}
  (hPost : post.Rests Λ post') {w v : Value}

include hPost

theorem passes_result (hv : Stands Λ w v) :
    ({ post with result := some w } : State).Passes Λ { post' with result := some v } :=
  ⟨hPost.stands.pass _ _ _ _, hv, hPost.passes.exception⟩

theorem opaqueResult_tracks (m : MethodReference) (args : List Register) :
    Tracks Λ (opaqueResult post m args) (opaqueResult post' m args) (State.Passes Λ) := by
  unfold opaqueResult
  split
  · cases args.head? with
    | none => exact tracks_pure hPost.passes
    | some receiver => exact (hPost.assign (.unknown _) receiver).imp fun _ _ hNow => hNow.passes
  · split
    · exact tracks_pure hPost.passes
    · exact tracks_pure (passes_result hPost (.unknown _))

omit hPost in
/-- After a call of which nothing is known, registers hold no other atoms than before. -/
theorem shows_opaqueResult (hShows : post.Shows post') {m : MethodReference} {args : List Register}
    {t : State} (h : opaqueResult post' m args = .ok t) : post.Shows t := by
  unfold opaqueResult at h
  split at h
  · split at h
    · exact hShows.of_assign rfl h
    · cases h
      exact hShows
  · split at h
    · cases h
      exact hShows
    · cases h
      exact hShows

omit hPost in
theorem shows_applyEffect (hShows : post.Shows post') {m : MethodReference} {args : List Register}
    {e : Effect} (hAtom : ∀ v, e = .returns v → v.isAtom = false) {o : Outcome}
    (h : applyEffect post' m args e = .ok o) : post.Shows o.post := by
  cases e with
  | returns v =>
      unfold applyEffect at h
      dsimp only at h
      split at h
      · split at h
        · obtain ⟨t, ht, rfl⟩ := assign_eq_ok.mp h
          exact hShows.of_assign (hAtom v rfl) ht
        · cases h
          exact hShows
      · cases h
        exact hShows
  | _ =>
      cases h
      exact hShows

omit hPost in
theorem shows_clobber (hShows : post.Shows post') (vs : List Value) :
    post.Shows (vs.foldl clobber post') := by
  induction vs generalizing post' with
  | nil => exact hShows
  | cons v vs ih =>
      refine ih ?_
      unfold clobber
      split
      · split
        · exact hShows.updateInstance rfl
        · exact hShows
      · exact hShows

theorem applyEffect_tracks {e e' : Effect} (hEffect : Effect.Stands Λ e e') (hKnown : e' ≠ .unknown)
    (m : MethodReference) (args : List Register) :
    Tracks Λ (applyEffect post m args e) (applyEffect post' m args e') (Outcome.Covers Λ f hs) := by
  cases hEffect with
  | returns hv =>
      unfold applyEffect
      dsimp only
      split
      · cases args.head? with
        | none => exact tracks_pure (covers_next hPost)
        | some receiver => exact tracks_assign hPost hv lessens_none receiver
      · exact tracks_pure (.alike .next (passes_result hPost (hv.coerce _)))
  | void => exact tracks_pure (covers_next hPost)
  | throws type => exact tracks_pure (covers_raise hPost type)
  | unknown => exact absurd rfl hKnown
  | hidden => exact absurd rfl hKnown

/-- The effect of a call may be known in the first run only. -/
theorem applyEffect_first_tracks {e : Effect} (hl : Λ.loose) (hVoid : e ≠ .void) (hKnown : e ≠ .unknown)
    (hEffect : ∀ w, e = .returns w → w.Hidden Λ) (m : MethodReference) (args : List Register) :
    Tracks Λ (applyEffect post m args e)
      (opaqueResult post' m args >>= fun post => pure (.nextOr post (someException .throwable)))
      (Outcome.Covers Λ f hs) := by
  cases e with
  | returns w =>
      have hw := hEffect w rfl
      unfold applyEffect opaqueResult
      dsimp only
      split
      · cases args.head? with
        | none => exact tracks_pure (.certain hl hPost.passes)
        | some receiver => exact tracks_assign hPost (.hidden m.definer hl hw) (.inr ⟨hl, rfl⟩) receiver
      · have hResult : ({ post with result := some (w.coerce m.ret) } : State).Passes Λ post' :=
          ⟨hPost.stands.pass _ _ _ _, by
            rw [hPost.second.1]
            exact .hidden .object hl (hw.coerce _), hPost.passes.exception⟩
        split
        · exact tracks_pure (.certain hl hResult)
        · exact tracks_pure (.certain hl (passes_result hPost (.hidden m.ret hl (hw.coerce _))))
  | void => exact absurd rfl hVoid
  | throws type =>
      intro o ho
      obtain ⟨t, ht, hNext⟩ := except_bind_eq_ok.mp ho
      cases hNext
      exact .raises hl (.inr rfl) (shows_opaqueResult hPost.stands.shows ht)
  | unknown => exact absurd rfl hKnown

theorem clobber_rests (hLone : ∀ i, Λ.lone i → ∀ j, ¬ Λ.same i j) (hΛ : Λ.Injective)
    (hv : Stands Λ w v) : (clobber post w).Rests Λ (clobber post' v) := by
  -- an array or an object that both runs know of
  have hBoth {i j : Nat} (d : Descriptor) (hLink : Λ.Changes i j) :
      (if !d.isImmutable then post.updateInstance i (.unknown d) else post).Rests Λ
        (if !d.isImmutable then post'.updateInstance j (.unknown d) else post') := by
    split
    · exact hPost.updateInstance hΛ hLink (.unknown d)
    · exact hPost
  have hFirst {i : Nat} (d : Descriptor) (hl : Λ.loose) (hi : Λ.lone i) :
      (if !d.isImmutable then post.updateInstance i (.unknown d) else post).Rests Λ post' := by
    split
    · exact hPost.updateInstance_first hl (hLone i hi) (Value.hidden_unknown d)
    · exact hPost
  cases hv with
  | unknown d => exact hPost
  | hidden d hl hw =>
      cases w with
      | object i e => exact hFirst e hl (hw.lone i (by simp [Value.stores]))
      | array i e n es => exact hFirst e hl hw.array.2.1
      | _ => exact hPost
  | null d e => exact hPost
  | atom h => cases w <;> first | (cases h; done) | exact hPost
  | string text _ => exact hPost
  | boxed d _ _ _ => exact hPost
  | method d m _ => exact hPost
  | object d hLink => exact hBoth d hLink
  | array d n hLink _ _ => exact hBoth d hLink
  | untracked d n hLink => exact hBoth d hLink
  | tracked d m n hLink _ _ _ => exact hBoth d hLink

end

section

variable {Λ : Links} {f : Address → Address} {hs : List Handler} {c c' : Context} {s t : Supply}
  {pre pre' post post' : State} {ws vs : List Value} (hClasses : c.classes = c'.classes)
  (hBond : Λ.Bond s.heap t.heap) (hPost : post.Rests Λ post')
  (hArgs : List.Forall₂ (Stands Λ) ws vs)

include hBond hPost hArgs

omit hArgs in
/-- In both runs nothing is known of a call. -/
theorem opaque_tracks (m : MethodReference) (args : List Register) :
    Run.Tracks Λ
      (Run.ofExcept (opaqueResult post m args) >>= fun post =>
        pure (.nextOr post (someException .throwable)))
      (Run.ofExcept (opaqueResult post' m args) >>= fun post =>
        pure (.nextOr post (someException .throwable))) s t fun Λ' => Outcome.Covers Λ' f hs :=
  Run.tracks_ofExcept_bind (opaqueResult_tracks hPost m args) fun _ _ hNow =>
    Run.tracks_pure hBond (Lessens.covers (lessens_someException _) hNow)

theorem foldl_clobber_rests : (ws.foldl clobber post).Rests Λ (vs.foldl clobber post') := by
  induction hArgs generalizing post post' with
  | nil => exact hPost
  | cons hHead _ ih =>
      exact ih (clobber_rests hPost (fun i hi => (hBond.lone i hi).2.1) hBond.injective hHead)

include hClasses

theorem invokeFramework_tracks (fm : FrameworkMethod) (m : MethodReference) (args : List Register) :
    Run.Tracks Λ (c.invokeFramework fm m args ws post) (c'.invokeFramework fm m args vs post') s t
      fun Λ' => Outcome.Covers Λ' f hs := by
  have hCall := FrameworkMethod.call_tracks hBond hArgs c'.classes fm
  unfold Context.invokeFramework
  rw [hClasses]
  refine Run.Tracks.bind (P := fun Λ' e e' => Effect.Stands Λ' e e') (Run.tracks_onHeap? hCall) ?_
  intro Λ' s' t' e e' hΛ hEffect
  have hNow := hPost.grow hΛ.grows
  have hUnknown : Run.ofExcept (opaqueResult post' m args >>= fun post =>
        pure (Outcome.nextOr post (someException .throwable))) =
      (Run.ofExcept (opaqueResult post' m args) >>= fun post =>
        pure (Outcome.nextOr post (someException .throwable))) := Run.ofExcept_bind _ _
  cases hEffect with
  | returns hv =>
      exact Run.tracks_ofExcept hΛ.bond (applyEffect_tracks hNow (.returns hv) (by simp) m args)
  | void => exact Run.tracks_ofExcept hΛ.bond (applyEffect_tracks hNow .void (by simp) m args)
  | throws type =>
      exact Run.tracks_ofExcept hΛ.bond (applyEffect_tracks hNow (.throws type) (by simp) m args)
  | unknown => exact opaque_tracks hΛ.bond hNow m args
  | hidden hl hVoid hw =>
      cases e with
      | unknown => exact opaque_tracks hΛ.bond hNow m args
      | void => exact absurd rfl hVoid
      | _ =>
          dsimp only
          rw [← hUnknown]
          exact Run.tracks_ofExcept hΛ.bond
            (applyEffect_first_tracks hNow hl hVoid (by simp) hw m args)

theorem invokeOther_tracks (kind : InvokeKind) (m : MethodReference) (args : List Register)
    (hCallee : c'.callee? kind m = none) :
    Run.Tracks Λ (c.invokeOther kind m args ws post) (c'.invokeOther kind m args vs post') s t
      fun Λ' => Outcome.Covers Λ' f hs := by
  have hFirst : c.callee? kind m = none := by
    unfold Context.callee? at hCallee ⊢
    rwa [hClasses]
  unfold Context.invokeOther
  rw [hFirst, hCallee]
  exact opaque_tracks hBond (foldl_clobber_rests hBond hPost hArgs) m args

omit hClasses hArgs in
/-- The receiver of a call may be known to be null in the first run only. Where there are handlers the
second run has to allow for that, which it does unless it knows what the call creates. -/
theorem nullReceiver_tracks (hl : Λ.loose) {kind : InvokeKind} {m : MethodReference}
    {args : List Register} (hCalls : c'.RunsNoBody (.invoke kind m args)) (d : Descriptor)
    (hCandid : hs = [] ∨ FrameworkMethod.find? m = none ∨ m.isConstructor = false) :
    Run.Tracks Λ (pure (Outcome.raise post .nullPointerException))
      (c'.invokePresent kind m args (.unknown d :: vs) post') s t
      fun Λ' => Outcome.Covers Λ' f hs := by
  intro o t' hRun
  have hFrugal := (Context.invokePresent_frugal (Context.RunsNoBody.callsFrugally hCalls) (.unknown d :: vs) post' t).1
  rw [hRun] at hFrugal
  have hNow := hBond.advances (Heap.Grows.refl s.heap) hFrugal
  have hShows := hPost.stands.shows
  refine ⟨_, hNow, ?_⟩
  have hOpaque {p : State} {u : Supply} (hShows : post.Shows p)
      (h : (Run.ofExcept (opaqueResult p m args) >>= fun post =>
        pure (Outcome.nextOr post (someException .throwable))) u = (.ok o, t')) :
      Outcome.Covers (Λ.raise s.heap.next) f hs (.raise post .nullPointerException) o := by
    obtain ⟨p', u', hp, hNext⟩ := Run.bind_eq_ok h
    cases hNext
    exact .raises hl (.inr rfl) (shows_opaqueResult hShows (Prod.mk.inj hp).1)
  unfold Context.invokePresent at hRun
  cases hFind : FrameworkMethod.find? m with
  | some fm =>
      rw [hFind] at hRun
      obtain ⟨e, u, hEffect, hRest⟩ := Run.bind_eq_ok hRun
      obtain ⟨⟨e, h'⟩, hCall, rfl, _⟩ := Run.onHeap?_eq_ok hEffect
      rcases FrameworkMethod.call_unknown hCall with rfl | ⟨hNew, hAtom⟩
      · exact hOpaque hShows hRest
      · have hReference : fm.reference = m := by simpa using List.find?_some hFind
        have hNone : hs = [] := by
          rcases hCandid with hNone | hOther | hPlain
          · exact hNone
          · rw [hFind] at hOther
            cases hOther
          · rw [← hReference, hNew] at hPlain
            cases hPlain
        cases e with
        | unknown => exact hOpaque hShows hRest
        | _ => exact .silent hl hNone (shows_applyEffect hShows hAtom (Prod.mk.inj hRest).1)
  | none =>
      rw [hFind] at hRun
      unfold Context.invokeOther at hRun
      rw [hCalls kind m args rfl hFind] at hRun
      exact hOpaque (shows_clobber hShows _) hRun

theorem invokePresent_tracks {kind : InvokeKind} {m : MethodReference} {args : List Register}
    (hCalls : c'.RunsNoBody (.invoke kind m args)) :
    Run.Tracks Λ (c.invokePresent kind m args ws post) (c'.invokePresent kind m args vs post') s t
      fun Λ' => Outcome.Covers Λ' f hs := by
  unfold Context.invokePresent
  cases hFind : FrameworkMethod.find? m with
  | some fm => exact invokeFramework_tracks hClasses hBond hPost hArgs fm m args
  | none => exact invokeOther_tracks hClasses hBond hPost hArgs kind m args (hCalls _ _ _ rfl hFind)

omit hClasses hBond hPost in
/-- Only of a receiver that the second run does not know can the first know that it is null. -/
theorem hasNullReceiver_cases (kind : InvokeKind) :
    Context.hasNullReceiver kind ws = Context.hasNullReceiver kind vs ∨
      Λ.loose ∧ kind ≠ .static ∧ ∃ d us, vs = .unknown d :: us := by
  cases hArgs with
  | nil => exact .inl (by cases kind <;> rfl)
  | @cons w v ws vs hHead _ =>
      by_cases hStatic : kind = .static
      · subst hStatic
        exact .inl rfl
      · cases hHead with
        | hidden d hl _ => exact .inr ⟨hl, hStatic, d, _, rfl⟩
        | atom h => cases w <;> first | (cases h; done) | exact .inl (by cases kind <;> rfl)
        | _ => exact .inl (by cases kind <;> rfl)

end

section

variable {Λ : Links} {f : Address → Address} {hs : List Handler} {c c' : Context} {s t : Supply}
  {pre pre' post post' : State} (hClasses : c.classes = c'.classes)
  (hBond : Λ.Bond s.heap t.heap) (hPre : pre.Stands Λ pre') (hPost : post.Rests Λ post')

include hPre

theorem mapM_read_tracks (args : List Register) :
    Tracks Λ (args.mapM pre.read) (args.mapM pre'.read) (List.Forall₂ (Stands Λ)) := by
  induction args with
  | nil => exact tracks_pure .nil
  | cons r args ih =>
      rw [List.mapM_cons, List.mapM_cons]
      exact (hPre.read r).bind fun _ _ hv => ih.bind fun _ _ hvs => tracks_pure (.cons hv hvs)

include hClasses hBond hPost

theorem invoke_tracks {kind : InvokeKind} {m : MethodReference} {args : List Register}
    (hCalls : c'.RunsNoBody (.invoke kind m args))
    (hCandid : Λ.loose → hs = [] ∨ kind = .static ∨ FrameworkMethod.find? m = none ∨
      m.isConstructor = false ∨ ∀ r, args.head? = some r → pre'.Knows r) :
    Run.Tracks Λ (c.invoke kind m args pre post) (c'.invoke kind m args pre' post') s t
      fun Λ' => Outcome.Covers Λ' f hs := by
  refine Run.tracks_ofExcept_bind (mapM_read_tracks hPre args).noting fun ws vs ⟨hArgs, _, hReads⟩ => ?_
  have hPresent : Run.Tracks Λ (c.invokePresent kind m args ws post)
      (c'.invokePresent kind m args vs post') s t fun Λ' => Outcome.Covers Λ' f hs :=
    invokePresent_tracks hClasses hBond hPost hArgs hCalls
  rcases hasNullReceiver_cases hArgs kind with hSame | ⟨hl, hInstance, d, us, rfl⟩
  · rw [hSame]
    split
    · exact Run.tracks_pure hBond (covers_raise hPost _)
    · exact hPresent
  · have hPlain : Context.hasNullReceiver kind (.unknown d :: us) = false := by cases kind <;> rfl
    rw [hPlain]
    have hReceiver : ∃ r, args.head? = some r ∧ pre'.read r = .ok (.unknown d) := by
      cases args with
      | nil => cases hReads
      | cons r args =>
          rw [List.mapM_cons] at hReads
          obtain ⟨v, hv, hRest⟩ := except_bind_eq_ok.mp hReads
          obtain ⟨_, _, hSame⟩ := except_bind_eq_ok.mp hRest
          cases hSame
          exact ⟨r, rfl, hv⟩
    have hKnows : hs = [] ∨ FrameworkMethod.find? m = none ∨ m.isConstructor = false := by
      obtain ⟨r, hr, hRead⟩ := hReceiver
      rcases hCandid hl with hNone | hStatic | hOther | hPlain | hKnows
      · exact .inl hNone
      · exact absurd hStatic hInstance
      · exact .inr (.inl hOther)
      · exact .inr (.inr hPlain)
      · cases hKnows r hr _ hRead
    cases hNull : Context.hasNullReceiver kind ws
    · exact hPresent
    · exact nullReceiver_tracks hBond hPost hl hCalls d hKnows

end

/-- What the second run has to know so that nothing happens in the first that it leaves out. Where there
are handlers, it has to know what is thrown, of which array elements are read and written, and what a
framework method makes a new string of. -/
def Candid (hs : List Handler) (i : Instruction Address) (t : State) : Prop :=
  match i with
  | .throw src => hs = [] ∨ t.Knows src
  | .arrayGet _ array _ => hs = [] ∨ t.Knows array
  | .arrayPut src array _ =>
    (hs = [] ∨ t.Knows array) ∧ ∀ v, t.read src = .ok v → v.isMutable = false
  | .fillArray array _ =>
    (hs = [] ∨ t.Knows array) ∧ ∀ v, t.read array = .ok v → Fillable v
  | .invoke kind m args =>
    hs = [] ∨ kind = .static ∨ FrameworkMethod.find? m = none ∨ m.isConstructor = false ∨
      ∀ r, args.head? = some r → t.Knows r
  | _ => True

/-- What is ready for an instruction: the registers, and what it takes of what has been passed to it. -/
structure Feeds (Λ : Links) (i : Instruction Address) (pre pre' : State) : Prop where
  stands : pre.Stands Λ pre'
  result : ∀ dst, i = .moveResult dst →
    Value.Stands Λ (pre.result.getD (.unknown .object)) (pre'.result.getD (.unknown .object))
  exception : ∀ dst, i = .moveException dst →
    Value.Stands Λ (pre.exception.getD (.unknown .throwable))
      (pre'.exception.getD (.unknown .throwable))

section

variable {Λ : Links} {f : Address → Address} {hs : List Handler} {c c' : Context} {s t : Supply}
  {pre pre' : State}

/-- Whatever an instruction does in the first run the second allows for. -/
theorem execute_tracks (hClasses : c.classes = c'.classes) (hBond : Λ.Bond s.heap t.heap)
    {i : Instruction Address} (hFeeds : Feeds Λ i pre pre') {a a' : Address}
    (hNext : Tracks Λ (c.next a) (c'.next a') fun n n' => n = f n') (hCalls : c'.RunsNoBody i)
    (hCandid : Λ.loose → Candid hs i pre') :
    Run.Tracks Λ
      (c.execute a (i.mapTargets f) pre { pre with result := none, exception := none })
      (c'.execute a' i pre' { pre' with result := none, exception := none }) s t
      fun Λ' => Outcome.Covers Λ' f hs := by
  have hPre := hFeeds.stands
  have hPost : ({ pre with result := none, exception := none } : State).Rests Λ
      { pre' with result := none, exception := none } :=
    ⟨hPre.pass _ _ _ _, ⟨rfl, rfl⟩, ⟨rfl, rfl⟩⟩
  have hPure {r q : Except Error Outcome} (h : Tracks Λ r q (Outcome.Covers Λ f hs)) :
      Run.Tracks Λ (Run.ofExcept r) (Run.ofExcept q) s t fun Λ' => Outcome.Covers Λ' f hs :=
    Run.tracks_ofExcept hBond h
  cases i with
  | nop => exact Run.tracks_pure hBond (covers_next hPost)
  | const dst l =>
      obtain ⟨Λ₁, hΛ₁, hv⟩ := hBond.literal l
      refine Run.Tracks.bind (P := fun Λ' w v => Value.Stands Λ' w v)
        (Run.tracks_onHeap ⟨Λ₁, hΛ₁, hv⟩) fun Λ' s' t' w v hΛ hv => ?_
      exact Run.tracks_ofExcept hΛ.bond (tracks_assign (hPost.grow hΛ.grows) hv lessens_none dst)
  | move dst src =>
      exact hPure ((hPre.read src).bind fun _ _ hv => tracks_assign hPost hv lessens_none dst)
  | moveResult dst => exact hPure (tracks_assign hPost (hFeeds.result dst rfl) lessens_none dst)
  | moveException dst =>
      exact hPure (tracks_assign hPost (hFeeds.exception dst rfl) lessens_none dst)
  | returnVoid => exact Run.tracks_pure hBond (.alike .stop hPost.passes)
  | returnValue src => exact hPure (returnValue_tracks hPre hPost src)
  | throw src => exact hPure (throwValue_tracks hPre hPost src hCandid)
  | goto target => exact Run.tracks_pure hBond (.alike (.jump [target]) hPost.passes)
  | branch cond lhs rhs target =>
      exact hPure (branch_tracks hPre hPost hBond.injective hNext cond lhs rhs target)
  | switch src cases => exact hPure (switch_tracks hPre hPost hNext src cases)
  | compare kind dst lhs rhs => exact hPure (compare_tracks hPre hPost kind dst lhs rhs)
  | unary op dst src => exact hPure (unary_tracks hPre hPost op dst src)
  | binary op type dst lhs rhs => exact hPure (binary_tracks hPre hPost op type dst lhs rhs)
  | newInstance dst d => exact hPure (tracks_assign hPost (.atom rfl) lessens_none dst)
  | checkCast reg type => exact hPure (checkCast_tracks hPre hPost rfl reg type)
  | instanceOf dst src type => exact hPure (instanceOf_tracks hPre hPost dst src type)
  | newArray dst size type => exact newArray_tracks hPre hPost hBond dst size type
  | arrayLength dst array => exact hPure (arrayLength_tracks hPre hPost dst array)
  | arrayGet dst array index =>
      exact hPure (arrayGet_tracks hPre hPost dst array index hCandid)
  | arrayPut src array index =>
      exact hPure (arrayPut_tracks hPre hPost hBond.injective (fun i hi => (hBond.lone i hi).2.1)
        src array index (fun hl => (hCandid hl).1) fun hl => (hCandid hl).2)
  | fillArray array data =>
      exact fillArray_tracks hPre hPost hBond array data (fun hl => (hCandid hl).1)
        fun hl => (hCandid hl).2
  | fieldGet dst object field => exact hPure (fieldGet_tracks hPre hPost dst object field)
  | fieldPut src object field => exact hPure (fieldPut_tracks hPre hPost src object)
  | invoke kind m args => exact invoke_tracks hClasses hBond hPre hPost hCalls hCandid

end

end Semantics

end Dalvik
