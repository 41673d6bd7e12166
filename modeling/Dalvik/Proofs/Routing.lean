import Dalvik.Proofs.CallCovering

/-!
Where steps of two runs lead. Wherever control goes in the first run it may go in the second, with a state
that stands for that there; and if the first run is not loose, it goes to no fewer places.
-/

namespace Dalvik

open Value (Stands)

namespace Semantics.Context

/-- The handlers that an exception may enter, in order, each with the exception that it is entered
with. -/
def entries (exception : Value) : List Handler → List (Address × Value)
  | [] => []
  | h :: hs =>
    match Classes.catches? h.type exception.descriptor with
    | some false => entries exception hs
    | some true => [(h.target, caught h exception true)]
    | none => (h.target, caught h exception false) :: entries exception hs

/-- The state in which a handler is entered. -/
def entering (pre : State) (exception : Value) : State :=
  { pre with result := none, exception := some exception }

/-- Successors with more of them, as far as control does not reach their places already. -/
def addAll (successors more : List (Address × State)) : List (Address × State) :=
  more.foldl (fun successors p => addSuccessor successors p.1 p.2) successors

variable {pre : State} {A B ps qs : List (Address × State)} {hs : List Handler} {x y : Value}

theorem route_eq (successors : List (Address × State)) :
    route pre x successors hs =
      addAll successors ((entries x hs).map fun p => (p.1, entering pre p.2)) := by
  induction hs generalizing successors with
  | nil => rfl
  | cons h hs ih =>
      unfold route entries
      cases Classes.catches? h.type x.descriptor with
      | none => exact ih _
      | some certain =>
          cases certain
          · exact ih successors
          · rfl

theorem jump_eq (targets : List Address) (post : State) :
    targets.foldl (fun successors t => addSuccessor successors t post) [] =
      addAll [] (targets.map fun t => (t, post)) := by
  rw [addAll, List.foldl_map]

theorem mem_addAll {p : Address × State} (h : p ∈ addAll A ps) : p ∈ A ∨ p ∈ ps := by
  induction ps generalizing A with
  | nil => exact .inl h
  | cons q ps ih =>
      rcases ih h with hHere | hRest
      · rcases mem_addSuccessor hHere with hOld | rfl
        · exact .inl hOld
        · exact .inr (.head _)
      · exact .inr (.tail _ hRest)

theorem subset_addSuccessor (A : List (Address × State)) (b : Address) (s : State) :
    A ⊆ addSuccessor A b s := by
  unfold addSuccessor
  split
  · exact List.Subset.refl A
  · exact List.subset_append_left A _

theorem subset_addAll (A ps : List (Address × State)) : A ⊆ addAll A ps := by
  induction ps generalizing A with
  | nil => exact List.Subset.refl A
  | cons p ps ih => exact List.Subset.trans (subset_addSuccessor A p.1 p.2) (ih _)

theorem reaches_addSuccessor (A : List (Address × State)) (b : Address) (s : State) :
    ∃ p ∈ addSuccessor A b s, p.1 = b := by
  unfold addSuccessor
  split
  · rename_i hAny
    simpa using hAny
  · exact ⟨(b, s), by simp, rfl⟩

/-- Control reaches every place that has been added. -/
theorem reaches_addAll {q : Address × State} (hq : q ∈ ps) : ∃ p ∈ addAll A ps, p.1 = q.1 := by
  induction ps generalizing A with
  | nil => cases hq
  | cons p ps ih =>
      rcases List.mem_cons.mp hq with rfl | hq
      · obtain ⟨r, hr, hPlace⟩ := reaches_addSuccessor A q.1 q.2
        exact ⟨r, subset_addAll _ ps hr, hPlace⟩
      · exact ih hq

theorem nodup_addSuccessor (hA : (A.map Prod.fst).Nodup) (b : Address) (s : State) :
    ((addSuccessor A b s).map Prod.fst).Nodup := by
  unfold addSuccessor
  split
  · exact hA
  · rename_i hNew
    rw [List.map_append, List.nodup_append]
    refine ⟨hA, by simp, ?_⟩
    rintro c hc d hd rfl
    obtain ⟨p, hp, rfl⟩ := List.mem_map.mp hc
    exact hNew (List.any_eq_true.mpr ⟨p, hp, by simpa using hd⟩)

theorem nodup_addAll (hA : (A.map Prod.fst).Nodup) (ps : List (Address × State)) :
    ((addAll A ps).map Prod.fst).Nodup := by
  induction ps generalizing A with
  | nil => exact hA
  | cons p ps ih => exact ih (nodup_addSuccessor hA p.1 p.2)

/-- The places that control reaches in two runs, with related states. `f` says where the places of the
second are in the first. -/
structure Matched (f : Address → Address) (R : Address → State → State → Prop)
    (A B : List (Address × State)) : Prop where
  forward : ∀ p ∈ A, ∃ q ∈ B, p.1 = f q.1 ∧ R q.1 p.2 q.2
  backward : ∀ q ∈ B, ∃ p ∈ A, p.1 = f q.1 ∧ R q.1 p.2 q.2

variable {f : Address → Address} {R : Address → State → State → Prop}

theorem matched_nil : Matched f R [] [] := ⟨by simp, by simp⟩

/-- A jump that may lead to fewer places leads to none that the other one does not lead to. -/
theorem forward_jump {us targets : List Address} {post post' : State} (hFewer : us ⊆ targets.map f)
    (h : ∀ t ∈ targets, R t post post') :
    ∀ p ∈ addAll [] (us.map fun t => (t, post)), ∃ q ∈ addAll [] (targets.map fun t => (t, post')),
      p.1 = f q.1 ∧ R q.1 p.2 q.2 := by
  intro p hp
  obtain ⟨u, hu, rfl⟩ := List.mem_map.mp ((mem_addAll hp).resolve_left (by simp))
  obtain ⟨t, ht, rfl⟩ := List.mem_map.mp (hFewer hu)
  obtain ⟨q, hq, hPlace⟩ := reaches_addAll (A := [])
    (List.mem_map_of_mem (f := fun t => (t, post')) ht)
  obtain ⟨t', ht', rfl⟩ := List.mem_map.mp ((mem_addAll hq).resolve_left (by simp))
  obtain rfl : t' = t := hPlace
  exact ⟨_, hq, rfl, h _ ht'⟩

theorem matched_jump {targets : List Address} {post post' : State}
    (h : ∀ t ∈ targets, R t post post') :
    Matched f R (addAll [] ((targets.map f).map fun t => (t, post)))
      (addAll [] (targets.map fun t => (t, post'))) := by
  constructor
  · exact forward_jump (fun _ hu => hu) h
  · intro q hq
    obtain ⟨t, ht, rfl⟩ := List.mem_map.mp ((mem_addAll hq).resolve_left (by simp))
    obtain ⟨p, hp, hPlace⟩ := reaches_addAll (A := [])
      (List.mem_map_of_mem (f := fun t => (t, post)) (List.mem_map_of_mem (f := f) ht))
    obtain ⟨u, _, rfl⟩ := List.mem_map.mp ((mem_addAll hp).resolve_left (by simp))
    exact ⟨_, hp, hPlace, h t ht⟩

/-- Handlers are entered alike as long as no two places of the second run that matter are one in the
first. -/
theorem Matched.addAll (h : Matched f R A B)
    (hMore : List.Forall₂ (fun p q => p.1 = f q.1 ∧ R q.1 p.2 q.2) ps qs)
    (hApart : ∀ q ∈ qs, (∀ b ∈ B, f b.1 = f q.1 → b.1 = q.1) ∧
      ∀ r ∈ qs, f r.1 = f q.1 → r.1 = q.1) :
    Matched f R (addAll A ps) (addAll B qs) := by
  induction hMore generalizing A B with
  | nil => exact h
  | @cons p q ps qs hHead _ ih =>
      obtain ⟨hPlace, hStates⟩ := hHead
      have hSame : (A.any fun r => r.1 = p.1) = (B.any fun r => r.1 = q.1) := by
        rw [Bool.eq_iff_iff, List.any_eq_true, List.any_eq_true]
        constructor
        · rintro ⟨a, ha, hHere⟩
          obtain ⟨b, hb, hFrom, _⟩ := h.forward a ha
          have hBoth : f b.1 = f q.1 := by
            rw [← hFrom, ← hPlace]
            simpa using hHere
          exact ⟨b, hb, by simpa using (hApart q (.head _)).1 b hb hBoth⟩
        · rintro ⟨b, hb, hHere⟩
          obtain ⟨a, ha, hFrom, _⟩ := h.backward b hb
          refine ⟨a, ha, ?_⟩
          rw [decide_eq_true_eq] at hHere ⊢
          rw [hFrom, hPlace, hHere]
      refine ih (A := addSuccessor A p.1 p.2) (B := addSuccessor B q.1 q.2) ?_ ?_
      · unfold addSuccessor
        rw [hSame]
        split
        · exact h
        · constructor
          · intro a ha
            rcases List.mem_append.mp ha with hOld | hNew
            · obtain ⟨b, hb, hRel⟩ := h.forward a hOld
              exact ⟨b, List.mem_append_left _ hb, hRel⟩
            · obtain rfl := List.mem_singleton.mp hNew
              exact ⟨(q.1, q.2), by simp, hPlace, hStates⟩
          · intro b hb
            rcases List.mem_append.mp hb with hOld | hNew
            · obtain ⟨a, ha, hRel⟩ := h.backward b hOld
              exact ⟨a, List.mem_append_left _ ha, hRel⟩
            · obtain rfl := List.mem_singleton.mp hNew
              exact ⟨(p.1, p.2), by simp, hPlace, hStates⟩
      · intro r hr
        obtain ⟨hOld, hMore⟩ := hApart r (.tail _ hr)
        refine ⟨fun b hb hBoth => ?_, fun u hu => hMore u (.tail _ hu)⟩
        rcases mem_addSuccessor hb with hb | rfl
        · exact hOld b hb hBoth
        · exact hMore q (.head _) hBoth

end Semantics.Context

/-- The handler with its place moved. -/
def Handler.retarget (f : Address → Address) (h : Handler) : Handler :=
  { h with target := f h.target }

/-- A state that control arrives with in the first run, and one of the second. Exceptions are there for
handlers only. -/
structure State.Arrives (Λ : Links) (handler : Prop) (s t : State) : Prop where
  follows : s.Follows Λ t
  plain : ¬ handler → s.exception = none ∧ t.exception = none

/-- A step of the first run is one that the second allows for. `handler` says which places of the second
run are those of handlers. -/
structure Step.Covers (Λ : Links) (f : Address → Address) (handler : Address → Prop)
    (x y : Step) : Prop where
  shows : x.post.Shows y.post
  stands : ¬ Λ.loose → x.post.Stands Λ y.post
  forward : ∀ p ∈ x.successors, ∃ q ∈ y.successors, p.1 = f q.1 ∧ p.2.Arrives Λ (handler q.1) q.2
  backward : ¬ Λ.loose →
    ∀ q ∈ y.successors, ∃ p ∈ x.successors, p.1 = f q.1 ∧ p.2.Arrives Λ (handler q.1) q.2

namespace Semantics.Context

section

variable {Λ : Links} {f : Address → Address} {hs : List Handler} {pre pre' s t : State} {x y : Value}
  {handler : Address → Prop} {b : Address}

theorem passes_arrives (h : s.Passes Λ t) (H : Prop) : s.Arrives Λ H t := by
  refine ⟨⟨h.stands, h.result, ?_⟩, fun _ => h.exception⟩
  rw [h.exception.1, h.exception.2]
  exact .unknown _

theorem entering_arrives (hPre : pre.Stands Λ pre') (hStands : Stands Λ x y) {H : Prop} (hH : H) :
    (entering pre x).Arrives Λ H (entering pre' y) :=
  ⟨⟨hPre.pass _ _ _ _, .unknown _, hStands⟩, fun hNot => absurd hH hNot⟩

theorem caught_unknown (k : Handler) (d : Descriptor) (certain : Bool) :
    ∃ e, caught k (.unknown d) certain = .unknown e := by
  unfold caught
  dsimp only
  split <;> exact ⟨_, rfl⟩

theorem caught_stands (hStands : Stands Λ x y) (k : Handler) (certain : Bool) :
    Stands Λ (caught (k.retarget f) x certain) (caught k y certain) := by
  have hSame := hStands
  cases hStands with
  | unknown d =>
      unfold caught
      dsimp only
      split <;> exact .unknown _
  | hidden d hl hw =>
      obtain ⟨e, he⟩ := caught_unknown k d certain
      rw [he]
      refine .hidden e hl ?_
      unfold caught
      split
      · split
        · exact hw
        · exact Value.hidden_unknown _
      · exact hw
  | atom h => cases x <;> first | (cases h; done) | exact hSame
  | _ => exact hSame

/-- The same handlers are entered for exceptions of the same type. -/
theorem entries_stands (hStands : Stands Λ x y) (hType : x.descriptor = y.descriptor) :
    List.Forall₂ (fun p q => p.1 = f q.1 ∧ Stands Λ p.2 q.2)
      (entries x (hs.map (Handler.retarget f))) (entries y hs) := by
  induction hs with
  | nil => exact .nil
  | cons k hs ih =>
      rw [List.map_cons]
      unfold entries
      rw [hType]
      change List.Forall₂ _
        (match Classes.catches? k.type y.descriptor with
          | some false => _
          | some true => _
          | none => _) _
      cases Classes.catches? k.type y.descriptor with
      | none => exact .cons ⟨rfl, caught_stands hStands k false⟩ ih
      | some certain =>
          cases certain
          · exact ih
          · exact .cons ⟨rfl, caught_stands hStands k true⟩ .nil

theorem entries_cons (k : Handler) (hs : List Handler) (x : Value) :
    entries x (k :: hs) =
      match Classes.catches? k.type x.descriptor with
      | some false => entries x hs
      | some true => [(k.target, caught k x true)]
      | none => (k.target, caught k x false) :: entries x hs := rfl

theorem mem_entries : ∀ q ∈ entries x hs,
    ∃ k ∈ hs, ∃ certain, q = (k.target, caught k x certain) := by
  induction hs with
  | nil => simp [entries]
  | cons k hs ih =>
      have hRest : ∀ q ∈ entries x hs,
          ∃ k' ∈ k :: hs, ∃ certain, q = (k'.target, caught k' x certain) := by
        intro q hq
        obtain ⟨k', hk', hEntry⟩ := ih q hq
        exact ⟨k', .tail _ hk', hEntry⟩
      intro q hq
      rw [entries_cons] at hq
      split at hq
      · exact hRest q hq
      · exact ⟨k, .head _, true, List.mem_singleton.mp hq⟩
      · rcases List.mem_cons.mp hq with rfl | hq
        · exact ⟨k, .head _, false, rfl⟩
        · exact hRest q hq

/-- What certainly catches some throwable catches everything. -/
theorem catches_throwable (type : Option Descriptor) :
    (∀ d, Classes.catches? type d = some true) ∨ Classes.catches? type .throwable = none := by
  cases type with
  | none => exact .inl fun _ => rfl
  | some t =>
      by_cases hType : t = .throwable
      · exact .inl fun d => by simp [Classes.catches?, hType]
      · refine .inr ?_
        unfold Classes.catches?
        dsimp only
        rw [if_neg (by simp [hType]), if_neg (by decide)]

/-- An exception that is raised for certain enters no handler but those that one which may be raised
enters. -/
theorem entries_throwable (d : Descriptor) : ∀ p ∈ entries (.unknown d) (hs.map (Handler.retarget f)),
    ∃ q ∈ entries (.unknown .throwable) hs, p.1 = f q.1 := by
  induction hs with
  | nil => simp [entries]
  | cons k hs ih =>
      have hHere : ∃ q ∈ entries (.unknown .throwable) (k :: hs), q.1 = k.target := by
        rw [entries_cons]
        rcases catches_throwable k.type with hAll | hNone
        · rw [hAll]
          exact ⟨_, .head _, rfl⟩
        · rw [show (Value.unknown .throwable).descriptor = .throwable from rfl, hNone]
          exact ⟨_, .head _, rfl⟩
      have hFirst : ∃ q ∈ entries (.unknown .throwable) (k :: hs), f k.target = f q.1 := by
        obtain ⟨q, hq, hPlace⟩ := hHere
        exact ⟨q, hq, by rw [hPlace]⟩
      have hLater (hAll : ¬ ∀ d, Classes.catches? k.type d = some true) :
          ∀ p ∈ entries (.unknown d) (hs.map (Handler.retarget f)),
            ∃ q ∈ entries (.unknown .throwable) (k :: hs), p.1 = f q.1 := by
        intro p hp
        obtain ⟨q, hq, hPlace⟩ := ih p hp
        refine ⟨q, ?_, hPlace⟩
        rw [entries_cons, show (Value.unknown .throwable).descriptor = .throwable from rfl,
          (catches_throwable k.type).resolve_left hAll]
        exact .tail _ hq
      intro p hp
      rw [List.map_cons, entries_cons] at hp
      cases hCatches : Classes.catches? (k.retarget f).type (Value.unknown d).descriptor with
      | none =>
          rw [hCatches] at hp
          rcases List.mem_cons.mp hp with rfl | hp
          · exact hFirst
          · exact hLater (fun hAll => by cases (hAll d).symm.trans hCatches) p hp
      | some certain =>
          rw [hCatches] at hp
          cases certain
          · exact hLater (fun hAll => by cases (hAll d).symm.trans hCatches) p hp
          · obtain rfl := List.mem_singleton.mp hp
            exact hFirst

end

/-- What keeps the places of two runs apart: in the first, a handler of an instruction is at the place of
no other handler of it, nor is it where control goes on. -/
structure Apart (f : Address → Address) (c : Context) (a : Address) (i : Instruction Address) :
    Prop where
  next : i.fallsThrough = true → ∀ n, c.next a = .ok n → ∀ k ∈ c.method.handlersAt a,
    f n ≠ f k.target
  handlers : ∀ k ∈ c.method.handlersAt a, ∀ k' ∈ c.method.handlersAt a,
    f k.target = f k'.target → k.target = k'.target

/-- The places of a step, once it is known what the instruction does. -/
def successors (c : Context) (a : Address) (pre : State) (o : Outcome) :
    Except Error (List (Address × State)) :=
  (c.flowSuccessors a pre o.post o.flow).map fun successors =>
    match o.hazard with
    | some exception => route pre exception successors (c.method.handlersAt a)
    | none => successors

theorem apply_of_at?_eq_none {c : Context} {a : Address} (h : c.method.code.at? a = none) (pre : State) :
    c.apply a pre = throw (.address a) := by
  unfold apply
  rw [h]

/-- Where a step succeeds there is an instruction. -/
theorem exists_instruction {c : Context} {a : Address} {pre : State} {s t : Supply} {step : Step}
    (h : c.apply a pre s = (.ok step, t)) : ∃ i, c.method.code.at? a = some i := by
  cases hi : c.method.code.at? a with
  | some i => exact ⟨i, rfl⟩
  | none =>
      rw [apply_of_at?_eq_none hi] at h
      cases (Prod.mk.inj h).1

theorem apply_eq (c : Context) {a : Address} {i : Instruction Address} (pre : State)
    (hi : c.method.code.at? a = some i) :
    c.apply a pre = (c.execute a i pre { pre with result := none, exception := none } >>= fun o =>
      Run.ofExcept ((c.successors a pre o).map fun successors => ⟨o.post, successors⟩)) := by
  unfold apply
  rw [hi]
  dsimp only
  congr 1
  funext o
  unfold successors
  cases c.flowSuccessors a pre o.post o.flow <;> rfl

/-- What only goes on leads to the next instruction. -/
theorem successors_next {c : Context} {a : Address} {o : Outcome} (hFlow : o.flow = .next)
    (hHazard : o.hazard = none) (h : c.successors a pre o = .ok A) :
    ∃ b, c.method.code.next? a = some b ∧ A = [(b, o.post)] := by
  unfold successors flowSuccessors at h
  rw [hFlow, hHazard] at h
  cases hNext : c.next a with
  | error e =>
      rw [hNext] at h
      cases h
  | ok b =>
      rw [hNext] at h
      exact ⟨b, next_eq_ok_iff.mp hNext, (Except.ok.inj h).symm⟩

/-- Control goes on to every place at most once. -/
theorem nodup_successors {c : Context} {a : Address} {o : Outcome}
    (h : c.successors a pre o = .ok A) : (A.map Prod.fst).Nodup := by
  unfold successors at h
  cases hFlow : c.flowSuccessors a pre o.post o.flow with
  | error e =>
      rw [hFlow] at h
      cases h
  | ok B =>
      rw [hFlow] at h
      obtain rfl := Except.ok.inj h
      have hB : (B.map Prod.fst).Nodup := by
        unfold flowSuccessors at hFlow
        split at hFlow
        · cases hNext : c.next a with
          | error e =>
              rw [hNext] at hFlow
              cases hFlow
          | ok next =>
              rw [hNext] at hFlow
              obtain rfl := Except.ok.inj hFlow
              exact List.nodup_singleton next
        · obtain rfl := Except.ok.inj hFlow
          rw [jump_eq]
          exact nodup_addAll (A := []) List.nodup_nil _
        · obtain rfl := Except.ok.inj hFlow
          exact .nil
        · obtain rfl := Except.ok.inj hFlow
          rw [route_eq]
          exact nodup_addAll (A := []) List.nodup_nil _
      dsimp only
      split
      · rw [route_eq]
        exact nodup_addAll hB _
      · exact hB

section

variable {c : Context} {a : Address} {s t : Supply} {step : Step}

/-- A step that has been performed is what its instruction did. -/
theorem exists_outcome (h : c.apply a pre s = (.ok step, t)) :
    ∃ i o, c.method.code.at? a = some i ∧
      c.execute a i pre { pre with result := none, exception := none } s = (.ok o, t) ∧
      c.successors a pre o = .ok step.successors ∧ step.post = o.post := by
  obtain ⟨i, hi⟩ := exists_instruction h
  rw [apply_eq c pre hi] at h
  obtain ⟨o, u, hDoes, hRest⟩ := Run.bind_eq_ok h
  obtain ⟨hStep, rfl⟩ := Prod.mk.inj hRest
  refine ⟨i, o, hi, hDoes, ?_⟩
  cases hSuccessors : c.successors a pre o with
  | error e =>
      rw [hSuccessors] at hStep
      cases hStep
  | ok successors =>
      rw [hSuccessors] at hStep
      obtain rfl := Except.ok.inj hStep
      exact ⟨rfl, rfl⟩

/-- A step leads to every place at most once. -/
theorem nodup_apply (h : c.apply a pre s = (.ok step, t)) :
    (step.successors.map Prod.fst).Nodup := by
  obtain ⟨_, _, _, _, hAll, _⟩ := exists_outcome h
  exact nodup_successors hAll

end

section

variable {Λ : Links} {f : Address → Address} {c c' : Context} {a a' : Address}
  {i : Instruction Address} {pre pre' : State}

omit f i in
theorem isHandler_of_mem {k : Handler} (h : k ∈ c.method.handlersAt a) :
    c.method.isHandler k.target = true :=
  List.any_eq_true.mpr ⟨k, handlersAt_subset h, by simp⟩

/-- In both runs the handlers of an instruction are entered besides going on. -/
theorem matched_handlers {A B : List (Address × State)} {x y : Value}
    (hHandlers : c.method.handlersAt a = (c'.method.handlersAt a').map (Handler.retarget f))
    (hApart : Apart f c' a' i) (hPre : pre.Stands Λ pre')
    (hMatched : Matched f (fun b s t => s.Arrives Λ (c'.method.isHandler b = true) t) A B)
    (hB : ∀ q ∈ B, ∀ k ∈ c'.method.handlersAt a', f q.1 ≠ f k.target)
    (hThrows : Throws Λ (c'.method.handlersAt a') x y) :
    Matched f (fun b s t => s.Arrives Λ (c'.method.isHandler b = true) t)
      (route pre x A (c.method.handlersAt a)) (route pre' y B (c'.method.handlersAt a')) := by
  rw [hHandlers]
  rcases hThrows with hNone | ⟨hStands, hType⟩
  · rw [hNone]
    exact hMatched
  · have hTargets : ∀ q ∈ entries y (c'.method.handlersAt a'),
        ∃ k ∈ c'.method.handlersAt a', q.1 = k.target := by
      intro q hq
      obtain ⟨k, hk, _, rfl⟩ := mem_entries q hq
      exact ⟨k, hk, rfl⟩
    rw [route_eq, route_eq]
    refine hMatched.addAll ?_ fun q hq => ?_
    · rw [List.forall₂_map_left_iff, List.forall₂_map_right_iff]
      refine forall₂_of_mem (entries_stands hStands hType) fun q hq p ⟨hPlace, hValue⟩ => ?_
      obtain ⟨k, hk, hHere⟩ := hTargets q hq
      refine ⟨hPlace, entering_arrives hPre hValue ?_⟩
      rw [hHere]
      exact isHandler_of_mem hk
    · obtain ⟨u, hu, rfl⟩ := List.mem_map.mp hq
      obtain ⟨k, hk, hPlace⟩ := hTargets u hu
      dsimp only
      rw [hPlace]
      refine ⟨fun b hb hBoth => absurd hBoth (hB b hb k hk), fun r hr hBoth => ?_⟩
      obtain ⟨v, hv, rfl⟩ := List.mem_map.mp hr
      obtain ⟨k', hk', hPlace'⟩ := hTargets v hv
      dsimp only at hBoth ⊢
      rw [hPlace'] at hBoth ⊢
      exact hApart.handlers k' hk' k hk hBoth

/-- In the first run handlers are entered that the second enters besides going on. -/
theorem forward_handlers {d e : Descriptor} (hl : Λ.loose) (hd : d = e ∨ e = .throwable)
    (hHandlers : c.method.handlersAt a = (c'.method.handlersAt a').map (Handler.retarget f))
    (hPre : pre.Stands Λ pre') {B : List (Address × State)}
    (hB : ∀ q ∈ B, ∀ k ∈ c'.method.handlersAt a', q.1 ≠ k.target) :
    ∀ p ∈ route pre (.unknown d) [] (c.method.handlersAt a),
      ∃ q ∈ route pre' (.unknown e) B (c'.method.handlersAt a'),
        p.1 = f q.1 ∧ p.2.Arrives Λ (c'.method.isHandler q.1 = true) q.2 := by
  rw [hHandlers, route_eq, route_eq]
  intro p hp
  obtain ⟨u, hu, rfl⟩ := List.mem_map.mp ((mem_addAll hp).resolve_left (by simp))
  -- the handler is entered in the second run, though perhaps for another exception
  have hEntered : ∃ v ∈ entries (.unknown e) (c'.method.handlersAt a'), u.1 = f v.1 := by
    rcases hd with rfl | rfl
    · have hSame : List.Forall₂ (fun p q => p.1 = f q.1 ∧ Stands Λ p.2 q.2)
          (entries (.unknown d) ((c'.method.handlersAt a').map (Handler.retarget f)))
          (entries (.unknown d) (c'.method.handlersAt a')) := entries_stands (.unknown d) rfl
      obtain ⟨v, hv, hPlace, _⟩ := exists_of_forall₂ hSame hu
      exact ⟨v, hv, hPlace⟩
    · exact entries_throwable d u hu
  obtain ⟨v, hv, hPlace⟩ := hEntered
  obtain ⟨q, hq, hHere⟩ := reaches_addAll (A := B)
    (List.mem_map_of_mem (f := fun p : Address × Value => (p.1, entering pre' p.2)) hv)
  obtain ⟨k, hk, _, rfl⟩ := mem_entries v hv
  refine ⟨q, hq, by rw [hPlace, hHere], ?_⟩
  rcases mem_addAll hq with hOld | hNew
  · exact absurd hHere (hB q hOld k hk)
  · obtain ⟨w, hw, rfl⟩ := List.mem_map.mp hNew
    obtain ⟨k', hk', certain, rfl⟩ := mem_entries w hw
    obtain ⟨h, _, certain', rfl⟩ := mem_entries u hu
    obtain ⟨z, hz⟩ := caught_unknown k' e certain
    obtain ⟨z', hz'⟩ := caught_unknown h d certain'
    dsimp only
    rw [hz, hz']
    exact entering_arrives hPre (.hidden z hl (Value.hidden_unknown z')) (isHandler_of_mem hk')

/-- The places that control goes to in the first run, and in the second. -/
theorem successors_tracks {o o' : Outcome}
    (hHandlers : c.method.handlersAt a = (c'.method.handlersAt a').map (Handler.retarget f))
    (hNext : Tracks Λ (c.next a) (c'.next a') fun n n' => n = f n') (hApart : Apart f c' a' i)
    (hFalls : o'.flow = .next → i.fallsThrough = true) (hPre : pre.Stands Λ pre')
    (hCovers : Outcome.Covers Λ f (c'.method.handlersAt a') o o') :
    Tracks Λ ((c.successors a pre o).map fun successors => (⟨o.post, successors⟩ : Step))
      ((c'.successors a' pre' o').map fun successors => (⟨o'.post, successors⟩ : Step))
      (Step.Covers Λ f fun b => c'.method.isHandler b = true) := by
  have hNow := hNext.noting
  have hOne {n n' : Address} {s t : State} (hn : n = f n') (hPost : s.Passes Λ t) :
      Matched f (fun b s t => s.Arrives Λ (c'.method.isHandler b = true) t) [(n, s)] [(n', t)] :=
    ⟨by simpa using ⟨hn, passes_arrives hPost _⟩, by simpa using ⟨hn, passes_arrives hPost _⟩⟩
  cases hCovers with
  | @alike flow flow' s t hFlow hPost =>
      have hCovered {A B : List (Address × State)}
          (hMatched : Matched f (fun b s t => s.Arrives Λ (c'.method.isHandler b = true) t) A B) :
          Step.Covers Λ f (fun b => c'.method.isHandler b = true) ⟨s, A⟩ ⟨t, B⟩ :=
        ⟨hPost.stands.shows, fun _ => hPost.stands, hMatched.forward, fun _ => hMatched.backward⟩
      cases hFlow with
      | next =>
          unfold successors flowSuccessors
          refine Tracks.map (Tracks.map (Tracks.map ?_))
          exact hNext.imp fun n n' hn => hCovered (hOne hn hPost)
      | jump targets =>
          refine tracks_pure (hCovered ?_)
          dsimp only
          rw [jump_eq, jump_eq]
          exact matched_jump fun b _ => passes_arrives hPost _
      | stop => exact tracks_pure (hCovered matched_nil)
      | raise hThrows =>
          exact tracks_pure (hCovered (matched_handlers hHandlers hApart hPre matched_nil (by simp) hThrows))
  | hazards hThrows hPost =>
      unfold successors flowSuccessors
      refine Tracks.map (Tracks.map (Tracks.map ?_))
      refine hNow.imp fun n n' ⟨hn, _, hGoes⟩ => ?_
      have hMatched := matched_handlers hHandlers hApart hPre (hOne hn hPost)
        (by simpa using fun k hk => hApart.next (hFalls rfl) n' hGoes k hk) hThrows
      exact ⟨hPost.stands.shows, fun _ => hPost.stands, hMatched.forward, fun _ => hMatched.backward⟩
  | certain hl hPost =>
      unfold successors flowSuccessors
      refine Tracks.map (Tracks.map (Tracks.map ?_))
      refine hNext.imp fun n n' hn => ⟨hPost.stands.shows, fun hNot => absurd hl hNot, ?_,
        fun hNot => absurd hl hNot⟩
      intro p hp
      obtain rfl := List.mem_singleton.mp hp
      refine ⟨(n', _), ?_, hn, passes_arrives hPost _⟩
      split
      · rw [route_eq]
        exact subset_addAll _ _ (.head _)
      · exact .head _
  | @raises s t d e hl hd hShows =>
      intro y hy
      unfold successors flowSuccessors at hy
      cases hGoes : c'.next a' with
      | error _ =>
          rw [hGoes] at hy
          cases hy
      | ok n' =>
          rw [hGoes] at hy
          cases hy
          refine ⟨hShows, fun hNot => absurd hl hNot, ?_, fun hNot => absurd hl hNot⟩
          refine forward_handlers hl hd hHandlers hPre fun q hq k hk hHere => ?_
          obtain rfl := List.mem_singleton.mp hq
          exact hApart.next (hFalls rfl) n' hGoes k hk (congrArg f hHere)
  | silent hl hNone hShows =>
      intro y hy
      rw [hNone] at hHandlers
      obtain ⟨B, rfl⟩ : ∃ B, y = ⟨o'.post, B⟩ := by
        cases hB : c'.successors a' pre' o' with
        | error _ =>
            rw [hB] at hy
            cases hy
        | ok B =>
            rw [hB] at hy
            cases hy
            exact ⟨B, rfl⟩
      unfold successors flowSuccessors
      rw [hHandlers]
      exact ⟨hShows, fun hNot => absurd hl hNot, by simp [route], fun hNot => absurd hl hNot⟩
  | narrows hl hus hPost =>
      refine tracks_pure ⟨hPost.stands.shows, fun hNot => absurd hl hNot, ?_, fun hNot => absurd hl hNot⟩
      dsimp only
      rw [jump_eq, jump_eq]
      exact forward_jump (R := fun b s t => s.Arrives Λ (c'.method.isHandler b = true) t) hus
        fun b _ => passes_arrives hPost _

/-- Whatever a step of the first run does the second allows for. -/
theorem apply_tracks {s t : Supply} (hClasses : c.classes = c'.classes)
    (hBond : Λ.Bond s.heap t.heap) (hi : c'.method.code.at? a' = some i)
    (hi' : c.method.code.at? a = some (i.mapTargets f)) (hFeeds : Feeds Λ i pre pre')
    (hHandlers : c.method.handlersAt a = (c'.method.handlersAt a').map (Handler.retarget f))
    (hNext : ∀ n', c'.next a' = .ok n' → c.next a = .ok (f n')) (hApart : Apart f c' a' i)
    (hLapse : c'.CallsLapse) (hCalls : c'.RunsNoBody i)
    (hCandid : Λ.loose → Candid (c'.method.handlersAt a') i pre') :
    Run.Tracks Λ (c.apply a pre) (c'.apply a' pre') s t
      fun Λ' => Step.Covers Λ' f fun b => c'.method.isHandler b = true := by
  have hGoes (Λ : Links) : Tracks Λ (c.next a) (c'.next a') fun n n' => n = f n' := by
    intro n' hn'
    rw [hNext n' hn']
    exact rfl
  rw [apply_eq c pre hi', apply_eq c' pre' hi]
  have hExecute : Run.Tracks Λ
      (c.execute a (i.mapTargets f) pre { pre with result := none, exception := none })
      (c'.execute a' i pre' { pre' with result := none, exception := none }) s t
      fun Λ' => Outcome.Covers Λ' f (c'.method.handlersAt a') :=
    execute_tracks hClasses hBond hFeeds (hGoes Λ) hCalls hCandid
  refine (hExecute.noting (execute_ends hLapse (sameShape_pass none none) i t)).bind
    fun Λ' s' t' o o' hΛ ⟨hCovers, _, hRespects⟩ => ?_
  refine Run.tracks_ofExcept hΛ.bond (successors_tracks hHandlers (hGoes Λ') hApart (fun hFlow => ?_)
    (hFeeds.stands.grow hΛ.grows) hCovers)
  have hFollows := hRespects.flow
  rw [hFlow] at hFollows
  exact hFollows

end

end Semantics.Context

end Dalvik
