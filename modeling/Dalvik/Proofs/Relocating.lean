import Dalvik.Proofs.Routing
import Dalvik.Proofs.Throwing

/-!
Steps of an instruction that has moved to another place of another method, together with the places that it
jumps to and the handlers that catch its exceptions. Such a step does what it did.
-/

namespace Dalvik

/-- A flow of control with the places that are jumped to moved. -/
def Flow.mapTargets (f : Address → Address) : Flow → Flow
  | .jump ts => .jump (ts.map f)
  | flow => flow

/-- What an instruction does, with the places that are jumped to moved. -/
def Outcome.mapTargets (f : Address → Address) (o : Outcome) : Outcome :=
  { o with flow := o.flow.mapTargets f }

namespace Semantics

variable {f : Address → Address} {pre post : State}

theorem Outcome.mapTargets_of_obeys {i : Instruction Address} {o : Outcome} (h : o.Obeys i)
    (hBranch : i.isBranch = false) : o.mapTargets f = o := by
  obtain ⟨flow, post, hazard⟩ := o
  cases flow with
  | jump ts =>
      have hJumps := h.jumps ts rfl
      rw [hBranch] at hJumps
      cases hJumps
  | _ => rfl

theorem branch_moved (n : Address) (cmp : Comparison) (lhs : Register) (rhs : Option Register)
    (target : Address) :
    branch pre post (.ok (f n)) cmp lhs rhs (f target) =
      (branch pre post (.ok n) cmp lhs rhs target).map (Outcome.mapTargets f) := by
  rw [branch_eq, branch_eq]
  cases pre.read lhs with
  | error e => rfl
  | ok v =>
      cases rhs.elim (pure (.int 0)) pre.read with
      | error e => rfl
      | ok w => exact congrArg (fun ts => Except.ok (Outcome.jump post ts)) (decided_map (f := f) target n _)

theorem switch_moved (n : Address) (src : Register) (cases : List (Int32 × Address)) :
    switch pre post (.ok (f n)) src (cases.map fun c => (c.1, f c.2)) =
      (switch pre post (.ok n) src cases).map (Outcome.mapTargets f) := by
  rw [switch_eq, switch_eq]
  cases pre.read src with
  | error e => rfl
  | ok v => exact congrArg (fun ts => Except.ok (Outcome.jump post ts)) (selected_map (f := f) cases n _)

/-- Where there is no next instruction, a branch fails, even if it does not go on to it. -/
theorem branch_of_error (pre post : State) (e : Error) (cmp : Comparison) (lhs : Register) (rhs : Option Register)
    (target : Address) : ∃ e', branch pre post (.error e) cmp lhs rhs target = .error e' := by
  rw [branch_eq]
  cases pre.read lhs with
  | error e' => exact ⟨e', rfl⟩
  | ok v =>
      cases rhs.elim (pure (.int 0)) pre.read with
      | error e' => exact ⟨e', rfl⟩
      | ok w => exact ⟨e, rfl⟩

namespace Context

/-- An instruction has moved to another method, together with its surroundings. There it may be the last one
only if the runs are lenient. -/
structure Moves (c c' : Context) (f : Address → Address) (lenient : Prop) (a' a : Address)
    (i : Instruction Address) : Prop where
  classes : c.classes = c'.classes
  call : c.call = c'.call
  old : c'.method.code.at? a = some i
  new : c.method.code.at? a' = some (i.mapTargets f)
  handlers : c.method.handlersAt a' = (c'.method.handlersAt a).map (Handler.retarget f)
  next : ∀ n, c'.next a = .ok n → c.next a' = .ok (f n) ∨ lenient ∧ ∃ e, c.next a' = .error e

variable {c c' : Context} {lenient : Prop} {a a' : Address} {i : Instruction Address} {s t : Supply}
  {o : Outcome} {step : Step}

/-- Only branches look at where they are. -/
theorem Moves.execute_eq (h : Moves c c' f lenient a' a i) (hBranch : i.isBranch = false) :
    c.execute a' (i.mapTargets f) pre post = c'.execute a i pre post := by
  obtain ⟨classes, method, call⟩ := c
  obtain ⟨classes', method', call'⟩ := c'
  obtain ⟨hClasses, hCall, _⟩ := h
  dsimp only at hClasses hCall
  subst hClasses hCall
  cases i with
  | goto t => cases hBranch
  | branch cmp lhs rhs t => cases hBranch
  | switch src cases => cases hBranch
  | _ => rfl

/-- What an instruction takes from the supply does not depend on where it is. -/
theorem Moves.execute_supply (h : Moves c c' f lenient a' a i) :
    (c.execute a' (i.mapTargets f) pre post s).2 = (c'.execute a i pre post s).2 := by
  cases hBranch : i.isBranch with
  | false => rw [h.execute_eq hBranch]
  | true =>
      cases i with
      | goto t => rfl
      | branch cmp lhs rhs t => rfl
      | switch src cases => rfl
      | _ => cases hBranch

theorem Moves.execute_moved (h : Moves c c' f lenient a' a i) (hPost : post.exception = none)
    (hDoes : c'.execute a i pre post s = (.ok o, t)) :
    c.execute a' (i.mapTargets f) pre post s = (.ok (o.mapTargets f), t) ∨
      lenient ∧ ∃ e, c.execute a' (i.mapTargets f) pre post s = (.error e, t) := by
  cases hBranch : i.isBranch with
  | false =>
      have hObeys := execute_obeys (c := c') hPost pre a i s
      unfold Run.Ends at hObeys
      rw [hDoes] at hObeys
      rw [Outcome.mapTargets_of_obeys hObeys hBranch, h.execute_eq hBranch]
      exact .inl hDoes
  | true =>
      cases i with
      | goto target =>
          obtain ⟨ho, rfl⟩ := Prod.mk.inj hDoes
          obtain rfl := Except.ok.inj ho
          exact .inl rfl
      | branch cmp lhs rhs target =>
          obtain ⟨ho, rfl⟩ := Prod.mk.inj hDoes
          cases hNext : c'.next a with
          | error e =>
              obtain ⟨e', he⟩ := branch_of_error pre post e cmp lhs rhs target
              rw [hNext, he] at ho
              cases ho
          | ok n =>
              rw [hNext] at ho
              rcases h.next n hNext with hThere | ⟨hLenient, e, hNone⟩
              · refine .inl (congrArg (·, s) ?_)
                rw [hThere, branch_moved, ho]
                rfl
              · obtain ⟨e', he⟩ := branch_of_error pre post e cmp lhs rhs (f target)
                exact .inr ⟨hLenient, e', congrArg (·, s) (by rw [hNone, he])⟩
      | switch src cases =>
          obtain ⟨ho, rfl⟩ := Prod.mk.inj hDoes
          cases hNext : c'.next a with
          | error e =>
              rw [hNext] at ho
              cases ho
          | ok n =>
              rw [hNext] at ho
              rcases h.next n hNext with hThere | ⟨hLenient, e, hNone⟩
              · refine .inl (congrArg (·, s) ?_)
                rw [hThere, switch_moved, ho]
                rfl
              · exact .inr ⟨hLenient, e, congrArg (·, s) (by rw [hNone]; rfl)⟩
      | _ => cases hBranch

theorem snd_bind_ofExcept {α β : Type} (r : Run α) (g : α → Except Error β) (s : Supply) :
    ((r >>= fun v => Run.ofExcept (g v)) s).2 = (r s).2 := by
  rw [stateful_bind_apply]
  rcases r s with ⟨_ | v, t⟩ <;> rfl

/-- What a step takes from the supply does not depend on where it is. -/
theorem Moves.apply_supply (h : Moves c c' f lenient a' a i) :
    (c.apply a' pre s).2 = (c'.apply a pre s).2 := by
  rw [apply_eq c pre h.new, apply_eq c' pre h.old, snd_bind_ofExcept, snd_bind_ofExcept, h.execute_supply]

/-- What leads to a place where there is no handler has no exception. -/
theorem apply_plain (h : c.apply a pre s = (.ok step, t)) {p : Address × State} (hp : p ∈ step.successors)
    (hOther : c.method.isHandler p.1 = false) : p.2.exception = none := by
  obtain ⟨i, o, _, hDoes, hSuccessors, _⟩ := exists_outcome h
  have hPost : ({ pre with result := none, exception := none } : State).exception = none := rfl
  have hObeys := execute_obeys (c := c) hPost pre a i s
  unfold Run.Ends at hObeys
  rw [hDoes] at hObeys
  have hRouted {x : Value} {A : List (Address × State)} (hMem : p ∈ route pre x A (c.method.handlersAt a)) :
      p ∈ A := by
    rw [route_eq] at hMem
    refine (mem_addAll hMem).resolve_right fun hEnters => ?_
    obtain ⟨u, hu, rfl⟩ := List.mem_map.mp hEnters
    obtain ⟨k, hk, _, rfl⟩ := mem_entries u hu
    dsimp only at hOther
    rw [isHandler_of_mem hk] at hOther
    cases hOther
  have hFlow {A : List (Address × State)} (hA : c.flowSuccessors a pre o.post o.flow = .ok A) (hMem : p ∈ A) :
      p.2.exception = none := by
    unfold flowSuccessors at hA
    split at hA
    · cases hNext : c.next a with
      | error e =>
          rw [hNext] at hA
          cases hA
      | ok n =>
          rw [hNext] at hA
          obtain rfl := Except.ok.inj hA
          obtain rfl := List.mem_singleton.mp hMem
          exact hObeys.plain
    · obtain rfl := Except.ok.inj hA
      rw [jump_eq] at hMem
      obtain ⟨_, _, rfl⟩ := List.mem_map.mp ((mem_addAll hMem).resolve_left (by simp))
      exact hObeys.plain
    · obtain rfl := Except.ok.inj hA
      cases hMem
    · obtain rfl := Except.ok.inj hA
      cases hRouted hMem
  unfold successors at hSuccessors
  cases hA : c.flowSuccessors a pre o.post o.flow with
  | error e =>
      rw [hA] at hSuccessors
      cases hSuccessors
  | ok A =>
      rw [hA] at hSuccessors
      have hAll := Except.ok.inj hSuccessors
      refine hFlow hA ?_
      rw [← hAll] at hp
      split at hp
      · exact hRouted hp
      · exact hp

/-- A handler that has moved catches the same exceptions. -/
theorem entries_retarget (x : Value) (hs : List Handler) :
    entries x (hs.map (Handler.retarget f)) = (entries x hs).map fun p => (f p.1, p.2) := by
  induction hs with
  | nil => rfl
  | cons k hs ih =>
      have hType : (k.retarget f).type = k.type := rfl
      rw [List.map_cons, entries_cons, entries_cons, ih, hType]
      rcases Classes.catches? k.type x.descriptor with _ | _ | _ <;> rfl

/-- The places that a step of a moved instruction leads to are those that it led to before. -/
abbrev Same (f : Address → Address) : List (Address × State) → List (Address × State) → Prop :=
  Matched f fun _ p q => p = q

theorem Moves.route_moved (h : Moves c c' f lenient a' a i) {A B : List (Address × State)} (hSame : Same f A B)
    (x : Value)
    (hApart : ∀ p ∈ route pre x B (c'.method.handlersAt a), ∀ q ∈ route pre x B (c'.method.handlersAt a),
      c'.method.isHandler q.1 = true → f p.1 = f q.1 → p.1 = q.1) :
    Same f (route pre x A (c.method.handlersAt a')) (route pre x B (c'.method.handlersAt a)) := by
  rw [route_eq] at hApart
  rw [h.handlers, route_eq, route_eq, entries_retarget, List.map_map]
  refine hSame.addAll (List.forall₂_map_left_iff.mpr (List.forall₂_map_right_iff.mpr
    (List.forall₂_same.mpr fun p _ => ⟨rfl, rfl⟩))) fun q hq => ?_
  obtain ⟨q', hq', hHere⟩ := reaches_addAll (A := B) hq
  have hHandler : c'.method.isHandler q'.1 = true := by
    obtain ⟨u, hu, rfl⟩ := List.mem_map.mp hq
    obtain ⟨k, hk, _, rfl⟩ := mem_entries u hu
    rw [hHere]
    exact isHandler_of_mem hk
  rw [← hHere]
  refine ⟨fun b hb hBoth => hApart b (subset_addAll _ _ hb) q' hq' hHandler hBoth, fun r hr hBoth => ?_⟩
  obtain ⟨r', hr', hThere⟩ := reaches_addAll (A := B) hr
  rw [← hThere] at hBoth ⊢
  exact hApart r' hr' q' hq' hHandler hBoth

/-- The places of a moved instruction, once it is known what it does. -/
theorem Moves.successors_moved (h : Moves c c' f lenient a' a i) {B : List (Address × State)}
    (hB : c'.successors a pre o = .ok B)
    (hApart : ∀ p ∈ B, ∀ q ∈ B, c'.method.isHandler q.1 = true → f p.1 = f q.1 → p.1 = q.1) :
    (∃ A, c.successors a' pre (o.mapTargets f) = .ok A ∧ Same f A B) ∨
      lenient ∧ ∃ e, c.successors a' pre (o.mapTargets f) = .error e := by
  obtain ⟨flow, post, hazard⟩ := o
  have hSubset {B' : List (Address × State)} (hFlow : c'.flowSuccessors a pre post flow = .ok B') : B' ⊆ B := by
    unfold successors at hB
    dsimp only at hB
    rw [hFlow] at hB
    obtain rfl := Except.ok.inj hB
    cases hazard with
    | none => exact List.Subset.refl B'
    | some x =>
        dsimp only
        rw [route_eq]
        exact subset_addAll B' _
  -- the handlers of a possible exception come after what control goes on to
  have hAll {A' B' : List (Address × State)} (hSame : Same f A' B')
      (hFlow : c'.flowSuccessors a pre post flow = .ok B')
      (hFlow' : c.flowSuccessors a' pre post (flow.mapTargets f) = .ok A') :
      ∃ A, c.successors a' pre (Outcome.mapTargets f ⟨flow, post, hazard⟩) = .ok A ∧ Same f A B := by
    unfold successors at hB ⊢
    dsimp only [Outcome.mapTargets] at hB ⊢
    rw [hFlow] at hB
    rw [hFlow']
    obtain rfl := Except.ok.inj hB
    refine ⟨_, rfl, ?_⟩
    cases hazard with
    | none => exact hSame
    | some x => exact h.route_moved hSame x hApart
  cases flow with
  | next =>
      cases hNext : c'.next a with
      | error e =>
          unfold successors flowSuccessors at hB
          dsimp only at hB
          rw [hNext] at hB
          cases hB
      | ok n =>
          have hFlow : c'.flowSuccessors a pre post .next = .ok [(n, post)] := by
            unfold flowSuccessors
            rw [hNext]
            rfl
          rcases h.next n hNext with hThere | ⟨hLenient, e, hNone⟩
          · have hFlow' : c.flowSuccessors a' pre post .next = .ok [(f n, post)] := by
              unfold flowSuccessors
              rw [hThere]
              rfl
            exact .inl (hAll ⟨by simp, by simp⟩ hFlow hFlow')
          · refine .inr ⟨hLenient, e, ?_⟩
            unfold successors flowSuccessors
            dsimp only [Outcome.mapTargets, Flow.mapTargets]
            rw [hNone]
            rfl
  | jump targets =>
      refine .inl (hAll ?_ rfl rfl)
      rw [jump_eq, jump_eq]
      exact matched_jump fun _ _ => rfl
  | stop => exact .inl (hAll matched_nil rfl rfl)
  | raise x =>
      have hRaised : Same f (route pre x [] (c.method.handlersAt a')) (route pre x [] (c'.method.handlersAt a)) := by
        exact h.route_moved matched_nil x fun p hp q hq => hApart p (hSubset rfl hp) q (hSubset rfl hq)
      exact .inl (hAll hRaised rfl rfl)

/-- A step of a moved instruction does what it did, unless there is nothing left to go on to. No handler that
is entered may have moved to a place that control reaches otherwise. -/
theorem Moves.apply_moved (h : Moves c c' f lenient a' a i) (hStep : c'.apply a pre s = (.ok step, t))
    (hApart : ∀ p ∈ step.successors, ∀ q ∈ step.successors, c'.method.isHandler q.1 = true →
      f p.1 = f q.1 → p.1 = q.1) :
    Run.Ends (c.apply a' pre) s
      (fun moved u => u = t ∧ moved.post = step.post ∧ Same f moved.successors step.successors)
      fun _ _ => lenient := by
  obtain ⟨i', o, hi', hDoes, hSuccessors, hPost⟩ := exists_outcome hStep
  obtain rfl := Option.some.inj (hi'.symm.trans h.old)
  unfold Run.Ends
  rw [apply_eq c pre h.new, stateful_bind_apply]
  rcases h.execute_moved rfl hDoes with hMoved | ⟨hLenient, e, hFails⟩
  · rw [hMoved]
    dsimp only [Run.ofExcept]
    rcases h.successors_moved hSuccessors hApart with ⟨A, hA, hSame⟩ | ⟨hLenient, e, hFails⟩
    · rw [hA]
      exact ⟨rfl, hPost.symm, hSame⟩
    · rw [hFails]
      exact hLenient
  · rw [hFails]
    exact hLenient

end Context

end Semantics

end Dalvik
