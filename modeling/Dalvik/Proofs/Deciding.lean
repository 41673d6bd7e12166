import Dalvik.Proofs.Passes
import Dalvik.Proofs.Simulation

/-!
What the plans of constant propagation say about recorded steps. An instruction that is planned for has led
to one place only, and either left the registers alone or assigned the planned value.
-/

namespace Dalvik

/-- The state without what passes from one instruction to the next. -/
def State.resting (s : State) : State := { s with result := none, exception := none }

namespace Links

variable {Λ : Links} {k h : Heap} {w v : Value} {l : Literal}

/-- What stands for the value of a literal can be loaded as well, without anything new being made of it,
if the value is that of the literal and no other string with the same text. -/
theorem Bond.literal_of_stands (hBond : Λ.Bond k h) (hStrict : ¬ Λ.loose) (hStands : w.Stands Λ v)
    (hLiteral : v.literal? = some l)
    (hText : ∀ id text, v = .string id text → h.interned.lookup text = some id) :
    ∃ w', k.literal l = (w', k) ∧ w'.Stands Λ v := by
  cases hStands with
  | hidden d hl _ => exact absurd hl hStrict
  | null d e =>
      obtain rfl := Option.some.inj hLiteral
      exact ⟨.null .object, rfl, .null .object e⟩
  | atom hAtom =>
      refine ⟨w, ?_, .atom hAtom⟩
      cases w <;> first | (cases hAtom; done) | (cases hLiteral; rfl) | cases hLiteral
  | @string i j text hLink =>
      obtain rfl := Option.some.inj hLiteral
      have hHere := (hBond.interned i j hLink.1 text).mpr (hText j text rfl)
      refine ⟨.string i text, ?_, .string text hLink⟩
      unfold Heap.literal Heap.intern
      dsimp only
      rw [Heap.internId_of_some hHere]
  | _ => cases hLiteral

end Links

/-- An instruction has assigned a register and gone on, or has raised an exception. -/
def Outcome.Computed (post : State) (dst : Register) (o : Outcome) : Prop :=
  (∃ x, o.flow = .raise x) ∨ o.flow = .next ∧ ∃ v, post.assign dst v = .ok o.post

theorem computed_assign (post : State) (dst : Register) (v : Value) (x : Option Value) :
    Ends (Outcome.assign post dst v x) (Outcome.Computed post dst) fun _ => True := by
  unfold Outcome.assign
  cases hNow : post.assign dst v with
  | error e => trivial
  | ok p => exact .inr ⟨rfl, v, hNow⟩

theorem computed_raise (post : State) (dst : Register) (type : Descriptor) :
    Ends (pure (Outcome.raise post type)) (Outcome.Computed post dst) fun _ => True :=
  .inl ⟨_, rfl⟩

namespace Semantics.Context

variable {c : Context} {a next : Address} {i : Instruction Address} {pre post : State} {s t : Supply}
  {o : Outcome}

/-- An instruction that only computes leaves the supply alone. It assigns its register and goes on, unless
it raises an exception. -/
theorem execute_computes (hComputes : Constants.computes i = true) {dst : Register}
    (hDst : i.writes? = some dst) (h : c.execute a i pre post s = (.ok o, t)) :
    t = s ∧ o.Computed post dst := by
  have hPure {r : Except Error Outcome} (hRun : (Run.ofExcept r : Run Outcome) s = (.ok o, t))
      (hEnds : Ends r (Outcome.Computed post dst) fun _ => True) : t = s ∧ o.Computed post dst := by
    obtain ⟨hResult, rfl⟩ := Prod.mk.inj hRun
    exact ⟨rfl, hEnds.of_eq_ok hResult⟩
  cases i with
  | move d src =>
      obtain rfl := Option.some.inj hDst
      exact hPure h (ends_bind.mpr (ends_of_all fun v => computed_assign post d v none))
  | moveResult d =>
      obtain rfl := Option.some.inj hDst
      exact hPure h (computed_assign post d _ none)
  | unary op d src =>
      obtain rfl := Option.some.inj hDst
      exact hPure h (ends_bind.mpr (ends_of_all fun v => computed_assign post d _ none))
  | compare k d lhs rhs =>
      obtain rfl := Option.some.inj hDst
      refine hPure h (ends_bind.mpr (ends_of_all fun v => ?_))
      exact ends_bind.mpr (ends_of_all fun w => computed_assign post d _ none)
  | binary op type d lhs rhs =>
      obtain rfl := Option.some.inj hDst
      refine hPure h (ends_bind.mpr (ends_of_all fun v => ends_bind.mpr (ends_of_all fun w => ?_)))
      dsimp only
      split
      · split
        · exact computed_raise post d _
        · exact computed_assign post d _ _
        · exact computed_assign post d _ _
      · exact computed_assign post d _ _
  | arrayLength d array =>
      obtain rfl := Option.some.inj hDst
      refine hPure h (ends_bind.mpr (ends_of_all fun v => ?_))
      split
      · exact computed_raise post d _
      · exact computed_assign post d _ _
      · exact computed_assign post d _ _
  | arrayGet d array index =>
      obtain rfl := Option.some.inj hDst
      refine hPure h (ends_bind.mpr (ends_of_all fun n => ends_bind.mpr (ends_of_all fun v => ?_)))
      split
      · exact computed_raise post d _
      · split
        · exact computed_raise post d _
        · exact ends_bind.mpr (ends_of_all fun n => computed_assign post d _ _)
        · exact computed_assign post d _ _
      · exact computed_assign post d _ _
  | instanceOf d src type =>
      obtain rfl := Option.some.inj hDst
      refine hPure h (ends_bind.mpr (ends_of_all fun v => ?_))
      split <;> exact computed_assign post d _ _
  | _ => cases hComputes

/-- An instruction that jumps to one place leads there and nowhere else. -/
theorem apply_of_jump {target : Address} (hi : c.method.code.at? a = some i)
    (h : c.execute a i pre pre.resting s = (.ok (.jump pre.resting [target]), t)) :
    c.apply a pre s = (.ok ⟨pre.resting, [(target, pre.resting)]⟩, t) := by
  have hDoes : c.execute a i pre { pre with result := none, exception := none } s =
      (.ok (.jump pre.resting [target]), t) := h
  rw [apply_eq c pre hi, stateful_bind_apply, hDoes]
  rfl

/-- A literal that is loaded without anything new being made of it is assigned. -/
theorem execute_const {dst : Register} {l : Literal} {v : Value} (hLiteral : s.heap.literal l = (v, s.heap))
    (hAssign : pre.resting.assign dst v = .ok post) :
    c.execute a (.const dst l) pre { pre with result := none, exception := none } s = (.ok (.next post), s) := by
  have hLoad : Run.onHeap (fun h => h.literal l) s = (.ok v, s) := by
    unfold Run.onHeap
    dsimp only
    rw [hLiteral]
  have hOutcome : Outcome.assign { pre with result := none, exception := none } dst v none =
      .ok (.next post) := congrArg (Except.map fun s => Outcome.next s) hAssign
  change (Run.onHeap (fun h => h.literal l) >>= fun v => Run.ofExcept
    (Outcome.assign { pre with result := none, exception := none } dst v none)) s = _
  rw [stateful_bind_apply, hLoad]
  exact congrArg (fun r => (r, s)) hOutcome

/-- Such a load goes on to the next instruction, and fails where there is none. -/
theorem apply_const_eq {dst : Register} {l : Literal} {v : Value} (hi : c.method.code.at? a = some (.const dst l))
    (hLiteral : s.heap.literal l = (v, s.heap)) (hAssign : pre.resting.assign dst v = .ok post) :
    c.apply a pre s = ((c.next a).map fun next => ⟨post, [(next, post)]⟩, s) := by
  rw [apply_eq c pre hi, stateful_bind_apply, execute_const hLiteral hAssign]
  unfold successors flowSuccessors
  dsimp only [Outcome.next]
  cases c.next a <;> rfl

theorem apply_const {dst : Register} {l : Literal} {v : Value} {next : Address}
    (hi : c.method.code.at? a = some (.const dst l)) (hLiteral : s.heap.literal l = (v, s.heap))
    (hAssign : pre.resting.assign dst v = .ok post) (hNext : c.next a = .ok next) :
    c.apply a pre s = (.ok ⟨post, [(next, post)]⟩, s) := by
  rw [apply_const_eq hi hLiteral hAssign, hNext]
  rfl

/-- An exception that is raised for certain leads to handlers only. -/
theorem exists_handler_of_raise {x : Value} {A : List (Address × State)} (hFlow : o.flow = .raise x)
    (h : c.successors a pre o = .ok A) {p : Address × State} (hp : p ∈ A) :
    ∃ k ∈ c.method.handlersAt a, p.1 = k.target := by
  unfold successors flowSuccessors at h
  rw [hFlow] at h
  obtain rfl := Except.ok.inj h
  have hRaised {p : Address × State} (hp : p ∈ route pre x [] (c.method.handlersAt a)) :
      ∃ k ∈ c.method.handlersAt a, p.1 = k.target := by
    obtain ⟨k, hk, v, rfl⟩ := (mem_route hp).resolve_left (by simp)
    exact ⟨k, hk, rfl⟩
  dsimp only at hp
  split at hp
  · rcases mem_route hp with hOld | ⟨k, hk, v, rfl⟩
    · exact hRaised hOld
    · exact ⟨k, hk, rfl⟩
  · exact hRaised hp

/-- An instruction that goes on leads to the next one, whatever it may raise besides. -/
theorem mem_successors_of_next {A : List (Address × State)} (hFlow : o.flow = .next)
    (hNext : c.next a = .ok next) (h : c.successors a pre o = .ok A) : (next, o.post) ∈ A := by
  unfold successors flowSuccessors at h
  rw [hFlow, hNext] at h
  obtain rfl := Except.ok.inj h
  dsimp only
  split
  · rw [route_eq]
    exact subset_addAll _ _ (.head _)
  · exact .head _

end Semantics.Context

namespace Constants

open Semantics (Context)

variable {g : Graph} {c : Context} {code : Code} {a next target : Address} {i : Instruction Address}
  {k : NodeId} {n : Node} {post : State}

theorem toOption_eq_some {α : Type} {r : Except Error α} {v : α} (h : r.toOption = some v) : r = .ok v := by
  cases r with
  | ok w => exact congrArg Except.ok (Option.some.inj h)
  | error e => cases h

/-- A condition that is certain sends control one way. -/
theorem branch_of_outcome? {cmp : Comparison} {lhs : Register} {rhs : Option Register} {taken : Bool}
    (h : outcome? cmp lhs rhs n = some taken) (post : State) :
    Semantics.branch n.pre post (.ok next) cmp lhs rhs target =
      .ok (.jump post [if taken then target else next]) := by
  unfold Semantics.branch
  cases rhs with
  | none =>
      obtain ⟨v, hv, hCompare⟩ := Option.bind_eq_some_iff.mp h
      rw [toOption_eq_some hv]
      have hCompare : Value.compare? cmp v (.int 0) = some taken := hCompare
      cases taken <;> simp [bind, Except.bind, pure, Except.pure, hCompare]
  | some r =>
      obtain ⟨v, hv, hOwn⟩ := Option.bind_eq_some_iff.mp h
      obtain ⟨w, hw, hCompare⟩ := Option.bind_eq_some_iff.mp hOwn
      have hCompare : Value.compare? cmp v w = some taken := hCompare
      have hFirst := toOption_eq_some hv
      have hSecond := toOption_eq_some hw
      cases taken <;> simp [bind, Except.bind, pure, Except.pure, hFirst, hSecond, hCompare]

theorem switch_of_key? {src : Register} {cases : List (Int32 × Address)} {key : Int32} (h : key? src n = some key)
    (post : State) : Semantics.switch n.pre post (.ok next) src cases =
      .ok (.jump post [Semantics.switchTarget cases next key]) := by
  obtain ⟨v, hv, hKnown⟩ := Option.bind_eq_some_iff.mp h
  unfold Semantics.switch
  rw [toOption_eq_some hv]
  simp [bind, Except.bind, pure, Except.pure, hKnown]

/-- A jump is certain to lead to an address in the state before an execution. -/
inductive BoundFor (n : Node) (next : Address) : Instruction Address → Address → Prop
  | goto (target : Address) : BoundFor n next (.goto target) target
  | branch {cmp : Comparison} {lhs : Register} {rhs : Option Register} {target : Address} {taken : Bool}
      (h : outcome? cmp lhs rhs n = some taken) :
      BoundFor n next (.branch cmp lhs rhs target) (if taken then target else next)
  | switch {src : Register} {cases : List (Int32 × Address)} {key : Int32} (h : key? src n = some key) :
      BoundFor n next (.switch src cases) (Semantics.switchTarget cases next key)

/-- The step of a jump leads where it is certain to lead, and nowhere else. -/
theorem BoundFor.apply_eq (h : BoundFor n next i target) (hi : c.method.code.at? a = some i)
    (hNext : c.next a = .ok next) (s : Supply) :
    c.apply a n.pre s = (.ok ⟨n.pre.resting, [(target, n.pre.resting)]⟩, s) := by
  refine Context.apply_of_jump hi ?_
  cases h with
  | goto _ => rfl
  | @branch cmp lhs rhs target taken hTaken =>
      have hBranch : Semantics.branch n.pre n.pre.resting (.ok next) cmp lhs rhs target = _ :=
        branch_of_outcome? hTaken n.pre.resting
      rw [← hNext] at hBranch
      exact congrArg (fun r => (r, s)) hBranch
  | @switch src cases key hKey =>
      have hSwitch : Semantics.switch n.pre n.pre.resting (.ok next) src cases = _ :=
        switch_of_key? hKey n.pre.resting
      rw [← hNext] at hSwitch
      exact congrArg (fun r => (r, s)) hSwitch

/-- Where all executions of an instruction are decided to go each of them is certain to go. -/
theorem Decides.boundFor (h : Decides g a next i target) (hg : g.Piled code) (hn : g.node? k = some n)
    (ha : n.address = a) : BoundFor n next i target := by
  cases h with
  | branch hTaken => exact .branch (hg.eq_of_agreed? hTaken hn ha)
  | switch hKey => exact .switch (hg.eq_of_agreed? hKey hn ha)

/-- The step of an instruction that is decided. -/
theorem Decides.apply_eq (h : Decides g a next i target) (hg : g.Piled code) (hn : g.node? k = some n)
    (ha : n.address = a) (hi : c.method.code.at? a = some i) (hNext : c.next a = .ok next) (s : Supply) :
    c.apply a n.pre s = (.ok ⟨n.pre.resting, [(target, n.pre.resting)]⟩, s) :=
  (h.boundFor hg hn ha).apply_eq hi hNext s

/-- The value that a constant stands for: what all executions of the instruction have left in a register
and gone on with. -/
theorem constant?_cases {dst : Register} {l : Literal} (h : constant? g a next dst = some l) :
    (∀ n ∈ g.pileNodes a, wentOn g next n = true) ∧
      ∃ v, g.consensus? a dst = some v ∧ v.literal? = some l ∧
        (v.text?.isSome = true → g.heap.isInterned v = true) := by
  unfold constant? at h
  split at h
  · rename_i hAll
    obtain ⟨v, hv, h⟩ := Option.bind_eq_some_iff.mp h
    split at h
    · cases h
    · rename_i hText
      refine ⟨fun n hn => List.all_eq_true.mp hAll n hn, v, hv, h, fun hSome => ?_⟩
      simpa [hSome] using hText
  · cases h

section

variable {maxVisits : Nat} {entry : State} {s t : Supply} {log : List Performance} {r : Performance}

/-- An execution that has gone on to the next instruction only has nowhere else to go. -/
theorem successors_of_wentOn (h : g.Recording c maxVisits entry s log t) (hDone : g.status = .completed)
    (hn : g.node? k = some n) (hr : log[k]? = some r) (hOn : wentOn g next n = true) :
    r.step.successors ≠ [] ∧ ∀ p ∈ r.step.successors, p.1 = next := by
  obtain ⟨hSome, hAll⟩ := Bool.and_eq_true_iff.mp hOn
  have hPlaces := (h.completed.mp hDone).2 k n r hn hr
  have hAt : ∀ id ∈ n.children, ∃ n', g.node? id = some n' ∧ n'.address = next := by
    intro id hid
    have hHere := List.all_eq_true.mp hAll id hid
    unfold Graph.isAt at hHere
    split at hHere
    · rename_i n' hn'
      exact ⟨n', hn', by simpa using hHere⟩
    · cases hHere
  rw [← hPlaces]
  constructor
  · obtain ⟨id, hid⟩ := List.exists_mem_of_ne_nil n.children (by simpa using hSome)
    obtain ⟨n', hn', _⟩ := hAt id hid
    exact List.ne_nil_of_mem (Graph.mem_places.mpr ⟨id, hid, n', hn', rfl⟩)
  · intro p hp
    obtain ⟨id, hid, n', hn', rfl⟩ := Graph.mem_places.mp hp
    obtain ⟨n'', hn'', hPlace⟩ := hAt id hid
    rw [hn'] at hn''
    obtain rfl := Option.some.inj hn''
    exact hPlace

/-- A list in which nothing is at two places, and everything at one, has one element at most. -/
theorem eq_singleton_of_nodup {A : List (Address × State)} (hNodup : (A.map Prod.fst).Nodup)
    (hAll : ∀ p ∈ A, p.1 = next) {p : Address × State} (hp : p ∈ A) : A = [p] := by
  cases A with
  | nil => cases hp
  | cons q A =>
      cases A with
      | nil => rw [List.mem_singleton.mp hp]
      | cons q' A =>
          have hFirst := hAll q (.head _)
          have hSecond := hAll q' (.tail _ (.head _))
          simp [hFirst, hSecond] at hNodup

/-- What an instruction with a constant has done: it has assigned that and gone on. -/
theorem step_of_constant (h : g.Recording c maxVisits entry s log t) (hDone : g.status = .completed)
    (hn : g.node? k = some n) (hr : log[k]? = some r) (hi : c.method.code.at? n.address = some i)
    (hNext : c.next n.address = .ok next) (hApart : ∀ k ∈ c.method.handlersAt n.address, k.target ≠ next)
    (hComputes : computes i = true) {dst : Register} (hDst : i.writes? = some dst) {l : Literal}
    (hConstant : constant? g n.address next dst = some l) :
    ∃ v, v.literal? = some l ∧ (v.text?.isSome = true → g.heap.isInterned v = true) ∧
      v.isKnown = true ∧ n.pre.resting.assign dst v = .ok r.step.post ∧
        r.step.successors = [(next, r.step.post)] ∧ r.after = r.before := by
  obtain ⟨hWent, v, hAgreed, hLiteral, hText⟩ := constant?_cases hConstant
  have hMem : n ∈ g.pileNodes n.address := h.piled.mem_pileNodes.mpr ⟨k, hn, rfl⟩
  obtain ⟨hSome, hAll⟩ := successors_of_wentOn h hDone hn hr (hWent n hMem)
  obtain ⟨hPeek, hKnown⟩ := h.piled.peek?_of_consensus? hAgreed hn rfl
  obtain ⟨r', hr', hRecords⟩ := h.records k n hn
  obtain rfl := Option.some.inj (hr'.symm.trans hr)
  rw [hRecords.post] at hPeek
  obtain ⟨i', o, hi', hDoes, hSuccessors, hPost⟩ := Context.exists_outcome hRecords.applied
  obtain rfl := Option.some.inj (hi'.symm.trans hi)
  obtain ⟨hSame, hComputed⟩ := Context.execute_computes hComputes hDst hDoes
  refine ⟨v, hLiteral, hText, hKnown, ?_⟩
  rcases hComputed with ⟨x, hRaise⟩ | ⟨hFlow, w, hAssign⟩
  · -- an exception leads to handlers only, none of which is at the next instruction
    obtain ⟨p, hp⟩ := List.exists_mem_of_ne_nil _ hSome
    obtain ⟨k, hk, hPlace⟩ := Context.exists_handler_of_raise hRaise hSuccessors hp
    exact absurd (hPlace.symm.trans (hAll p hp)) (hApart k hk)
  · have hWritten := State.peek?_assign hAssign dst
    rw [← hPost, hPeek, if_pos rfl] at hWritten
    obtain rfl := Option.some.inj hWritten
    rw [hPost]
    refine ⟨hAssign, ?_, hSame⟩
    exact eq_singleton_of_nodup (Context.nodup_apply hRecords.applied) hAll
      (Context.mem_successors_of_next hFlow hNext hSuccessors)

end

end Constants

end Dalvik
