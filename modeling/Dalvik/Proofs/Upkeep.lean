import Dalvik.Proofs.ArrayCovering
import Dalvik.Proofs.Recording

/-!
What a run keeps up of the values that it holds. What is asked of a value may hang on a world that grows
along with the heap. If it holds of the elements of an array whenever it does of the array, and of every new
instance in some larger world, then it holds of all that a run ever holds.
-/

namespace Dalvik

/-- A value that is a new instance: it has the identity that a heap hands out next, and no other is in
it. -/
inductive Heap.Makes (h : Heap) : Value → Prop
  | string (text : String) : h.Makes (.string h.next text)
  | boxed (d : Descriptor) (n : Int32) : h.Makes (.boxed h.next d (.int n))
  | method (m : MethodReference) : h.Makes (.method h.next .reflectedMethod m)
  | untracked (d : Descriptor) (n : Option Nat) : h.Makes (.array h.next d n none)
  | tracked (d : Descriptor) (vs : List Value) : (∀ v ∈ vs, v.ids = []) →
      h.Makes (.array h.next d (some vs.length) (some vs))

/-- What is asked of the values that a run holds, in worlds that only grow and have to fit the heap. -/
structure Discipline (ω : Type) where
  Extends : ω → ω → Prop
  Holds : ω → Value → Prop
  Fits : ω → Heap → Prop
  refl : ∀ w, Extends w w
  trans : ∀ {w w' w''}, Extends w w' → Extends w' w'' → Extends w w''
  extend : ∀ {w w' v}, Extends w w' → Holds w v → Holds w' v
  grow : ∀ {w h k}, Fits w h → h.Grows k → Fits w k
  /-- Nothing is asked of values without instances. -/
  plain : ∀ {w v}, v.ids = [] → Holds w v
  element : ∀ {w id d n vs v}, Holds w (.array id d n (some vs)) → v ∈ vs → Holds w v
  make : ∀ {w h v}, Fits w h → h.Makes v → ∃ w', Extends w w' ∧ Fits w' h.alloc.2 ∧ Holds w' v
  intern : ∀ {w h} (text : String), Fits w h →
    ∃ w', Extends w w' ∧ Fits w' (h.internId text).2 ∧ Holds w' (.string (h.internId text).1 text)

/-- Something holds of all values in a state. -/
structure State.All (s : State) (P : Value → Prop) : Prop where
  registers : ∀ v, some v ∈ s.registers → P v
  result : ∀ v, s.result = some v → P v
  exception : ∀ v, s.exception = some v → P v

namespace State

variable {s t : State} {P P' : Value → Prop}

theorem All.imp (h : s.All P) (hImp : ∀ v, P v → P' v) : s.All P' :=
  ⟨fun v hv => hImp v (h.registers v hv), fun v hv => hImp v (h.result v hv),
    fun v hv => hImp v (h.exception v hv)⟩

/-- A state with the registers of another one, and nothing that passes to the next instruction but what
the condition holds of. -/
theorem All.pass (h : s.All P) {result exception : Option Value} (hResult : ∀ v, result = some v → P v)
    (hException : ∀ v, exception = some v → P v) : ({ s with result, exception } : State).All P :=
  ⟨h.registers, hResult, hException⟩

theorem All.rest (h : s.All P) : ({ s with result := none, exception := none } : State).All P :=
  h.pass (by simp) (by simp)

theorem All.withResult (h : s.All P) {v : Value} (hv : P v) : ({ s with result := some v } : State).All P :=
  ⟨h.registers, fun _ hu => Option.some.inj hu ▸ hv, h.exception⟩

theorem All.read (h : s.All P) (hUnknown : P (.unknown .object)) {r : Register} {v : Value}
    (hRead : s.read r = .ok v) : P v := by
  unfold State.read at hRead
  cases hRegister : s.registers[r]? with
  | none =>
      rw [hRegister] at hRead
      cases hRead
  | some x =>
      rw [hRegister] at hRead
      obtain rfl := Except.ok.inj hRead
      cases x with
      | none => exact hUnknown
      | some v => exact h.registers v (List.mem_of_getElem? hRegister)

theorem All.assign (h : s.All P) {r : Register} {v : Value} (hv : P v) (hAssign : s.assign r v = .ok t) :
    t.All P := by
  obtain ⟨hRegisters, hResult, hException⟩ := registers_assign hAssign
  refine ⟨fun u hu => ?_, fun u hu => h.result u (hResult ▸ hu), fun u hu => h.exception u (hException ▸ hu)⟩
  rw [hRegisters] at hu
  rcases List.mem_or_eq_of_mem_set hu with hOld | hNew
  · exact h.registers u hOld
  · exact Option.some.inj hNew ▸ hv

theorem All.replaceInstance {id : Nat} {new old : Value} (hNew : P new) (hOld : P old) :
    P (State.replaceInstance id new old) := by
  unfold State.replaceInstance
  split
  · exact hNew
  · exact hOld

theorem All.updateInstance (h : s.All P) (id : Nat) {v : Value} (hv : P v) :
    (s.updateInstance id v).All P := by
  refine ⟨fun u hu => ?_, fun u hu => ?_, h.exception⟩
  · rw [registers_updateInstance] at hu
    obtain ⟨x, hx, hSome⟩ := List.mem_map.mp hu
    obtain ⟨old, rfl, rfl⟩ := Option.map_eq_some_iff.mp hSome
    exact All.replaceInstance hv (h.registers old hx)
  · obtain ⟨old, hOld, rfl⟩ := Option.map_eq_some_iff.mp hu
    exact All.replaceInstance hv (h.result old hOld)

theorem All.clobber (h : s.All P) (hUnknown : ∀ d, P (.unknown d)) (v : Value) :
    (Semantics.clobber s v).All P := by
  unfold Semantics.clobber
  split
  · split
    · exact h.updateInstance _ (hUnknown _)
    · exact h
  · exact h

theorem All.foldl_clobber (h : s.All P) (hUnknown : ∀ d, P (.unknown d)) (vs : List Value) :
    (vs.foldl Semantics.clobber s).All P := by
  induction vs generalizing s with
  | nil => exact h
  | cons v vs ih => exact ih (h.clobber hUnknown v)

end State

/-- Something holds of all values in what an instruction does. -/
structure Outcome.All (o : Outcome) (P : Value → Prop) : Prop where
  post : o.post.All P
  raised : ∀ v, o.flow = .raise v → P v
  hazard : ∀ v, o.hazard = some v → P v

/-- Something holds of all values in the state after a step, and in every state that it leads to. -/
structure Step.All (step : Step) (P : Value → Prop) : Prop where
  post : step.post.All P
  successors : ∀ p ∈ step.successors, p.2.All P

/-- Something holds of what a call returns. -/
def Effect.All (e : Effect) (P : Value → Prop) : Prop := ∀ v, e = .returns v → P v

/-- An error of a run in which lists are long enough does not come from their ends. -/
def Inside (enough : Prop) (e : Error) : Prop := enough → e ≠ .outOfBounds

theorem inside_register (enough : Prop) (r : Register) (count : Nat) : Inside enough (.register r count) :=
  fun _ => Error.noConfusion

theorem inside_address (enough : Prop) (a : Address) : Inside enough (.address a) :=
  fun _ => Error.noConfusion

namespace Value

theorem ids_of_isAtom {v : Value} (h : v.isAtom = true) : v.ids = [] := by
  cases v <;> first | rfl | cases h

theorem ids_zero (d : Descriptor) : (zero d).ids = [] := by
  rcases zero_cases d with h | h
  · exact ids_of_isAtom h
  · rw [h]
    rfl

end Value

namespace FrameworkMethod

/-- The number of arguments of a call that passes all of them. -/
def arity (f : FrameworkMethod) : Nat := f.reference.params.length + if f.isStatic then 0 else 1

theorem argument_of_lt {args : List Value} {index bound : Nat} (hIndex : index < bound) {Q : Value → Prop}
    (h : ∀ v ∈ args, Q v) : Ends (argument args index) Q fun e => e = .outOfBounds ∧ args.length < bound := by
  unfold argument
  split
  · rename_i v hv
    exact h v (List.mem_of_getElem? hv)
  · rename_i hNone
    exact ⟨rfl, Nat.lt_of_le_of_lt (List.getElem?_eq_none_iff.mp hNone) hIndex⟩

/-- What a call does on a heap: it returns an argument or something without instances, and leaves the heap
as it is, or it returns a new instance. -/
inductive Gives (h : Heap) (args : List Value) : Effect × Heap → Prop
  | keeps (e : Effect) : (e.All fun v => v ∈ args ∨ v.ids = []) → Gives h args (e, h)
  | makes (v : Value) : h.Makes v → Gives h args (.returns v, h.alloc.2)

variable {h : Heap} {args : List Value}

theorem gives_other {e : Effect} (he : ∀ v, e ≠ .returns v) : Gives h args (e, h) :=
  .keeps e fun v hv => absurd hv (he v)

theorem gives_plain {v : Value} (hv : v.ids = []) : Gives h args (.returns v, h) :=
  .keeps _ fun u hu => .inr (by cases hu; exact hv)

theorem gives_unknown : Gives h args (.unknown, h) := gives_other (by simp)

theorem gives_throws (d : Descriptor) : Gives h args (.throws d, h) := gives_other (by simp)

theorem findClass_gives (cs : Classes) (name : Value) {E : Error → Prop} :
    Ends (findClass cs h name) (Gives h args) E := by
  unfold findClass keeping
  split
  · exact gives_throws _
  · rw [ends_ok]
    split
    · exact gives_plain rfl
    · exact gives_unknown
  · exact gives_unknown

theorem readInteger_gives (v : Value) {E : Error → Prop} : Ends (readInteger h v) (Gives h args) E := by
  unfold readInteger keeping
  split
  · exact gives_throws _
  · split
    · exact gives_plain rfl
    · exact gives_throws _
  · exact gives_unknown

theorem findMethod_gives (cs : Classes) :
    Ends (findMethod cs h args) (Gives h args) fun e => e = .outOfBounds ∧ args.length < 3 := by
  unfold findMethod
  rw [ends_bind]
  refine argument_of_lt (by decide) fun definer _ => ?_
  rw [ends_bind]
  refine argument_of_lt (by decide) fun name _ => ?_
  split
  · rw [ends_bind]
    refine argument_of_lt (by decide) fun params _ => ?_
    split
    · exact .makes _ (.method _)
    · exact gives_unknown
  · exact gives_unknown

theorem compareString_gives :
    Ends (compareString h args) (Gives h args) fun e => e = .outOfBounds ∧ args.length < 2 := by
  unfold compareString
  rw [ends_bind]
  refine argument_of_lt (by decide) fun receiver _ => ?_
  split
  · rw [ends_bind]
    refine argument_of_lt (by decide) fun other _ => ?_
    split
    · exact gives_unknown
    · exact gives_unknown
    · exact gives_plain rfl
  · exact gives_unknown

/-- A call asks only for arguments that a complete call passes. -/
theorem call_gives (f : FrameworkMethod) (cs : Classes) :
    Ends (f.call cs h args) (Gives h args) fun e => e = .outOfBounds ∧ args.length < f.arity := by
  cases f with
  | classForName => exact ends_bind.mpr (argument_of_lt (by decide) fun v _ => findClass_gives cs v)
  | classMethod => exact findMethod_gives cs
  | classDeclaredMethod => exact findMethod_gives cs
  | stringEquals => exact compareString_gives
  | stringToString =>
      refine ends_bind.mpr (argument_of_lt (by decide) fun v hv => ?_)
      unfold keeping
      rw [ends_ok]
      split
      · exact .keeps _ fun u hu => .inl (by cases hu; exact hv)
      · exact gives_unknown
  | integerOfString => exact ends_bind.mpr (argument_of_lt (by decide) fun v _ => readInteger_gives v)
  | stringLength | integerToInt =>
      refine ends_bind.mpr (argument_of_lt (by decide) fun v _ => ?_)
      split
      · exact gives_plain rfl
      · exact gives_unknown
  | className | stringOfInt =>
      refine ends_bind.mpr (argument_of_lt (by decide) fun v _ => ?_)
      split
      · exact .makes _ (.string _)
      · exact gives_unknown
  | integerOfInt =>
      refine ends_bind.mpr (argument_of_lt (by decide) fun v _ => ?_)
      split
      · exact .makes _ (.boxed _ _)
      · exact gives_unknown
  | stringOfBytes | stringOfChars =>
      refine ends_bind.mpr (argument_of_lt (by decide) fun v _ => ?_)
      split
      · exact .makes _ (.string _)
      · exact gives_unknown
  | stringOfString =>
      refine ends_bind.mpr (argument_of_lt (by decide) fun v _ => ?_)
      split
      · exact gives_throws _
      · exact .makes _ (.string _)
      · exact gives_unknown

end FrameworkMethod

namespace Discipline

variable {ω : Type} {D : Discipline ω} {w w' : ω} {h : Heap} {v : Value}

theorem holds_of_isAtom (hv : v.isAtom = true) : D.Holds w v := D.plain (Value.ids_of_isAtom hv)

theorem holds_unknown (d : Descriptor) : D.Holds w (.unknown d) := D.plain rfl

theorem holds_coerce (hv : D.Holds w v) (d : Descriptor) : D.Holds w (v.coerce d) := by
  rcases Value.coerce_cases v d with hSame | hSame | hAtom | hSame
  · rwa [hSame]
  · rw [hSame]
    exact holds_unknown d
  · exact holds_of_isAtom hAtom
  · rw [hSame]
    exact D.plain rfl

theorem literal (hFits : D.Fits w h) (l : Literal) :
    ∃ w', D.Extends w w' ∧ D.Fits w' (h.literal l).2 ∧ D.Holds w' (h.literal l).1 := by
  cases l with
  | string text => exact D.intern text hFits
  | _ => exact ⟨w, D.refl w, hFits, D.plain rfl⟩

theorem literals (hFits : D.Fits w h) (ls : List Literal) :
    ∃ w', D.Extends w w' ∧ D.Fits w' (h.literals ls).2 ∧ ∀ v ∈ (h.literals ls).1, D.Holds w' v := by
  induction ls generalizing w h with
  | nil => exact ⟨w, D.refl w, hFits, by simp [Heap.literals]⟩
  | cons l ls ih =>
      obtain ⟨w₁, hFirst, hFits₁, hv⟩ := literal hFits l
      obtain ⟨w₂, hRest, hFits₂, hvs⟩ := ih hFits₁
      exact ⟨w₂, D.trans hFirst hRest, hFits₂, List.forall_mem_cons.mpr ⟨D.extend hRest hv, hvs⟩⟩

/-- Arrays may be given other elements of which the same holds, as many as they have. -/
def Rewrites (D : Discipline ω) : Prop :=
  ∀ w id d n es es', D.Holds w (.array id d n es) →
    (∀ vs, es' = some vs → (∀ v ∈ vs, D.Holds w v) ∧
      (n = some vs.length ∨ ∃ old, es = some old ∧ old.length = vs.length)) →
    D.Holds w (.array id d n es')

/-- Arrays have as many elements as their length says. -/
def Measures (D : Discipline ω) : Prop :=
  ∀ w id d n vs, D.Holds w (.array id d n (some vs)) → n = some vs.length

end Discipline

namespace Semantics

variable {ω : Type} {D : Discipline ω} {w : ω} {enough : Prop} {pre post : State}

section

variable {P : Value → Prop}

theorem all_raise (hPost : post.All P) (hUnknown : ∀ d, P (.unknown d)) (d : Descriptor) :
    (Outcome.raise post d).All P :=
  ⟨hPost, fun v hv => (by cases hv; exact hUnknown d), fun v hv => (by cases hv)⟩

theorem all_nextOr (hPost : post.All P) {hazard : Option Value} (hHazard : ∀ v, hazard = some v → P v) :
    (Outcome.nextOr post hazard).All P :=
  ⟨hPost, fun v hv => (by cases hv), hHazard⟩

theorem all_next (hPost : post.All P) : (Outcome.next post).All P :=
  ⟨hPost, fun v hv => (by cases hv), fun v hv => (by cases hv)⟩

theorem all_jump (hPost : post.All P) (targets : List Address) : (Outcome.jump post targets).All P :=
  ⟨hPost, fun v hv => (by cases hv), fun v hv => (by cases hv)⟩

theorem all_stop (hPost : post.All P) : Outcome.All ⟨.stop, post, none⟩ P :=
  ⟨hPost, fun v hv => (by cases hv), fun v hv => (by cases hv)⟩

end

theorem holds_someException {d : Descriptor} {v : Value} (h : someException d = some v) : D.Holds w v := by
  cases h
  exact Discipline.holds_unknown d

theorem holds_none {v : Value} (h : none = some v) : D.Holds w v := by cases h

theorem inside_map_read {α : Type} {f : Value → α} {Q : α → Prop} {r : Register}
    (h : ∀ v, pre.read r = .ok v → Q (f v)) : Ends ((pre.read r).map f) Q (Inside enough) := by
  unfold State.read at h ⊢
  cases hRegister : pre.registers[r]? with
  | none => exact inside_register _ _ _
  | some x =>
      rw [hRegister] at h
      exact h _ rfl

theorem inside_read (hPre : pre.All (D.Holds w)) {r : Register} {Q : Value → Prop}
    (h : ∀ v, D.Holds w v → Q v) : Ends (pre.read r) Q (Inside enough) := by
  have hRead : Ends ((pre.read r).map id) Q (Inside enough) :=
    inside_map_read fun v hv => h v (hPre.read (Discipline.holds_unknown _) hv)
  rwa [ends_map] at hRead

theorem inside_readInt {r : Register} {Q : Option Int32 → Prop} (h : ∀ n, Q n) :
    Ends (readInt pre r) Q (Inside enough) :=
  inside_map_read fun _ _ => h _

theorem inside_assignRegister (hPost : post.All (D.Holds w)) {v : Value} (hv : D.Holds w v) (r : Register) :
    Ends (post.assign r v) (fun t => t.All (D.Holds w)) (Inside enough) := by
  cases hAssign : post.assign r v with
  | ok t => exact hPost.assign hv hAssign
  | error e =>
      have hEnds := (State.SameShape.refl post).ends_assign r v
      rw [hAssign] at hEnds
      rw [ends_error, hEnds.2]
      exact inside_register _ _ _

theorem inside_assign (hPost : post.All (D.Holds w)) {v : Value} (hv : D.Holds w v) (dst : Register)
    {hazard : Option Value} (hHazard : ∀ v, hazard = some v → D.Holds w v) :
    Ends (Outcome.assign post dst v hazard) (fun o => o.All (D.Holds w)) (Inside enough) := by
  unfold Outcome.assign
  rw [ends_map]
  exact (inside_assignRegister hPost hv dst).imp (fun t ht => all_nextOr ht hHazard) fun _ he => he

/-- An element that is tracked has a place that the length of the array allows for. -/
theorem slot_eq_tracked {i : Option Int32} {n : Option Nat} {es : Option (List Value)} {k : Int32}
    {vs : List Value} (h : slot i n es = .tracked k vs) :
    es = some vs ∧ (n = some vs.length → isOutside k vs.length = false) := by
  unfold slot at h
  split at h
  · cases h
  · split at h
    · cases h
    · rename_i hWithin
      split at h
      · cases h
        refine ⟨rfl, fun hn => ?_⟩
        rw [hn] at hWithin
        simpa using hWithin
      · cases h

theorem inside_position {k : Int32} {vs : List Value} {Q : Nat → Prop}
    (hWithin : enough → isOutside k vs.length = false) (h : ∀ n, Q n) :
    Ends (position k vs) Q (Inside enough) := by
  unfold position
  split
  · rename_i hOutside
    rw [ends_error]
    intro hEnough
    rw [hWithin hEnough] at hOutside
    cases hOutside
  · exact h _

section

variable (hPre : pre.All (D.Holds w)) (hPost : post.All (D.Holds w))

include hPre hPost

theorem returnValue_keeps (src : Register) :
    Ends (returnValue pre post src) (fun o => o.All (D.Holds w)) (Inside enough) := by
  unfold returnValue
  rw [ends_bind]
  exact inside_read hPre fun v _ => all_stop hPost

theorem throwValue_keeps (src : Register) :
    Ends (throwValue pre post src) (fun o => o.All (D.Holds w)) (Inside enough) := by
  unfold throwValue
  rw [ends_bind]
  refine inside_read hPre fun v hv => ?_
  split
  · exact all_raise hPost (fun _ => Discipline.holds_unknown _) _
  · exact ⟨hPost, fun u hu => (by cases hu; exact hv), fun u hu => (by cases hu)⟩

theorem branch_keeps {next : Except Error Address} (hNext : Ends next (fun _ => True) (Inside enough))
    (cmp : Comparison) (lhs : Register) (rhs : Option Register) (target : Address) :
    Ends (branch pre post next cmp lhs rhs target) (fun o => o.All (D.Holds w)) (Inside enough) := by
  rw [branch_eq, ends_bind]
  refine inside_read hPre fun v _ => ?_
  rw [ends_bind]
  have hRest (u : Value) : Ends (next >>= fun next => pure (Outcome.jump post (decided target next
      (Value.compare? cmp v u)))) (fun o => o.All (D.Holds w)) (Inside enough) := by
    rw [ends_bind]
    exact hNext.imp (fun next _ => all_jump hPost _) fun _ he => he
  cases rhs with
  | none => exact hRest _
  | some r => exact inside_read hPre fun u _ => hRest u

theorem switch_keeps {next : Except Error Address} (hNext : Ends next (fun _ => True) (Inside enough))
    (src : Register) (cases : List (Int32 × Address)) :
    Ends (switch pre post next src cases) (fun o => o.All (D.Holds w)) (Inside enough) := by
  rw [switch_eq, ends_bind]
  refine hNext.imp (fun next _ => ?_) fun _ he => he
  rw [ends_bind]
  exact inside_read hPre fun v _ => all_jump hPost _

theorem compare_keeps (kind : ThreeWay) (dst lhs rhs : Register) :
    Ends (compare pre post kind dst lhs rhs) (fun o => o.All (D.Holds w)) (Inside enough) := by
  unfold compare
  rw [ends_bind]
  refine inside_read hPre fun v _ => ?_
  rw [ends_bind]
  refine inside_read hPre fun u _ => inside_assign hPost ?_ dst fun _ => holds_none
  cases Value.threeWay? kind.bias (v.coerce kind.operand) (u.coerce kind.operand) with
  | none => exact Discipline.holds_unknown _
  | some r => exact Discipline.holds_of_isAtom rfl

theorem unary_keeps (op : UnaryOp) (dst src : Register) :
    Ends (unary pre post op dst src) (fun o => o.All (D.Holds w)) (Inside enough) := by
  unfold unary
  rw [ends_bind]
  refine inside_read hPre fun v _ => inside_assign hPost ?_ dst fun _ => holds_none
  cases hResult : Value.unary? op (v.coerce op.source) with
  | none => exact Discipline.holds_unknown _
  | some r => exact Discipline.holds_of_isAtom (Value.unary?_isAtom hResult)

theorem binary_keeps (op : BinaryOp) (type : NumberType) (dst lhs : Register) (rhs : Operand) :
    Ends (binary pre post op type dst lhs rhs) (fun o => o.All (D.Holds w)) (Inside enough) := by
  unfold binary
  rw [ends_bind]
  refine inside_read hPre fun v _ => ?_
  rw [ends_bind]
  have hRest (u : Value) (hazard : Option Value) (hHazard : ∀ x, hazard = some x → D.Holds w x) :
      Ends (Outcome.assign post dst
        ((Value.binary? op type (v.coerce type.descriptor) u).getD (.unknown type.descriptor)) hazard)
        (fun o => o.All (D.Holds w)) (Inside enough) := by
    refine inside_assign hPost ?_ dst hHazard
    cases hResult : Value.binary? op type (v.coerce type.descriptor) u with
    | none => exact Discipline.holds_unknown _
    | some r => exact Discipline.holds_of_isAtom (Value.binary?_isAtom hResult)
  have hOperand {Q : Value → Prop} (h : ∀ u, Q u) :
      Ends (readOperand pre op type rhs) Q (Inside enough) := by
    cases rhs with
    | literal n => exact h _
    | register r => exact inside_map_read fun v _ => h _
  refine hOperand fun u => ?_
  split
  · split
    · exact all_raise hPost (fun _ => Discipline.holds_unknown _) _
    · exact hRest u _ fun _ => holds_none
    · exact hRest u _ fun _ => holds_someException
  · exact hRest u _ fun _ => holds_none

theorem checkCast_keeps (reg : Register) (type : Descriptor) :
    Ends (checkCast pre post reg type) (fun o => o.All (D.Holds w)) (Inside enough) := by
  unfold checkCast
  rw [ends_bind]
  refine inside_read hPre fun v _ => ?_
  split
  · exact all_next hPost
  · exact inside_assign hPost (Discipline.holds_unknown _) reg fun _ => holds_someException
  · refine all_nextOr hPost fun u hu => ?_
    split at hu
    · exact holds_none hu
    · exact holds_someException hu

theorem instanceOf_keeps (dst src : Register) (type : Descriptor) :
    Ends (instanceOf pre post dst src type) (fun o => o.All (D.Holds w)) (Inside enough) := by
  unfold instanceOf
  rw [ends_bind]
  refine inside_read hPre fun v _ => inside_assign hPost ?_ dst fun _ => holds_none
  split
  · exact D.plain rfl
  · exact D.plain rfl
  · exact D.plain rfl
  · split <;> exact D.plain rfl

theorem arrayLength_keeps (dst array : Register) :
    Ends (arrayLength pre post dst array) (fun o => o.All (D.Holds w)) (Inside enough) := by
  unfold arrayLength
  rw [ends_bind]
  refine inside_read hPre fun v _ => ?_
  split
  · exact all_raise hPost (fun _ => Discipline.holds_unknown _) _
  · exact inside_assign hPost (D.plain rfl) dst fun _ => holds_none
  · refine inside_assign hPost (Discipline.holds_unknown _) dst fun u hu => ?_
    split at hu
    · exact holds_none hu
    · exact holds_someException hu

theorem arrayGet_keeps (hMeasures : enough → D.Measures) (dst array index : Register) :
    Ends (arrayGet pre post dst array index) (fun o => o.All (D.Holds w)) (Inside enough) := by
  have hUnknown (d e : Descriptor) :
      Ends (Outcome.assign post dst (.unknown d) (someException e)) (fun o => o.All (D.Holds w))
        (Inside enough) :=
    inside_assign hPost (Discipline.holds_unknown d) dst fun _ => holds_someException
  unfold arrayGet
  rw [ends_bind]
  refine inside_readInt fun i => ?_
  rw [ends_bind]
  refine inside_read hPre fun v hv => ?_
  split
  · exact all_raise hPost (fun _ => Discipline.holds_unknown _) _
  · split
    · exact all_raise hPost (fun _ => Discipline.holds_unknown _) _
    · rename_i k vs hSlot
      obtain ⟨rfl, hWithin⟩ := slot_eq_tracked hSlot
      rw [ends_bind]
      refine inside_position (fun hEnough => hWithin (hMeasures hEnough _ _ _ _ _ hv)) fun n => ?_
      refine inside_assign hPost ?_ dst fun _ => holds_none
      cases hElement : vs[n]? with
      | none => exact Discipline.holds_unknown _
      | some u => exact D.element hv (List.mem_of_getElem? hElement)
    · exact hUnknown _ _
  · exact hUnknown _ _

theorem arrayPut_keeps (hMeasures : enough → D.Measures) (hRewrites : D.Rewrites)
    (src array index : Register) :
    Ends (arrayPut pre post src array index) (fun o => o.All (D.Holds w)) (Inside enough) := by
  unfold arrayPut
  rw [ends_bind]
  refine inside_read hPre fun x hx => ?_
  rw [ends_bind]
  refine inside_readInt fun i => ?_
  rw [ends_bind]
  refine inside_read hPre fun v hv => ?_
  split
  · exact all_raise hPost (fun _ => Discipline.holds_unknown _) _
  · split
    · exact all_raise hPost (fun _ => Discipline.holds_unknown _) _
    · rename_i k vs hSlot
      obtain ⟨rfl, hWithin⟩ := slot_eq_tracked hSlot
      rw [ends_bind]
      refine inside_position (fun hEnough => hWithin (hMeasures hEnough _ _ _ _ _ hv)) fun n => ?_
      refine all_next (hPost.updateInstance _ (hRewrites _ _ _ _ _ _ hv ?_))
      rintro _ ⟨⟩
      refine ⟨fun u hu => ?_, .inr ⟨vs, rfl, List.length_set.symm⟩⟩
      rcases List.mem_or_eq_of_mem_set hu with hOld | rfl
      · exact D.element hv hOld
      · exact Discipline.holds_coerce hx _
    · refine all_nextOr (hPost.updateInstance _ (hRewrites _ _ _ _ _ _ hv fun vs hvs => ?_))
        fun _ => holds_someException
      cases hvs
  · exact all_nextOr hPost fun _ => holds_someException

omit hPre hPost in
theorem useObject_keeps (object : Option Register) {Q : Bool × Option Value → Prop}
    (h : ∀ b hazard, (∀ v, hazard = some v → D.Holds w v) → Q (b, hazard)) :
    Ends (useObject pre object) Q (Inside enough) := by
  unfold useObject
  cases object with
  | none => exact h _ _ fun _ => holds_none
  | some r =>
      refine inside_map_read fun v _ => ?_
      split
      · exact h _ _ fun _ => holds_none
      · exact h _ _ fun _ => holds_someException
      · exact h _ _ fun _ => holds_none

omit hPre in
theorem fieldGet_keeps (dst : Register) (object : Option Register) (field : FieldReference) :
    Ends (fieldGet pre post dst object field) (fun o => o.All (D.Holds w)) (Inside enough) := by
  unfold fieldGet
  rw [ends_bind]
  refine useObject_keeps (D := D) (w := w) object fun raises hazard hHazard => ?_
  dsimp only
  split
  · exact all_raise hPost (fun _ => Discipline.holds_unknown _) _
  · exact inside_assign hPost (Discipline.holds_unknown _) dst hHazard

theorem fieldPut_keeps (src : Register) (object : Option Register) :
    Ends (fieldPut pre post src object) (fun o => o.All (D.Holds w)) (Inside enough) := by
  unfold fieldPut
  rw [ends_bind]
  refine inside_read hPre fun x _ => ?_
  rw [ends_bind]
  refine useObject_keeps (D := D) (w := w) object fun raises hazard hHazard => ?_
  dsimp only
  split
  · exact all_raise hPost (fun _ => Discipline.holds_unknown _) _
  · exact all_nextOr hPost hHazard

omit hPre in
theorem opaqueResult_keeps (m : MethodReference) (args : List Register) :
    Ends (opaqueResult post m args) (fun t => t.All (D.Holds w)) (Inside enough) := by
  unfold opaqueResult
  split
  · split
    · exact inside_assignRegister hPost (Discipline.holds_unknown _) _
    · exact hPost
  · split
    · exact hPost
    · exact hPost.withResult (Discipline.holds_unknown _)

omit hPre in
theorem applyEffect_keeps (m : MethodReference) (args : List Register) {e : Effect}
    (he : e.All (D.Holds w)) :
    Ends (applyEffect post m args e) (fun o => o.All (D.Holds w)) (Inside enough) := by
  unfold applyEffect
  cases e with
  | returns v =>
      dsimp only
      split
      · split
        · exact inside_assign hPost (he v rfl) _ fun _ => holds_none
        · exact all_next hPost
      · exact all_next (hPost.withResult (Discipline.holds_coerce (he v rfl) _))
  | void => exact all_next hPost
  | unknown => exact all_next hPost
  | throws type => exact all_raise hPost (fun _ => Discipline.holds_unknown _) _

omit hPost in
theorem mapM_read_keeps (args : List Register) {Q : List Value → Prop}
    (h : ∀ vs, (∀ v ∈ vs, D.Holds w v) → vs.length = args.length → Q vs) :
    Ends (args.mapM pre.read) Q (Inside enough) := by
  induction args generalizing Q with
  | nil => exact h [] (by simp) rfl
  | cons r args ih =>
      rw [List.mapM_cons, ends_bind]
      refine inside_read hPre fun v hv => ?_
      rw [ends_bind]
      exact ih fun vs hvs hLength =>
        h _ (List.forall_mem_cons.mpr ⟨hv, hvs⟩) (congrArg (· + 1) hLength)

end

end Semantics

end Dalvik
