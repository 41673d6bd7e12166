import Dalvik.Proofs.Optimization
import Dalvik.Proofs.UpkeptRuns

/-!
Executions that stay within their lists. What is checked of a method before it is executed leaves open two
ways to ask for an item that is not there: an array may have fewer elements than its length says, and a call
may pass fewer arguments than a framework method looks at. Where neither is so to begin with, neither ever
comes about.
-/

namespace Dalvik

namespace Value

mutual

/-- Whether every array in a value, at every depth, has as many elements as its length says, unless its
elements are not tracked. -/
def isMeasured : Value → Bool
  | boxed _ _ v => isMeasured v
  | array _ _ _ none => true
  | array _ _ n (some vs) => n = some vs.length && allMeasured vs
  | _ => true

/-- Whether this is so of every value in a list. -/
def allMeasured : List Value → Bool
  | [] => true
  | v :: vs => isMeasured v && allMeasured vs

end

variable {v : Value} {vs : List Value}

theorem allMeasured_iff : allMeasured vs = true ↔ ∀ v ∈ vs, v.isMeasured = true := by
  induction vs with
  | nil => simp [allMeasured]
  | cons v vs ih => simp [allMeasured, ih]

theorem isMeasured_of_ids (h : v.ids = []) : v.isMeasured = true := by
  cases v with
  | array id d n es => cases es <;> simp [ids] at h
  | boxed id d v => simp [ids] at h
  | _ => rfl

theorem isMeasured_array_iff {id : Nat} {d : Descriptor} {n : Option Nat} :
    (array id d n (some vs)).isMeasured = true ↔ n = some vs.length ∧ ∀ v ∈ vs, v.isMeasured = true := by
  simp [isMeasured, allMeasured_iff]

end Value

/-- Operations that are no shifts have a result, but for a division by zero. -/
theorem int64Op?_eq_none {op : BinaryOp} {a b : Int64} (hShift : op.isShift = false)
    (h : int64Op? op a b = none) : op.isDivision = true ∧ b = 0 := by
  cases op with
  | div | rem => exact ⟨rfl, by simpa [int64Op?] using h⟩
  | shl | shr | ushr => cases hShift
  | _ => cases h

theorem int64Shift?_ne_none {op : BinaryOp} (hShift : op.isShift = true) (a : Int64) (b : Int32) :
    int64Shift? op a b ≠ none := by
  cases op <;> first | exact Option.some_ne_none _ | cases hShift

theorem Value.binary?_long (op : BinaryOp) (a : Int64) (v : Value) :
    binary? op .long (long a) v =
      (if op.isShift then v.int32?.bind (int64Shift? op a) else v.int64?.bind (int64Op? op a)).map long := by
  cases hShift : op.isShift <;> simp only [binary?, hShift, Option.map_eq_bind] <;> rfl

/-- Arithmetic on a known `long` value has a result, unless the other operand is not one that the operation
takes or is a zero to divide by. In particular, every operation either is a shift or has a case of its own. -/
theorem Value.binary?_long_eq_none {op : BinaryOp} {a : Int64} {v : Value}
    (h : binary? op .long (long a) v = none) :
    (if op.isShift then v.int32? = none else v.int64? = none) ∨
      op.isDivision = true ∧ v.isZero? = some true := by
  rw [binary?_long, Option.map_eq_none_iff] at h
  cases hShift : op.isShift with
  | true =>
      rw [if_pos hShift, Option.bind_eq_none_iff] at h
      cases hb : v.int32? with
      | none => exact .inl rfl
      | some b => exact absurd (h b hb) (int64Shift?_ne_none hShift a b)
  | false =>
      rw [if_neg (by simp [hShift]), Option.bind_eq_none_iff] at h
      cases hb : v.int64? with
      | none => exact .inl rfl
      | some b =>
          obtain ⟨hDivision, rfl⟩ := int64Op?_eq_none hShift (h b hb)
          obtain rfl : v = long 0 := by cases v <;> simp [int64?] at hb; rw [hb]
          exact .inr ⟨hDivision, rfl⟩

/-- Integers of both widths are ordered. -/
theorem Number.compare?_eq_none {a b : Number} (h : a.compare? b = none) :
    (∃ x, a = .float x ∨ b = .float x) ∨ ∃ x, a = .double x ∨ b = .double x := by
  cases a with
  | float x => exact .inl ⟨x, .inl rfl⟩
  | double x => exact .inr ⟨x, .inl rfl⟩
  | int x => cases b <;> first | exact .inl ⟨_, .inr rfl⟩ | exact .inr ⟨_, .inr rfl⟩ | cases h
  | long x => cases b <;> first | exact .inl ⟨_, .inr rfl⟩ | exact .inr ⟨_, .inr rfl⟩ | cases h

namespace Discipline

/-- Arrays have as many elements as they say. No world is needed for that. -/
def measured : Discipline Unit where
  Extends _ _ := True
  Holds _ v := v.isMeasured = true
  Fits _ _ := True
  refl _ := trivial
  trans _ _ := trivial
  extend _ hv := hv
  grow _ _ := trivial
  plain := Value.isMeasured_of_ids
  element hArray hv := (Value.isMeasured_array_iff.mp hArray).2 _ hv
  make {_ _ v} _ hMakes := by
    refine ⟨(), trivial, trivial, ?_⟩
    cases hMakes with
    | tracked d vs hvs =>
        exact Value.isMeasured_array_iff.mpr ⟨rfl, fun v hv => Value.isMeasured_of_ids (hvs v hv)⟩
    | _ => rfl
  intern _ _ := ⟨(), trivial, trivial, rfl⟩

theorem measured_measures : measured.Measures :=
  fun _ _ _ _ _ h => (Value.isMeasured_array_iff.mp h).1

theorem measured_rewrites : measured.Rewrites := by
  intro w id d n es es' hArray hNew
  cases es' with
  | none => rfl
  | some vs =>
      obtain ⟨hvs, hLength⟩ := hNew vs rfl
      refine Value.isMeasured_array_iff.mpr ⟨?_, hvs⟩
      rcases hLength with hSame | ⟨old, rfl, hSame⟩
      · exact hSame
      · rw [← hSame]
        exact (Value.isMeasured_array_iff.mp hArray).1

end Discipline

theorem Classes.mem_of_method? {cs : Classes} {r : MethodReference} {callee : Method}
    (h : cs.method? r = some callee) : ∃ c ∈ cs.locals, callee ∈ c.methods := by
  obtain ⟨hFound, _⟩ := Option.filter_eq_some_iff.mp h
  obtain ⟨c, hc, hMethod⟩ := Option.bind_eq_some_iff.mp hFound
  exact ⟨c, List.mem_of_find?_eq_some hc, List.mem_of_find?_eq_some hMethod⟩

namespace Machine

variable {m : Machine}

/-- All calls of framework methods in the local methods of a machine are complete. -/
def PassesAll (m : Machine) : Prop :=
  ∀ r callee, m.classes.method? r = some callee → ∀ i ∈ callee.code, i.passesAll = true

/-- A run of a method in which all arrays are measured and all calls are complete does not ask for what is
beyond the end of a list, and neither do the calls that it makes. -/
theorem run_inside (hLocals : m.PassesAll) (depth : Nat) {method : Method}
    (hPasses : ∀ i ∈ method.code, i.passesAll = true) {entry : State}
    (hMeasured : entry.All fun v => v.isMeasured = true) (s : Supply) :
    (m.run depth method entry s).1 ≠ .error .outOfBounds := by
  have hEnds : Discipline.measured.Upholds True () (m.run depth method entry) s
      fun _ g => g.All fun v => v.isMeasured = true :=
    run_upholds Discipline.measured_rewrites (fun _ => Discipline.measured_measures) (fun _ => hLocals) depth
      (fun _ => hPasses) trivial hMeasured
  unfold Discipline.Upholds Run.Ends at hEnds
  split at hEnds
  · rename_i hRun
    rw [hRun]
    simp
  · rename_i e t hRun
    rw [hRun]
    simpa using hEnds trivial

theorem callAt_inside (hLocals : m.PassesAll) (depth : Nat) {r : MethodReference} {callee : Method}
    (hCallee : m.classes.method? r = some callee) {values : List Value}
    (hMeasured : ∀ v ∈ values, v.isMeasured = true) (s : Supply) :
    ∃ effect t, m.callAt depth callee values s = (.ok effect, t) := by
  have hKeeps : CallsKeep (m.callAt depth) Discipline.measured True m.classes :=
    callAt_keeps Discipline.measured_rewrites (fun _ => Discipline.measured_measures) (fun _ => hLocals) depth
  have hEnds := hKeeps r callee hCallee () values s trivial hMeasured
  have hLapse := callsLapse_context m callee depth callee values s
  change Run.Ends (m.callAt depth callee values) s (fun _ _ => True) (fun e _ => e = .outOfBounds) at hLapse
  unfold Discipline.Upholds at hEnds
  unfold Run.Ends at hEnds hLapse
  split at hEnds
  · rename_i effect t hRun
    exact ⟨effect, t, hRun⟩
  · rename_i e t hRun
    rw [hRun] at hLapse
    exact absurd hLapse (hEnds trivial)

theorem execute_of_empty {method : Method} (hValid : method.validate = .ok ()) (hEmpty : method.code = [])
    (entry : State) :
    m.execute method entry = .ok { Graph.start method entry with heap := .after entry } := by
  have hStart : m.explore (m.context method 0).call method entry ⟨.after entry, m.limits.maxNodes⟩ =
      (.ok (.start method entry), ⟨.after entry, m.limits.maxNodes⟩) := by
    unfold explore
    rw [if_pos (by simp [hEmpty])]
    rfl
  refine execute_eq_ok_iff.mpr ⟨hValid, _, _, hStart, ?_⟩
  rfl

/-- What is checked of a method is enough for its execution. A valid method that control does not leave at its
end, entered with its registers and with arrays that have as many elements as they say, has a graph if calls
of framework methods pass all arguments, in the method and in the local ones; so have all nested calls. Nor
does arithmetic or a comparison ever meet operands that it has no case for. -/
theorem execute_ok_of_valid (hLocals : m.PassesAll) {method : Method} (hValid : method.validate = .ok ())
    (hClosed : ∀ i, method.code.getLast? = some i → i.fallsThrough = false)
    (hPasses : ∀ i ∈ method.code, i.passesAll = true) {entry : State} (hFits : entry.Fits method)
    (hMeasured : entry.All fun v => v.isMeasured = true) :
    (∃ g, m.execute method entry = .ok g) ∧
      (∀ depth r callee values s, m.classes.method? r = some callee →
        (∀ v ∈ values, v.isMeasured = true) →
        ∃ effect t, m.callAt depth callee values s = (.ok effect, t)) ∧
      (∀ op a v, Value.binary? op .long (.long a) v = none →
        (if op.isShift then v.int32? = none else v.int64? = none) ∨
          op.isDivision = true ∧ v.isZero? = some true) ∧
      ∀ a b : Number, a.compare? b = none →
        (∃ x, a = .float x ∨ b = .float x) ∨ ∃ x, a = .double x ∨ b = .double x := by
  refine ⟨?_, fun depth r callee values s hCallee hValues => callAt_inside hLocals depth hCallee hValues s,
    fun op a v => Value.binary?_long_eq_none, fun a b => Number.compare?_eq_none⟩
  cases hRun : m.execute method entry with
  | ok g => exact ⟨g, rfl⟩
  | error e =>
      exfalso
      -- a method without instructions is not run at all
      by_cases hEmpty : method.code = []
      · rw [execute_of_empty hValid hEmpty] at hRun
        cases hRun
      · obtain ⟨i, hLast⟩ := List.getLast?_isSome.mpr hEmpty |> Option.isSome_iff_exists.mp
        have hCause := (Optimization.execute_of_closed hValid ⟨i, hLast, hClosed i hLast⟩ hRun).2 hFits
        have hInside := run_inside hLocals m.limits.maxDepth hPasses hMeasured
          ⟨.after entry, m.limits.maxNodes⟩
        unfold execute at hRun
        rw [hValid] at hRun
        dsimp only at hRun
        split at hRun
        · rename_i cause t hResult
          obtain rfl := Except.error.inj hRun
          obtain rfl : cause = .outOfBounds := hCause
          rw [hResult] at hInside
          exact hInside rfl
        · cases hRun

/-- A local method that reads an element of an array. -/
def fetchingMethod : Method where
  reference := ⟨⟨"La;"⟩, "at", [.arrayOf .int], .int⟩
  flags := { static := true }
  locals := 1
  code := [.const 0 (.int 1), .arrayGet 0 1 0, .returnValue 0]
  tries := []

/-- A method that takes an array out of another one, writes to it and passes it on. -/
def unwrappingMethod : Method where
  reference := ⟨⟨"La;"⟩, "run", [.arrayOf (.arrayOf .int)], .integerBox⟩
  flags := { static := true }
  locals := 2
  code :=
    [.const 0 (.int 0), .arrayGet 1 2 0, .arrayPut 0 1 0, .invoke .static fetchingMethod.reference [1],
      .moveResult 0, .invoke .static FrameworkMethod.integerOfInt.reference [0], .moveResult 0, .returnValue 0]
  tries := []

/-- An entry with an array of one array. -/
def unwrappingEntry : State :=
  { State.blank 2 1 with
    params := [some (.array 0 (.arrayOf (.arrayOf .int)) (some 1)
      (some [.array 1 (.arrayOf .int) (some 2) (some [.int 5, .int 6])]))] }

/-- A machine with the method that is called. -/
def unwrappingMachine : Machine := ⟨⟨[⟨⟨"La;"⟩, [fetchingMethod]⟩]⟩, ⟨20, 5, 2⟩⟩

theorem execute_ok_of_valid_unwrappingMethod :
    (∃ g, unwrappingMachine.execute unwrappingMethod unwrappingEntry = .ok g) ∧
      (∀ depth r callee values s, unwrappingMachine.classes.method? r = some callee →
        (∀ v ∈ values, v.isMeasured = true) →
        ∃ effect t, unwrappingMachine.callAt depth callee values s = (.ok effect, t)) ∧
      (∀ op a v, Value.binary? op .long (.long a) v = none →
        (if op.isShift then v.int32? = none else v.int64? = none) ∨
          op.isDivision = true ∧ v.isZero? = some true) ∧
      ∀ a b : Number, a.compare? b = none →
        (∃ x, a = .float x ∨ b = .float x) ∨ ∃ x, a = .double x ∨ b = .double x := by
  have hLocals : unwrappingMachine.PassesAll := by
    intro r callee hCallee
    obtain ⟨c, hc, hMethod⟩ := Classes.mem_of_method? hCallee
    obtain rfl := List.mem_singleton.mp hc
    obtain rfl := List.mem_singleton.mp hMethod
    decide
  have hClosed : ∀ i, unwrappingMethod.code.getLast? = some i → i.fallsThrough = false := by
    intro i hi
    obtain rfl := Option.some.inj hi
    rfl
  have hMeasured : unwrappingEntry.All fun v => v.isMeasured = true := by
    refine ⟨fun v hv => ?_, fun v hv => (nomatch hv), fun v hv => (nomatch hv)⟩
    obtain rfl : v = .array 0 (.arrayOf (.arrayOf .int)) (some 1)
        (some [.array 1 (.arrayOf .int) (some 2) (some [.int 5, .int 6])]) := by
      simpa [State.registers, unwrappingEntry, State.blank] using hv
    decide
  exact execute_ok_of_valid hLocals (by decide) hClosed (by decide) ⟨rfl, rfl⟩ hMeasured

end Machine

end Dalvik
