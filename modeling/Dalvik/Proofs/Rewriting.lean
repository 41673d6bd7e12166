import Dalvik.Proofs.Operations

/-!
What an edit at a position does to the rest of a method. Passes carry their plans out from the end of a
method to its start, so that the instructions that are still to be edited are where they were.
-/

namespace Dalvik

namespace Instruction

variable {τ : Type}

theorem fallsThrough_mapRegisters (f : Register → Register) (i : Instruction τ) :
    (i.mapRegisters f).fallsThrough = i.fallsThrough := by
  cases i with
  | binary op type dst lhs rhs => cases rhs <;> rfl
  | _ => rfl

/-- Whether the instruction takes the result of the one before it. -/
def takesResult : Instruction τ → Bool
  | moveResult _ => true
  | _ => false

/-- Whether the instruction takes the exception that a handler was entered with. -/
def takesException : Instruction τ → Bool
  | moveException _ => true
  | _ => false

/-- Whether the instruction is a call. -/
def isCall : Instruction τ → Bool
  | invoke _ _ _ => true
  | _ => false

end Instruction

namespace Code

/-- The addresses of the instructions and the end of the body: control can be sent to these, and ranges
of handlers can begin and end there. -/
def HasPlace (code : Code) (a : Address) : Prop := ∃ n, n ≤ code.length ∧ code.addressAt n = a

theorem HasAddress.hasPlace {code : Code} {a : Address} (h : code.HasAddress a) : code.HasPlace a := by
  obtain ⟨n, hn, rfl⟩ := h
  exact ⟨n, Nat.le_of_lt hn, rfl⟩

end Code

namespace Method

variable {m : Method}

/-- Ranges of handlers begin and end at places of the body. Those of every method that has been read do
(`ClassDefinition.bounded_of_read`). -/
def Bounded (m : Method) : Prop :=
  ∀ b ∈ m.tries, m.code.HasPlace b.start ∧ m.code.HasPlace b.stop

theorem mem_handlersAt {a : Address} {k : Handler} :
    k ∈ m.handlersAt a ↔ ∃ b ∈ m.tries, b.covers a = true ∧ k ∈ b.handlers := by
  simp [handlersAt, List.mem_flatMap, List.mem_filter, and_assoc]


/-- Besides registers and addresses, the results and the exceptions that an instruction takes are there:
a result is taken right after a call, and an exception where control has been sent by nothing else. -/
structure WellFormed (m : Method) : Prop where
  valid : m.validate = .ok ()
  results : ∀ p < m.code.length, (m.code[p]?).any Instruction.takesResult = true →
    0 < p ∧ (m.code[p - 1]?).any Instruction.isCall = true
  targets : ∀ i ∈ m.code, ∀ t ∈ i.targets, (m.code.at? t).any Instruction.takesResult = false
  handlers : ∀ h ∈ m.handlers, (m.code.at? h.target).any Instruction.takesException = true
  jumps : ∀ i ∈ m.code, ∀ t ∈ i.targets, m.isHandler t = false
  falls : ∀ p < m.code.length, (m.code[p]?).any Instruction.fallsThrough = true →
    m.isHandler (m.code.addressAt (p + 1)) = false

instance : Decidable m.WellFormed :=
  decidable_of_iff
    (m.validate = .ok () ∧
      (∀ p < m.code.length, (m.code[p]?).any Instruction.takesResult = true →
        0 < p ∧ (m.code[p - 1]?).any Instruction.isCall = true) ∧
      (∀ i ∈ m.code, ∀ t ∈ i.targets, (m.code.at? t).any Instruction.takesResult = false) ∧
      (∀ h ∈ m.handlers, (m.code.at? h.target).any Instruction.takesException = true) ∧
      (∀ i ∈ m.code, ∀ t ∈ i.targets, m.isHandler t = false) ∧
      ∀ p < m.code.length, (m.code[p]?).any Instruction.fallsThrough = true →
        m.isHandler (m.code.addressAt (p + 1)) = false)
    ⟨fun ⟨hValid, hResults, hTargets, hHandlers, hJumps, hFalls⟩ =>
        ⟨hValid, hResults, hTargets, hHandlers, hJumps, hFalls⟩,
      fun h => ⟨h.valid, h.results, h.targets, h.handlers, h.jumps, h.falls⟩⟩

/-- A well-formed method whose range of handlers begins inside an instruction, the second assignment. A range like that does
not move along when one of the instructions before the quotient goes away, which leaves the quotient outside. -/
def straddlingMethod : Method where
  reference := ⟨⟨"La;"⟩, "straddle", [.int], .int⟩
  flags := { static := true }
  locals := 2
  code := [.goto 3, .const 0 (.int 0), .branch .ne 0 none 13, .const 1 (.int 5), .binary .div .int 0 0 (.register 2),
    .returnValue 0, .moveException 1, .returnValue 0]
  tries := [⟨10, 13, [⟨none, 14⟩]⟩]

/-- Control does not go on to a handler. -/
theorem WellFormed.isHandler_next? (h : m.WellFormed) {a b : Address} {i : Instruction Address}
    (hi : m.code.at? a = some i) (hFalls : i.fallsThrough = true) (hNext : m.code.next? a = some b) :
    m.isHandler b = false := by
  obtain ⟨p, hp, hp'⟩ := Code.at?_eq_some_iff.mp hi
  obtain ⟨q, hq, _, rfl⟩ := Code.next?_eq_some_iff.mp hNext
  obtain rfl := Option.some.inj (hq.symm.trans hp)
  exact h.falls q (List.getElem?_eq_some_iff.mp hp').1 (by rw [hp']; exact hFalls)

/-- What follows an instruction takes a result only if that is a call. -/
theorem WellFormed.takesResult_next? (h : m.WellFormed) {a b : Address} {i j : Instruction Address}
    (hi : m.code.at? a = some i) (hCall : i.isCall = false) (hNext : m.code.next? a = some b)
    (hj : m.code.at? b = some j) : j.takesResult = false := by
  obtain ⟨p, hp, hp'⟩ := Code.at?_eq_some_iff.mp hi
  obtain ⟨q, hq, hLess, rfl⟩ := Code.next?_eq_some_iff.mp hNext
  obtain rfl := Option.some.inj (hq.symm.trans hp)
  obtain ⟨q', hq', hj'⟩ := Code.at?_eq_some_iff.mp hj
  rw [Code.indexOf?_addressAt hLess] at hq'
  obtain rfl := Option.some.inj hq'
  by_contra hTakes
  have hBefore := (h.results (q + 1) hLess (by simpa [hj'] using hTakes)).2
  rw [Nat.add_sub_cancel, hp', Option.any_some, hCall] at hBefore
  cases hBefore

/-- Handlers begin with taking the exception. -/
theorem WellFormed.exists_moveException (h : m.WellFormed) {k : Handler} (hk : k ∈ m.handlers) :
    ∃ dst, m.code.at? k.target = some (.moveException dst) := by
  obtain ⟨i, hi, hTakes⟩ := (Option.any_eq_true ..).mp (h.handlers k hk)
  cases i with
  | moveException dst => exact ⟨dst, hi⟩
  | _ => cases hTakes

/-- The method ends with an instruction behind which control does not go on. -/
def Closed (m : Method) : Prop := ∃ i, m.code.getLast? = some i ∧ i.fallsThrough = false

/-- What falls through is not the last instruction of a closed method. -/
theorem Closed.lt_of_fallsThrough (h : m.Closed) {p : Nat} {i : Instruction Address}
    (hi : m.code[p]? = some i) (hFalls : i.fallsThrough = true) : p + 1 < m.code.length := by
  obtain ⟨last, hLast, hStops⟩ := h
  have hp : p < m.code.length := (List.getElem?_eq_some_iff.mp hi).1
  by_contra hEnd
  rw [List.getLast?_eq_getElem?, show m.code.length - 1 = p by omega, hi] at hLast
  obtain rfl := Option.some.inj hLast
  rw [hFalls] at hStops
  cases hStops

/-- Replacing or removing an instruction that is not the last one leaves the last one at its
place. -/
theorem Closed.splice (h : m.Closed) {p removed : Nat} (hp : p + removed < m.code.length)
    (new : Code) (retarget : Bool) : (m.splice p removed new retarget).1.Closed := by
  obtain ⟨last, hLast, hStops⟩ := h
  refine ⟨last.mapTargets (m.splice p removed new retarget).2.label, ?_, by simpa using hStops⟩
  have hRest : (m.code.drop (p + removed)).getLast? = some last := by
    rw [List.getLast?_drop, if_neg (by omega), hLast]
  rw [splice_code, List.getLast?_map, Code.spliced, List.getLast?_append, hRest]
  rfl

theorem Closed.addLocals (h : m.Closed) (count : Nat) : (m.addLocals count).Closed := by
  obtain ⟨last, hLast, hStops⟩ := h
  refine ⟨last.mapRegisters (shiftRegister m.locals count), ?_, ?_⟩
  · simp [Method.addLocals, hLast]
  · rw [Instruction.fallsThrough_mapRegisters, hStops]

/-- A method has come from another one by edits at a position and after it. `label` says where the
places that are jumped to have moved. -/
structure EditedFrom (m m' : Method) (label : Address → Address) (p : Nat) : Prop where
  length : p ≤ m'.code.length
  address : ∀ q ≤ p, m'.code.addressAt q = m.code.addressAt q
  insn : ∀ q < p, m'.code[q]? = (m.code[q]?).map (Instruction.mapTargets label)
  registers : m'.registerCount = m.registerCount

theorem EditedFrom.refl (m : Method) : m.EditedFrom m id m.code.length where
  length := Nat.le_refl _
  address q _ := rfl
  insn q _ := by
    cases m.code[q]? with
    | none => rfl
    | some i => simp [Instruction.mapTargets_id]
  registers := rfl

theorem EditedFrom.mono {m' : Method} {label : Address → Address} {p q : Nat}
    (h : m.EditedFrom m' label p) (hq : q ≤ p) : m.EditedFrom m' label q where
  length := Nat.le_trans hq h.length
  address r hr := h.address r (Nat.le_trans hr hq)
  insn r hr := h.insn r (Nat.lt_of_lt_of_le hr hq)
  registers := h.registers

theorem EditedFrom.trans {m' m'' : Method} {label label' : Address → Address} {p q : Nat}
    (h : m.EditedFrom m' label p) (h' : m'.EditedFrom m'' label' q) (hq : q ≤ p) :
    m.EditedFrom m'' (label' ∘ label) q where
  length := h'.length
  address r hr := (h'.address r hr).trans (h.address r (Nat.le_trans hr hq))
  insn r hr := by
    rw [h'.insn r hr, h.insn r (Nat.lt_of_lt_of_le hr hq)]
    cases m.code[r]? with
    | none => rfl
    | some i => simp [Instruction.mapTargets_mapTargets]
  registers := h'.registers.trans h.registers

/-- An instruction before all edits is found at its old address. -/
theorem EditedFrom.found {m' : Method} {label : Address → Address} {p q : Nat}
    (h : m.EditedFrom m' label p) (hq : q < p) {i : Instruction Address}
    (hi : m.code[q]? = some i) :
    m.code.addressAt q = m'.code.addressAt q ∧ m'.code[q]? = some (i.mapTargets label) :=
  ⟨(h.address q (Nat.le_of_lt hq)).symm, by rw [h.insn q hq, hi]; rfl⟩

/-- A splice leaves alone what is before it. -/
theorem editedFrom_splice {p removed : Nat} (hp : p + removed ≤ m.code.length) (new : Code)
    (retarget : Bool) :
    m.EditedFrom (m.splice p removed new retarget).1 (m.splice p removed new retarget).2.label p where
  length := by
    rw [splice_length, Code.length_spliced hp]
    omega
  address q hq := by
    have hTake : (m.code.take p).length = p := by simp; omega
    rw [splice_addressAt]
    simp only [Code.addressAt, Code.spliced, List.append_assoc]
    rw [List.take_append_of_le_length (by omega), List.take_take, Nat.min_eq_left hq]
  insn q hq := by
    rw [splice_code, List.getElem?_map,
      Code.spliced_getElem?_survivor hp (Code.survivor?_eq_some_iff.mpr (.inl ⟨hq, rfl⟩))]
  registers := rfl

section Splice

variable {p : Nat} {new : Code} {retarget : Bool}

/-- Control that went to the end of a body goes to the end of the new one. -/
theorem splice_label_stop {removed : Nat} :
    (m.splice p removed new retarget).2.label (m.code.addressAt m.code.length) =
      (m.splice p removed new retarget).1.code.addressAt
        (m.splice p removed new retarget).1.code.length := by
  have hNone : (((List.range m.code.length).map fun i =>
      (m.code.addressAt i, (m.code.spliced p removed new).addressAt
        (Code.landing p removed new.length retarget i))).lookup m.stop) = none := by
    rw [Lookup.lookup_eq_none_iff_not_mem, List.map_map]
    intro hMem
    obtain ⟨i, hi, hSame⟩ := List.mem_map.mp hMem
    have hLess := Code.addressAt_lt (List.mem_range.mp hi) (Nat.le_refl m.code.length)
    rw [Code.addressAt_length] at hLess
    exact Nat.ne_of_lt hLess hSame
  rw [Code.addressAt_length, Relocation.label, splice_relocation_labels, List.lookup_append,
    show m.code.size = m.stop from rfl, hNone, splice_addressAt, splice_length, Code.addressAt_length]
  simp

/-- A splice tells for every place where control goes that went there. -/
theorem splice_lookup {removed : Nat} {a : Address}
    (ha : m.code.HasPlace a) :
    (m.splice p removed new retarget).2.labels.lookup a =
      some ((m.splice p removed new retarget).2.label a) := by
  have hKey : a ∈ (m.splice p removed new retarget).2.labels.map Prod.fst := by
    obtain ⟨n, hn, rfl⟩ := ha
    rw [splice_relocation_labels, List.map_append, List.mem_append]
    rcases Nat.lt_or_eq_of_le hn with hLess | rfl
    · exact .inl (by simpa using ⟨n, hLess, rfl⟩)
    · exact .inr (by simp [stop, Code.addressAt_length])
  unfold Relocation.label
  cases hLookup : (m.splice p removed new retarget).2.labels.lookup a with
  | none => exact absurd hKey (Lookup.lookup_eq_none_iff_not_mem.mp hLookup)
  | some b => rfl

/-- Places of a body go to places of the new one. -/
theorem hasPlace_splice_label {removed : Nat} (hEnd : p + removed ≤ m.code.length) {a : Address}
    (ha : m.code.HasPlace a) :
    (m.splice p removed new retarget).1.code.HasPlace ((m.splice p removed new retarget).2.label a) := by
  obtain ⟨n, hn, rfl⟩ := ha
  rcases Nat.lt_or_eq_of_le hn with hLess | rfl
  · refine ⟨_, ?_, (splice_label_addressAt hLess).symm⟩
    rw [splice_length, Code.length_spliced hEnd]
    unfold Code.landing Code.survivor?
    grind
  · exact ⟨_, Nat.le_refl _, splice_label_stop.symm⟩

theorem length_splice (hp : p < m.code.length) :
    (m.splice p 1 new retarget).1.code.length = m.code.length - 1 + new.length := by
  rw [splice_length, Code.length_spliced hp]

/-- Places after an instruction that is replaced move up or down, and the others do not. -/
theorem splice_label_place (hp : p < m.code.length) {n : Nat} (hn : n ≤ m.code.length) :
    (m.splice p 1 new retarget).2.label (m.code.addressAt n) =
      (m.splice p 1 new retarget).1.code.addressAt (if n ≤ p then n else n - 1 + new.length) := by
  rcases Nat.lt_or_eq_of_le hn with hLess | rfl
  · rw [splice_label_addressAt hLess]
    congr 1
    unfold Code.landing Code.survivor?
    split
    · rename_i hHere
      simp only [Bool.and_eq_true, decide_eq_true_eq] at hHere
      rw [if_pos (Nat.le_of_eq hHere.1), hHere.1]
    · split
      · rename_i hBefore
        rw [if_pos (Nat.le_of_lt hBefore)]
        rfl
      · split
        · rw [if_pos (by omega), Option.getD_none]
          omega
        · rw [if_neg (by omega), Option.getD_some]
  · rw [splice_label_stop, length_splice hp, if_neg (Nat.not_le_of_lt hp)]

end Splice

end Method

end Dalvik
