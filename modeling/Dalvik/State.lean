import Dalvik.Method

/-!
The state of a method between two instructions: its registers, the result of the last call and the
exception that a handler was entered with.
-/

namespace Dalvik

/-- The registers of a method, local ones and parameters apart, with the two values that pass from one
instruction to the next without a register. A register that has not been assigned holds nothing. -/
structure State where
  locals : List (Option Value)
  params : List (Option Value)
  result : Option Value
  exception : Option Value
  deriving DecidableEq, Repr

namespace State

/-- A state in which no register has been assigned. -/
def blank (locals params : Nat) : State where
  locals := List.replicate locals none
  params := List.replicate params none
  result := none
  exception := none

/-- What the registers hold, the parameters after the local ones. -/
def registers (s : State) : List (Option Value) := s.locals ++ s.params

/-- The number of registers. -/
def registerCount (s : State) : Nat := s.locals.length + s.params.length

/-- The register of a parameter. -/
def paramRegister (s : State) (index : Nat) : Register := s.locals.length + index

/-- Whether a register holds a parameter. -/
def isParam (s : State) (r : Register) : Bool := s.locals.length ≤ r && r < s.registerCount

/-- The value of a register. One that has not been assigned may hold any object. -/
def read (s : State) (r : Register) : Except Error Value :=
  match s.registers[r]? with
  | some v => .ok (v.getD (.unknown .object))
  | none => .error (.register r s.registerCount)

/-- The value of a register that has been assigned. -/
def peek? (s : State) (r : Register) : Option Value := (s.registers[r]?).join

/-- The state with a value in a register. -/
def assign (s : State) (r : Register) (v : Value) : Except Error State :=
  if r < s.locals.length then .ok { s with locals := s.locals.set r (some v) }
  else if r < s.registerCount then
    .ok { s with params := s.params.set (r - s.locals.length) (some v) }
  else .error (.register r s.registerCount)

/-- The state with a value in the register of a parameter. -/
def assignParam (s : State) (index : Nat) (v : Value) : Except Error State :=
  s.assign (s.paramRegister index) v

/-- The value that stands for an instance after it has changed, and every other value as it is. -/
def replaceInstance (id : Nat) (new old : Value) : Value :=
  if old.id? = some id then new else old

/-- The state after an instance has changed: every register that refers to it, and the result if it
does, holds the new value. -/
def updateInstance (s : State) (id : Nat) (v : Value) : State where
  locals := s.locals.map (Option.map (replaceInstance id v))
  params := s.params.map (Option.map (replaceInstance id v))
  result := s.result.map (replaceInstance id v)
  exception := s.exception

/-- Whether there are numbers for `count` more local registers. -/
def hasRoom (s : State) (count : Nat) : Bool := s.locals.length + count < Register.limit

/-- The state of a method with more local registers, as long as all have numbers. The parameters move
up. -/
def insertLocals (s : State) (count : Nat) : State :=
  { s with locals := s.locals ++ List.replicate count none }

/-- The state after local registers have been inserted, if there are numbers for all. -/
def tryInsertLocals (s : State) (count : Nat) : Except Error State :=
  if s.hasRoom count then .ok (s.insertLocals count) else .error .outOfBounds

/-- The registers that have been assigned, with their values. -/
def assigned (s : State) : List (Register × Value) :=
  s.registers.zipIdx.filterMap fun p => p.1.map fun v => (p.2, v)

/-- The name of a register. -/
def registerName (s : State) (r : Register) : String :=
  if s.isParam r then Register.name s.locals.length r else r.plainName

/-- How a register with its value is written. -/
def registerText (s : State) (p : Register × Value) : String :=
  "\n" ++ s.registerName p.1 ++ ": type=" ++ p.2.descriptor.text ++ ", value=" ++ p.2.text

/-- How a state is written. -/
def text (s : State) : String :=
  "params: " ++ toString s.params.length ++ ", locals: " ++ toString s.locals.length ++
    String.join (s.assigned.map s.registerText)

theorem length_registers (s : State) : s.registers.length = s.registerCount := by
  simp [registers, registerCount]

theorem read_eq_ok_iff (s : State) (r : Register) (v : Value) :
    s.read r = .ok v ↔ r < s.registerCount ∧ (s.peek? r).getD (.unknown .object) = v := by
  unfold read peek?
  by_cases h : r < s.registers.length
  · simp [← length_registers, h]
  · simp [← length_registers, h]

theorem exists_assign {s : State} {r : Register} (h : r < s.registerCount) (v : Value) :
    ∃ t, s.assign r v = .ok t := by
  unfold assign
  rw [if_pos h]
  split <;> exact ⟨_, rfl⟩

theorem lt_of_assign {s t : State} {r : Register} {v : Value} (h : s.assign r v = .ok t) : r < s.registerCount := by
  unfold assign at h
  split at h
  · exact Nat.lt_of_lt_of_le ‹_› (Nat.le_add_right _ _)
  · split at h
    · assumption
    · cases h

end State

end Dalvik
