import Dalvik.Graph
import Dalvik.Semantics.Step

/-!
Exploring every path of a method within limits. Executions are explored in the order in which they are
found. A call of a local method is explored in a graph of its own, on the same heap and the same budget,
and counts for as much as is certain of its outcome.
-/

namespace Dalvik

/-- What bounds an exploration: the nodes of an execution and of all that it calls, the executions of
one instruction in one graph, and the nesting of calls. -/
structure Limits where
  maxNodes : Nat := 50000
  maxVisits : Nat := 500
  maxDepth : Nat := 10
  deriving DecidableEq, Repr

/-- A machine that executes methods. -/
structure Machine where
  classes : Classes
  limits : Limits
  deriving DecidableEq, Repr

/-- An execution that has been found and not explored yet, with the node that it follows. -/
structure Pending where
  parent : Option NodeId
  address : Address
  pre : State
  deriving DecidableEq, Repr

/-- An exploration that is under way: the graph, how often each instruction has been executed, and,
last found first, what the executions explored so far have led to. -/
structure Exploration where
  graph : Graph
  visits : List (Address × Nat)
  found : List Pending

namespace Exploration

/-- How often an instruction has been executed. -/
def visitsOf (e : Exploration) (a : Address) : Nat := (e.visits.lookup a).getD 0

/-- The counts with one more for an address. -/
def countVisit (a : Address) : List (Address × Nat) → List (Address × Nat)
  | [] => [(a, 1)]
  | v :: r => if v.1 = a then (a, v.2 + 1) :: r else v :: countVisit a r

/-- The exploration after a path has been cut off behind a node. -/
def cut (e : Exploration) (ceiling : Ceiling) (parent : Option NodeId) : Exploration :=
  { e with graph := e.graph.cut ceiling parent }

/-- The exploration with one more execution and what it leads to. -/
def record (e : Exploration) (p : Pending) (step : Step) : Exploration :=
  let id := e.graph.nodes.size
  let next : List Pending := step.successors.map fun s => ⟨some id, s.1, s.2⟩
  { graph := e.graph.add p.address p.pre step.post p.parent
    visits := countVisit p.address e.visits
    found := next.reverse ++ e.found }

/-- Explores one execution, or cuts its path off at a limit. -/
def visit (maxVisits : Nat) (c : Semantics.Context) (e : Exploration) (p : Pending) :
    Run Exploration := do
  if (← Run.budget) = 0 then return e.cut .nodes p.parent
  else if maxVisits ≤ e.visitsOf p.address then return e.cut .visits p.parent
  else do
    let step ← c.apply p.address p.pre
    Run.charge
    return e.record p step

/-- Explores what has been found, then what that leads to, and so on for a number of rounds. A round
that leads to anything uses up a part of the budget, so that one round more than the budget is enough
for all. -/
def rounds (maxVisits : Nat) (c : Semantics.Context) : Nat → Exploration → Run Exploration
  | 0, e => return e
  | n + 1, e => do
    if e.found.isEmpty then return e
    else do
      let e ← e.found.reverse.foldlM (visit maxVisits c) { e with found := [] }
      rounds maxVisits c n e

end Exploration

namespace Graph

/-- What is certain of a call that a graph explores: the one known value, or none, that all its paths
return. -/
def verdict? (g : Graph) : Option Effect :=
  if g.isComplete then
    match g.terminals.mapM fun n => g.returned? n.2 with
    | some (first :: rest) =>
      if rest.all (· = first) then
        match first with
        | none => some .void
        | some v => if v.isKnown then some (.returns v) else none
      else none
    | _ => none
  else none

end Graph

/-- The state in which a method starts with given arguments. There are at most as many as it has
parameters. -/
def Method.startWith? (m : Method) (values : List Value) : Option State :=
  if values.length ≤ m.paramCount then
    some
      { State.blank m.locals m.paramCount with
        params := values.map some ++ List.replicate (m.paramCount - values.length) none }
  else none

namespace Machine

/-- Explores a method from a state, where nested calls are explored by `call`. -/
def explore (m : Machine) (call : Method → List Value → Run (Option Effect)) (method : Method)
    (entry : State) : Run Graph := do
  if method.code.isEmpty then return .start method entry
  else do
    let budget ← Run.budget
    let e : Exploration := ⟨.start method entry, [], [⟨none, 0, entry⟩]⟩
    let e ← e.rounds m.limits.maxVisits ⟨m.classes, method, call⟩ (budget + 1)
    return e.graph

/-- What is known of a nested call that is explored by `run`. Of one that fails nothing is, unless it
asks for an item beyond the end of a list. -/
def callWith (run : Method → State → Run Graph) (callee : Method) (values : List Value) :
    Run (Option Effect) := do
  if (← Run.budget) = 0 then return none
  else
    match callee.startWith? values with
    | none => return none
    | some state => do
      match ← Run.attempt (run callee state) with
      | .ok g => return g.verdict?
      | .error .outOfBounds => throw .outOfBounds
      | .error _ => return none

/-- Explores a method from a state, and calls up to a depth below it. -/
def run (m : Machine) : Nat → Method → State → Run Graph
  | 0 => m.explore fun _ _ => return none
  | depth + 1 => m.explore (callWith (m.run depth))

/-- What is known of the calls that are made at a depth. -/
def callAt (m : Machine) (depth : Nat) : Method → List Value → Run (Option Effect) :=
  match m.limits.maxDepth - depth with
  | 0 => fun _ _ => return none
  | below + 1 => callWith (m.run below)

/-- What a step of a method at a depth depends on. -/
def context (m : Machine) (method : Method) (depth : Nat) : Semantics.Context :=
  ⟨m.classes, method, m.callAt depth⟩

/-- The state in which nothing is known of the arguments but their types. -/
def initialState (method : Method) : State :=
  { State.blank method.locals method.paramCount with
    params := method.paramTypes.map fun d => some (.unknown d) }

end Machine

/-- Why a method has no graph: it is not valid, or an execution of it fails. -/
inductive ExecutionError where
  | invalid (method : MethodReference) (e : Error)
  | failed (method : MethodReference) (e : Error)
  deriving DecidableEq, Repr

namespace ExecutionError

/-- The error behind a failure. -/
def cause : ExecutionError → Error
  | invalid _ e => e
  | failed _ e => e

/-- The wording of a failure. -/
def message : ExecutionError → String
  | invalid method e => "invalid method " ++ method.text ++ ": " ++ e.message
  | failed method e => "failed to execute " ++ method.text ++ ": " ++ e.message

end ExecutionError

/-- Executes a method from a state: the graph of all its paths within the limits. -/
def Machine.execute (m : Machine) (method : Method) (entry : State) :
    Except ExecutionError Graph :=
  match method.validate with
  | .error e => .error (.invalid method.reference e)
  | .ok _ =>
    match m.run m.limits.maxDepth method entry ⟨.after entry, m.limits.maxNodes⟩ with
    | (.error e, _) => .error (.failed method.reference e)
    | (.ok g, s) => .ok { g with heap := s.heap }

/-- One step of a method at an address and a depth, on a heap of its own. -/
def Machine.step (m : Machine) (method : Method) (depth : Nat) (a : Address) (pre : State) :
    Except Error Step :=
  ((m.context method depth).apply a pre ⟨.after pre, m.limits.maxNodes⟩).1

end Dalvik
