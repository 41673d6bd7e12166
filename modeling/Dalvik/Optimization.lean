import Dalvik.Pass.Constants
import Dalvik.Pass.DeadCode
import Dalvik.Pass.Peephole
import Dalvik.Pass.Unreflection

/-!
Optimizing a method: sweeps of all passes over its graph until a sweep changes nothing, with a new
execution whenever a pass has left the graph behind.
-/

namespace Dalvik

/-- The passes of a sweep. With `weak`, dead code removal takes assignments that are never read, too. -/
inductive Stage where
  | deadCode (weak : Bool)
  | constants
  | peephole
  | unreflection
  deriving DecidableEq, Repr

namespace Stage

/-- The name of a pass in error messages. -/
def name : Stage → String
  | deadCode _ => "dead code removal"
  | constants => "constant propagation"
  | peephole => "peephole"
  | unreflection => "unreflection"

/-- What a pass does. -/
def perform (m : Machine) : Stage → Pass PassResult
  | deadCode weak => DeadCode.perform weak
  | constants => Constants.perform
  | peephole => Peephole.perform m
  | unreflection => Unreflection.perform m.classes

/-- The passes of a sweep, in order. -/
def sweep (weak : Bool) : List Stage := [deadCode weak, constants, peephole, unreflection]

end Stage

/-- Why a method cannot be optimized. -/
inductive OptimizationError where
  | execution (e : ExecutionError)
  | reexecution (e : ExecutionError)
  | stage (s : Stage) (e : EditError)
  deriving DecidableEq, Repr

/-- The error behind a failure. -/
def OptimizationError.cause? : OptimizationError → Option Error
  | execution e => some e.cause
  | reexecution e => some e.cause
  | stage _ e => e.cause?

/-- The wording of a failure. -/
def OptimizationError.message : OptimizationError → String
  | execution e => e.message
  | reexecution e => "failed to re-execute the method: " ++ e.message
  | stage s e => s.name ++ " failed: " ++ e.message

/-- A method under optimization: its graph and the changes made so far; whether the last sweeps made
any, and whether they ended with a graph that does not tell what the method does. -/
structure Optimization where
  graph : Graph
  counts : Counts
  changed : Bool
  stale : Bool
  deriving DecidableEq, Repr

namespace Optimization

/-- A method of which nothing has been changed. -/
def start (graph : Graph) : Optimization where
  graph
  counts := .empty
  changed := false
  stale := false

/-- The method as it is now. -/
def method (o : Optimization) : Method := o.graph.method

/-- What has been done, in one line. -/
def report (o : Optimization) : String := "Optimizations: " ++ o.counts.text

/-- A part of an optimization. What a part that fails has done before stays done. -/
abbrev Work := ExceptT OptimizationError (StateM Optimization)

/-- Performs the passes that are left of a sweep, and ends the sweep with the first one that leaves
the graph behind. `result` is what the passes before them came to. -/
def stages (m : Machine) (result : PassResult) : List Stage → Revision →
    Except OptimizationError PassResult × Revision
  | [], r => (.ok result, r)
  | s :: rest, r =>
    match s.perform m r with
    | (.error e, r) => (.error (.stage s e), r)
    | (.ok now, r) =>
      if now = .stale || r.draft.stale then (.ok .stale, r)
      else stages m (if now = .changed then .changed else result) rest r

/-- One sweep of all passes, which ends early when the graph has to be made anew. -/
def sweep (m : Machine) (weak : Bool) : Work PassResult := fun o =>
  match stages m .unchanged (Stage.sweep weak) ⟨⟨o.graph, false⟩, o.counts⟩ with
  | (result, r) => (result, { o with graph := r.draft.graph, counts := r.counts })

/-- Makes the graph anew. -/
def reexecute (m : Machine) : Work Unit := fun o =>
  match m.execute o.graph.method o.graph.entry with
  | .error e => (.error (.reexecution e), o)
  | .ok graph => (.ok (), { o with graph })

/-- Sweeps until a sweep changes nothing, at most a number of times. After the last sweep the graph is
not made anew. -/
def sweeps (m : Machine) (weak : Bool) : Nat → Work Unit
  | 0 => return ()
  | left + 1 => do
    match ← sweep m weak with
    | .unchanged => return ()
    | .changed => do
      modify fun o => { o with changed := true }
      sweeps m weak left
    | .stale =>
      if left = 0 then modify fun o => { o with changed := true, stale := true }
      else do
        modify fun o => { o with changed := true }
        reexecute m
        sweeps m weak left

/-- Sweeps at most `limit` times. What the result says about changes is about these sweeps. -/
def simplify (m : Machine) (weak : Bool) (limit : Nat) : Work Unit := do
  modify fun o => { o with changed := false, stale := false }
  sweeps m weak limit

end Optimization

namespace Machine

/-- How often a method is executed from its start because sweeps were used up. -/
def maxRounds : Nat := 10

/-- Executes a method from its start and simplifies it, again and again while that ends with a stale
graph, at most a number of times. -/
def optimizeFor (m : Machine) (weak : Bool) (limit : Nat) :
    Nat → Method → Counts → Except OptimizationError (Method × Counts)
  | 0, method, counts => .ok (method, counts)
  | left + 1, method, counts =>
    match m.execute method (initialState method) with
    | .error e => .error (.execution e)
    | .ok graph =>
      match (Optimization.simplify m weak limit).run.run (.start graph) with
      | (.error e, _) => .error e
      | (.ok _, o) =>
        let counts := counts.add o.counts
        if o.stale then optimizeFor m weak limit left o.method counts
        else .ok (o.method, counts)

/-- The method that a method is optimized to, whatever its arguments, with the changes made. -/
def optimize (m : Machine) (weak : Bool) (limit : Nat) (method : Method) :
    Except OptimizationError (Method × Counts) :=
  m.optimizeFor weak limit maxRounds method .empty

end Machine

end Dalvik
