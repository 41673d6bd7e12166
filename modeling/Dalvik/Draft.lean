import Dalvik.Graph.Edit
import Dalvik.Graph.Reapplication
import Dalvik.Graph.Removal

/-!
Editing a method together with its execution graph. An edit keeps the graph in step with the
instructions, refuses what would leave control without a place to go to, and says when the graph no
longer tells what the method does.
-/

namespace Dalvik

/-- A method that is being edited, with its graph, and whether the graph has to be made anew before
it is relied on. -/
structure Draft where
  graph : Graph
  stale : Bool
  deriving DecidableEq, Repr

/-- An edit of a draft. What an edit that fails has done before stays done. -/
abbrev Edit := ExceptT EditError (StateM Draft)

namespace Edit

/-- A result that does not touch the draft. -/
def ofExcept {α : Type} (r : Except EditError α) : Edit α := fun d => (r, d)

/-- The graph of the draft. -/
def graph : Edit Graph := fun d => (.ok d.graph, d)

/-- The method of the draft. -/
def method : Edit Method := fun d => (.ok d.graph.method, d)

/-- Asks for the graph to be made anew. -/
def markStale : Edit Unit := fun d => (.ok (), { d with stale := true })

/-- The position of the instruction at an address. -/
def index (a : Address) : Edit Nat := fun d => (d.graph.index a, d)

/-- Changes the graph. -/
def modifyGraph (f : Graph → Graph) : Edit Unit :=
  fun d => (.ok (), { d with graph := f d.graph })

/-- Replaces instructions, and moves the nodes to where `adjust` says that their instructions
went. -/
def spliceWith (adjust : Relocation → Relocation) (index removed : Nat) (new : Code)
    (retarget : Bool) : Edit Relocation := fun d =>
  let (method, r) := d.graph.method.splice index removed new retarget
  let r := adjust r
  (.ok r, { d with graph := { d.graph with method }.relocate r })

/-- Replaces instructions. -/
def splice (index removed : Nat) (new : Code) (retarget : Bool) : Edit Relocation :=
  spliceWith id index removed new retarget

/-- Replaces the instruction at an address by others. Its executions count as those of the first of
them. -/
def replaceMany (a : Address) (new : Code) : Edit Relocation := do
  let i ← index a
  spliceWith (fun r => r.followLabel a) i 1 new true

/-- Replaces the instruction at an address by another one. -/
def replace (a : Address) (new : Instruction Address) : Edit Relocation := replaceMany a [new]

/-- Inserts an instruction to which control goes that went to the one at an address. -/
def insertBefore (a : Address) (new : Instruction Address) : Edit Relocation := do
  let i ← index a
  splice i 0 [new] true

/-- Inserts an instruction after the one at an address. Control that went to the one after that still
does. -/
def insertAfter (a : Address) (new : Instruction Address) : Edit Relocation := do
  let i ← index a
  splice (i + 1) 0 [new] false

/-- Removes instructions one by one, the last one first. -/
def removeEach (combined : Relocation) : List Address → Edit Relocation
  | [] => return combined
  | a :: as => do
    let i ← index a
    modifyGraph fun g => g.removePile a
    let r ← splice i 1 [] false
    removeEach (combined.andThen r) as

/-- Removes the instructions at some addresses with their executions, or none if that would leave
control without a place to go to. -/
def removeAll (as : List Address) : Edit Relocation := do
  let as := Graph.ascending as
  ofExcept ((← graph).checkRemoval as)
  removeEach .empty as.reverse

/-- Removes the instruction at an address with its executions. -/
def remove (a : Address) : Edit Relocation := removeAll [a]

/-- Adds local registers to the method and to every state, if there are numbers for all. -/
def addLocals (count : Nat) : Edit Unit := do
  if (← graph).hasRoom count then
    modifyGraph fun g => { g with method := g.method.addLocals count }.insertLocals count
  else throw .overflow

/-- Executes the instruction at an address again in each of its states. If it now leads elsewhere, the
graph has to be made anew. -/
def refresh (m : Machine) (a : Address) : Edit Unit := do
  let _ ← index a
  let agrees ← fun d =>
    match Graph.reapply m a d.graph with
    | (.ok agrees, graph) => (.ok agrees, { d with graph })
    | (.error e, graph) => (.error (.execution a e), { d with graph })
  if agrees then return () else markStale

end Edit

end Dalvik
