import Dalvik.Heap

/-!
Execution graphs: one node for every execution of an instruction in a state, linked to the executions
that follow it. Nodes are named by the order in which they were created and keep their names when
others are removed.
-/

namespace Dalvik

/-- The name of a node: how many nodes were created before it. -/
abbrev NodeId := Nat

/-- One execution of the instruction at an address, in the state before it. -/
structure Node where
  address : Address
  pre : State
  post : State
  parents : List NodeId
  children : List NodeId
  /-- Exploration stopped before all successors were recorded. -/
  truncated : Bool
  deriving DecidableEq, Repr

/-- Whether a node is the end of a path that was explored to its end. -/
def Node.isTerminal (n : Node) : Bool := n.children.isEmpty && !n.truncated

/-- The limits that can cut a path off. -/
inductive Ceiling where
  | nodes
  | visits
  deriving DecidableEq, Repr

/-- The name of a limit. -/
def Ceiling.text : Ceiling → String
  | nodes => "node limit"
  | visits => "address visit limit"

/-- Whether every path was explored to its end, and if not the limit that cut the first one off. -/
inductive Status where
  | completed
  | aborted (ceiling : Ceiling)
  deriving DecidableEq, Repr

/-- The executions of a method from a state. The executions of one instruction are its pile, which lists
them in the order in which they were created. -/
structure Graph where
  method : Method
  entry : State
  nodes : Array (Option Node)
  piles : List (Address × List NodeId)
  root : Option NodeId
  status : Status
  heap : Heap
  deriving DecidableEq, Repr

namespace Graph

/-- The graph of a method before anything of it has been executed. -/
def start (method : Method) (entry : State) : Graph where
  method
  entry
  nodes := #[]
  piles := []
  root := none
  status := .completed
  heap := .empty

/-- Whether every path was explored to its end. -/
def isComplete (g : Graph) : Bool := g.status = .completed

/-- The node with a name, if it has not been removed. -/
def node? (g : Graph) (id : NodeId) : Option Node := (g.nodes[id]?).join

/-- Whether a node with this name exists. -/
def isLive (g : Graph) (id : NodeId) : Bool := (g.node? id).isSome

/-- The names of the nodes that exist, in order. -/
def ids (g : Graph) : List NodeId := (List.range g.nodes.size).filter g.isLive

/-- The nodes that exist with their names, in order. -/
def live (g : Graph) : List (NodeId × Node) :=
  g.ids.filterMap fun id => (g.node? id).map fun n => (id, n)

/-- Whether a node is an execution at an address. -/
def isAt (g : Graph) (a : Address) (id : NodeId) : Bool :=
  match g.node? id with
  | some n => n.address = a
  | none => false

/-- The executions of the instruction at an address, by name. -/
def pile (g : Graph) (a : Address) : List NodeId := (g.piles.lookup a).getD []

/-- The executions of the instruction at an address. -/
def pileNodes (g : Graph) (a : Address) : List Node := (g.pile a).filterMap g.node?

/-- Whether an instruction was executed. -/
def isReached (g : Graph) (a : Address) : Bool := !(g.pile a).isEmpty

/-- An ascending list with one more address, unless it holds it already. -/
def insertAddress (a : Address) : List Address → List Address
  | [] => [a]
  | b :: r => if a < b then a :: b :: r else if a = b then b :: r else b :: insertAddress a r

/-- The ascending list of the different addresses in a list. -/
def ascending (as : List Address) : List Address :=
  as.foldl (fun sorted a => insertAddress a sorted) []

/-- The addresses at which something was executed, in ascending order. -/
def reached (g : Graph) : List Address :=
  ascending ((g.piles.filter fun p => !p.2.isEmpty).map Prod.fst)

/-- The ends of the paths that were explored to their end. -/
def terminals (g : Graph) : List (NodeId × Node) := g.live.filter fun n => n.2.isTerminal

/-- What all executions of an instruction agree on. Where there is none, they agree on nothing. -/
def agreed? {α : Type} [DecidableEq α] (g : Graph) (a : Address) (f : Node → Option α) : Option α :=
  match (g.pileNodes a).map f with
  | some x :: rest => if rest.all (· = some x) then some x else none
  | _ => none

/-- The value that a register holds after every execution of an instruction, if it is one known
value. -/
def consensus? (g : Graph) (a : Address) (r : Register) : Option Value :=
  g.agreed? a fun n => (n.post.peek? r).filter Value.isKnown

/-- The graph with a node changed. -/
def modify (g : Graph) (id : NodeId) (f : Node → Node) : Graph :=
  { g with nodes := g.nodes.modify id (Option.map f) }

/-- Piles with one more node in the pile of an address. -/
def addToPile (a : Address) (id : NodeId) : List (Address × List NodeId) → List (Address × List NodeId)
  | [] => [(a, [id])]
  | p :: r => if p.1 = a then (a, p.2 ++ [id]) :: r else p :: addToPile a id r

/-- The graph with one more node, which is the root if it follows no other. -/
def add (g : Graph) (a : Address) (pre post : State) (parent : Option NodeId) : Graph :=
  let id := g.nodes.size
  let node : Node := ⟨a, pre, post, parent.toList, [], false⟩
  let linked :=
    match parent with
    | some p => g.modify p fun n => { n with children := n.children ++ [id] }
    | none => { g with root := some id }
  { linked with
    nodes := linked.nodes.push (some node)
    piles := addToPile a id linked.piles }

/-- The graph with a mark on the node whose successors are not all recorded. -/
def truncate (g : Graph) (parent : Option NodeId) : Graph :=
  match parent with
  | some p => g.modify p fun n => { n with truncated := true }
  | none => g

/-- The graph after a path has been cut off behind a node. -/
def cut (g : Graph) (ceiling : Ceiling) (parent : Option NodeId) : Graph :=
  let g := g.truncate parent
  match g.status with
  | .completed => { g with status := .aborted ceiling }
  | .aborted _ => g

/-- What an execution of a return instruction returns, which is nothing for a method without a
result. Other instructions return nothing of either kind. -/
def returned? (g : Graph) (n : Node) : Option (Option Value) :=
  match g.method.code.at? n.address with
  | some .returnVoid => some none
  | some (.returnValue src) => (n.post.read src).toOption.map some
  | _ => none

end Graph

end Dalvik
