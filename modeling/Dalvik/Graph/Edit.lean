import Dalvik.Graph
import Dalvik.Method.Splice

/-!
Keeping a graph in step with the edits of its method. A node that is removed leaves its parents linked
to its children.
-/

namespace Dalvik.Graph

/-- A list with those of some names that it lacks added at the end. -/
def addMissing (ids new : List NodeId) : List NodeId :=
  new.foldl (fun ids id => if id ∈ ids then ids else ids ++ [id]) ids

/-- The links of a node after another one has been replaced among them by its own. -/
def replaceLink (id : NodeId) (new ids : List NodeId) : List NodeId :=
  addMissing (ids.filter (· ≠ id)) new

/-- The graph without a node. -/
def removeNode (g : Graph) (id : NodeId) : Graph :=
  match g.node? id with
  | none => g
  | some n =>
    let g : Graph := { g with nodes := g.nodes.modify id fun _ => none }
    let children := n.children.filter g.isLive
    let parents := n.parents.filter g.isLive
    let g : Graph := parents.foldl (fun g p =>
      g.modify p fun m => { m with children := replaceLink id children m.children }) g
    let g : Graph := children.foldl (fun g c =>
      g.modify c fun m => { m with parents := replaceLink id parents m.parents }) g
    if g.root = some id then { g with root := children.head? } else g

/-- The graph without the executions of the instruction at an address. -/
def removePile (g : Graph) (a : Address) : Graph :=
  (g.pile a).foldl removeNode { g with piles := g.piles.filter fun p => p.1 ≠ a }

/-- The graph with the nodes of a pile at another address. -/
def moveNodes (g : Graph) (a : Address) (ids : List NodeId) : Graph :=
  ids.foldl (fun g id => g.modify id fun n => { n with address := a }) g

/-- The graph with its piles and their nodes at the new addresses of their instructions. The piles of
instructions that are not there any more are removed. -/
def relocate (g : Graph) (r : Relocation) : Graph :=
  let g := (g.reached.filter fun a => (r.insn? a).isNone).foldl removePile g
  let moved := g.piles.filterMap fun p => (r.insn? p.1).map fun a => (a, p.2)
  moved.foldl (fun g p => g.moveNodes p.1 p.2) { g with piles := moved }

/-- Whether there are numbers for `count` more local registers in the method and in every state. -/
def hasRoom (g : Graph) (count : Nat) : Bool :=
  g.method.hasRoom count && g.entry.hasRoom count &&
    g.nodes.toList.all fun n? => n?.all fun n => n.pre.hasRoom count && n.post.hasRoom count

/-- The graph after the method has got more local registers, as long as all have numbers. -/
def insertLocals (g : Graph) (count : Nat) : Graph :=
  { g with
    entry := g.entry.insertLocals count
    nodes := g.nodes.map (Option.map fun n =>
      { n with pre := n.pre.insertLocals count, post := n.post.insertLocals count }) }

end Dalvik.Graph
