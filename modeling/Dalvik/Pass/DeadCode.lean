import Dalvik.Pass

/-!
Removing instructions that are never executed, or of which the only effect is lost.
-/

namespace Dalvik.DeadCode

/-- A search for a reader of a register: whether one has been found, the nodes that have been looked
at, and those that are to be looked at next, last found first. -/
structure Search where
  found : Bool
  seen : Array Bool
  next : List NodeId

/-- Looks at one node. Paths end at a node that overwrites the register for certain. What is not known
of a path counts as a read: nodes without an instruction, and successors that were not recorded. -/
def Search.visit (g : Graph) (r : Register) (s : Search) (id : NodeId) : Search :=
  if s.found || (s.seen[id]?.getD false) then s
  else
    let s := { s with seen := s.seen.setIfInBounds id true }
    match g.node? id with
    | none => s
    | some n =>
      match g.method.code.at? n.address with
      | none => { s with found := true }
      | some i =>
        if r ∈ i.reads || n.truncated then { s with found := true }
        else if i.writes? = some r && !i.mayThrow then s
        else { s with next := n.children.reverse ++ s.next }

/-- Looks at nodes, then at their successors, and so on for a number of rounds. Every round but the
last looks at a node for the first time, so that one more than there are nodes is enough. -/
def Search.rounds (g : Graph) (r : Register) : Nat → Search → Search
  | 0, s => s
  | n + 1, s =>
    if s.found || s.next.isEmpty then s
    else rounds g r n (s.next.reverse.foldl (visit g r) { s with next := [] })

/-- Whether a path from a node may read a register before it is overwritten. -/
def isReadLater (g : Graph) (r : Register) (id : NodeId) : Bool :=
  match g.node? id with
  | none => false
  | some n =>
    n.truncated ||
      (Search.rounds g r (g.nodes.size + 1)
        ⟨false, Array.replicate g.nodes.size false, n.children.reverse⟩).found

/-- Whether the receiver of a call, if it has one, is known and not null in a state. -/
def isReceiverSafe (args : List Register) (n : Node) : Bool :=
  match args.head?.bind n.pre.peek? with
  | none => false
  | some (.null _) => false
  | some v => v.isKnown

/-- Whether the result of the instruction at an address is left where it is. -/
def isDiscarded (g : Graph) (a : Address) : Bool :=
  match (g.method.code.next? a).bind g.method.code.at? with
  | some (.moveResult _) => false
  | _ => true

/-- Whether an executed instruction has no effect but an assignment that is lost, and which kind of
change its removal is. -/
def unused? (g : Graph) (a : Address) (i : Instruction Address) : Option Category :=
  match i with
  | .invoke kind m args =>
    let safe := kind = .static || (g.pileNodes a).all (isReceiverSafe args)
    if m.isPure && isDiscarded g a && safe then some .deadUnusedResult else none
  | _ =>
    if i.hasSideEffect || i.mayThrow then none
    else
      i.writes?.bind fun r =>
        if (g.pile a).any (isReadLater g r) then none
        else
          match i with
          | .moveResult _ => some .deadUnusedResult
          | _ => some .deadUnusedAssignment

/-- Whether an instruction can go, and which kind of change its removal is. What an incomplete graph
does not reach may be reached. -/
def classify? (weak : Bool) (g : Graph) (a : Address) (i : Instruction Address) :
    Option Category :=
  if !g.isReached a then if g.isComplete then some .deadUnreachable else none
  else
    match i with
    | .nop => some .deadNop
    | .goto t =>
      if g.method.code.next? a = some t then some .deadUselessGoto
      else if weak then unused? g a i
      else none
    | _ => if weak then unused? g a i else none

/-- The instructions that can go, each for itself. -/
def candidates (weak : Bool) (g : Graph) : List (Address × Category) :=
  g.method.code.located.filterMap fun p =>
    (classify? weak g p.1 p.2).map fun kind => (p.1, kind)

/-- The longest beginning of a list of candidates that can be removed at once, of `count` and fewer of
them. -/
def removable (g : Graph) (found : List (Address × Category)) : Nat → List (Address × Category)
  | 0 => []
  | count + 1 =>
    let part := found.take (count + 1)
    match g.checkRemoval (part.map Prod.fst) with
    | .ok _ => part
    | .error _ => removable g found count

/-- Removes dead instructions. With `weak`, assignments that are never read go too. -/
def perform (weak : Bool) : Pass PassResult := do
  let g ← Pass.graph
  let found := candidates weak g
  let found := removable g found found.length
  if found.isEmpty then return .unchanged
  else do
    let _ ← Pass.edit (Edit.removeAll (found.map Prod.fst))
    found.forM fun p => Pass.count p.2
    return .changed

end Dalvik.DeadCode
