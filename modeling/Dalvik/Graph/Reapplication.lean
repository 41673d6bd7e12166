import Dalvik.Exploration

/-!
Executing an instruction of a graph again, after the instruction has been replaced.
-/

namespace Dalvik.Graph

/-- A change of a graph that may fail half way. -/
abbrev Change := ExceptT Error (StateM Graph)

/-- Executes one node again in the state before it. The answer is whether it leads to the same
addresses as before, as far as these had been recorded. -/
def reapplyNode (m : Machine) (a : Address) (id : NodeId) : Change Bool := fun g =>
  match g.node? id with
  | none => (.ok true, g)
  | some n =>
    match (m.context g.method 0).apply a n.pre ⟨g.heap, m.limits.maxNodes⟩ with
    | (.error e, s) => (.error e, { g with heap := s.heap })
    | (.ok step, s) =>
      let before := ascending (n.children.filterMap fun c => (g.node? c).map Node.address)
      let now := ascending (step.successors.map Prod.fst)
      let g := { g with heap := s.heap }.modify id fun n => { n with post := step.post }
      (.ok (n.truncated || before = now), g)

/-- Executes nodes again, up to the first that leads to other addresses than before. The answer is
whether there is none. -/
def reapplyNodes (m : Machine) (a : Address) : List NodeId → Change Bool
  | [] => return true
  | id :: ids => do
    if ← reapplyNode m a id then reapplyNodes m a ids else return false

/-- Executes the nodes of the instruction at an address again. -/
def reapply (m : Machine) (a : Address) : Change Bool := fun g =>
  reapplyNodes m a (g.pile a) g

end Dalvik.Graph
