import Dalvik.Pass

/-!
Replacing computations by constants and decided branches by jumps, where all executions of an
instruction agree.
-/

namespace Dalvik.Constants

/-- What an instruction is replaced by. -/
inductive Plan where
  | load (dst : Register) (l : Literal)
  | jump (target : Address)
  /-- Nothing, because control goes to the next instruction. -/
  | drop
  deriving DecidableEq, Repr

/-- How control gets to a place. -/
def goTo (next target : Address) : Plan := if target = next then .drop else .jump target

/-- The outcome of a condition in the state before an execution, if it is certain. -/
def outcome? (c : Comparison) (lhs : Register) (rhs : Option Register) (n : Node) : Option Bool := do
  let v ← (n.pre.read lhs).toOption
  let w ←
    match rhs with
    | some r => (n.pre.read r).toOption
    | none => some (.int 0)
  Value.compare? c v w

/-- The key of a switch in the state before an execution, if it is known. -/
def key? (src : Register) (n : Node) : Option Int32 :=
  (n.pre.read src).toOption.bind Value.int32?

/-- Instructions that only compute a value. -/
def computes : Instruction Address → Bool
  | .move _ _ | .moveResult _ | .unary _ _ _ | .binary _ _ _ _ _ | .compare _ _ _ _
  | .arrayLength _ _ | .arrayGet _ _ _ | .instanceOf _ _ _ => true
  | _ => false

/-- Whether an execution went on to the next instruction and nowhere else. -/
def wentOn (g : Graph) (next : Address) (n : Node) : Bool :=
  !n.children.isEmpty && n.children.all (g.isAt next)

/-- The literal that can take the place of a computation: the value on which all its executions
agree. A string that is no literal's is none, because a literal would load another instance. -/
def constant? (g : Graph) (a next : Address) (dst : Register) : Option Literal :=
  if (g.pileNodes a).all (wentOn g next) then
    (g.consensus? a dst).bind fun v =>
      if v.text?.isSome && !g.heap.isInterned v then none else v.literal?
  else none

/-- What an executed instruction is replaced by, and which kind of change that is. -/
def plan? (g : Graph) (a : Address) (i : Instruction Address) : Option (Plan × Category) := do
  let next ← g.method.code.next? a
  match i with
  | .branch c lhs rhs target => do
    let taken ← g.agreed? a (outcome? c lhs rhs)
    return (goTo next (if taken then target else next), .constantPredicate)
  | .switch src cases => do
    let key ← g.agreed? a (key? src)
    return (goTo next (Semantics.switchTarget cases next key), .constantSwitch)
  | i =>
    if computes i then do
      let dst ← i.writes?
      let l ← constant? g a next dst
      return (.load dst l, .constantPropagation)
    else none

/-- The plans for the executed instructions, in order. -/
def plans (g : Graph) : List (Address × Plan × Category) :=
  g.method.code.located.filterMap fun p =>
    if g.isReached p.1 then (plan? g p.1 p.2).map fun q => (p.1, q) else none

/-- A plan whose destination has moved. -/
def Plan.retarget (label : Address → Address) : Plan → Plan
  | jump t => jump (label t)
  | p => p

/-- Carries a plan out, unless it is a removal that would leave control without a place to go to. -/
def carryOut (a : Address) : Plan → Edit (Option Relocation)
  | .load dst l => some <$> Edit.replace a (.const dst l)
  | .jump t => some <$> Edit.replace a (.goto t)
  | .drop =>
    tryCatch (some <$> Edit.remove a) fun
      | .wouldDisconnect _ => return none
      | e => throw e

/-- Carries plans out, the last one first, so that edits leave the addresses of pending plans alone.
`label` says where their destinations have moved. The answer is whether any plan was carried out. -/
def carryOutAll (label : Address → Address) : List (Address × Plan × Category) → Pass Bool
  | [] => return false
  | (a, plan, kind) :: pending => do
    match ← Pass.edit (carryOut a (plan.retarget label)) with
    | none => carryOutAll label pending
    | some r => do
      Pass.count kind
      let _ ← carryOutAll (r.label ∘ label) pending
      return true

/-- Replaces what is decided. A graph that is not complete decides nothing. -/
def perform : Pass PassResult := do
  let g ← Pass.graph
  if !g.isComplete then return .unchanged
  else if ← carryOutAll id (plans g).reverse then return .changed
  else return .unchanged

end Dalvik.Constants
