import Dalvik.Graph

/-!
Which instructions can be removed from a method that has been executed. What is left must not lose a
place that it jumps to, and what has been executed must go on as before.
-/

namespace Dalvik

/-- Why an edit is refused or fails. -/
inductive EditError where
  | noInstruction (a : Address)
  | wouldDisconnect (a : Address)
  | execution (a : Address) (e : Error)
  deriving DecidableEq, Repr

/-- Registers would get numbers that there are not. This ends the whole program, wherever it happens. -/
def EditError.overflow : EditError := execution 0 .outOfBounds

/-- The error behind a failure. -/
def EditError.cause? : EditError → Option Error
  | execution _ e => some e
  | _ => none

/-- The wording of a refusal. -/
def EditError.message : EditError → String
  | noInstruction a => "no instruction at address " ++ toString a
  | wouldDisconnect a =>
    "removing the instruction at " ++ toString a ++ " would disconnect the graph"
  | execution a e =>
    "failed to re-execute the instruction at " ++ toString a ++ ": " ++ e.message

namespace Graph

/-- The position of the instruction at an address. -/
def index (g : Graph) (a : Address) : Except EditError Nat :=
  match g.method.code.indexOf? a with
  | some i => .ok i
  | none => .error (.noInstruction a)

/-- The last position of an instruction that is not removed. -/
def lastKept? (g : Graph) (removed : List Nat) : Option Nat :=
  ((List.range g.method.code.length).filter fun i => i ∉ removed).getLast?

/-- Whether control that goes to an address still finds an instruction there or after it, if the
last one that is kept is at a position. -/
def lands (g : Graph) (last : Option Nat) (target : Address) : Bool :=
  match g.method.code.indexOf? target, last with
  | some i, some last => i ≤ last
  | _, _ => false

/-- Checks that control finds an instruction at or after an address. -/
def checkLanding (g : Graph) (last : Option Nat) (target : Address) : Except EditError Unit :=
  if g.lands last target then .ok () else .error (.wouldDisconnect target)

/-- Whether an execution leads anywhere other than to the next instruction or to a handler. -/
def strays (g : Graph) (next : Option Address) (n : Node) : Bool :=
  n.children.any fun c =>
    match g.node? c with
    | some child => some child.address ≠ next && !g.method.isHandler child.address
    | none => false

/-- Checks whether some instructions can be removed at once: no jump or handler that is left may lose
its place, and what has been executed may only lead to the next instruction or to a handler. -/
def checkRemoval (g : Graph) (as : List Address) : Except EditError Unit := do
  let removed ← as.mapM g.index
  let last := g.lastKept? removed
  (g.method.code.zipIdx.filter fun p => p.2 ∉ removed).forM fun p =>
    p.1.targets.forM (g.checkLanding last)
  g.method.handlers.forM fun h => g.checkLanding last h.target
  as.forM fun a =>
    if (g.pileNodes a).any (g.strays (g.method.code.next? a)) then .error (.wouldDisconnect a)
    else .ok ()

end Graph

end Dalvik
