import Dalvik.Framework.Method
import Dalvik.Pass
import Dalvik.Text.Utf8

/-!
Replacing single calls and casts whose operands all executions agree on.
-/

namespace Dalvik.Peephole

/-- What an instruction is replaced by. -/
inductive Plan where
  /-- A class that is looked up by name is loaded where the look-up's result went. -/
  | loadClass (dst : Register) (type : Descriptor)
  /-- A string that is made of known bytes is loaded in place of the one that was allocated. -/
  | loadString (receiver : Register) (text : String)
  /-- A cast that cannot fail is removed. -/
  | dropCast
  deriving DecidableEq, Repr

/-- The category that a change is counted in. -/
def Plan.category : Plan → Category
  | loadClass _ _ => .peepClassForName
  | loadString _ _ => .peepStringInit
  | dropCast => .peepCheckCast

/-- What a register holds before an execution, as one kind of contents. -/
def contents? {α : Type} (f : Value → Option α) (r : Register) (n : Node) : Option α :=
  (n.pre.read r).toOption.bind f

/-- Whether a register is the only one that holds a string whose constructor has not run. -/
def isLoneString (receiver : Register) (n : Node) : Bool :=
  (n.pre.assigned.filter fun p => p.2 = .uninit .string).map Prod.fst = [receiver]

/-- Whether a cast to a type cannot fail in the state before an execution. -/
def castHolds (r : Register) (type : Descriptor) (n : Node) : Bool :=
  match n.pre.peek? r with
  | some (.null _) => true
  | some (.uninit _) => false
  | some v => v.isKnown && v.descriptor = type
  | none => false

/-- The register that the instruction after an address moves a result to. -/
def resultRegister? (g : Graph) (a : Address) : Option Register := do
  let next ← g.method.code.next? a
  match g.method.code.at? next with
  | some (.moveResult dst) => some dst
  | _ => none

/-- What an executed instruction is replaced by. -/
def plan? (g : Graph) (a : Address) : Instruction Address → Option Plan
  | .invoke kind m args =>
    if kind = .static && m = FrameworkMethod.classForName.reference then do
      let dst ← resultRegister? g a
      let name ← g.agreed? a (contents? Value.text? (← args[0]?))
      return .loadClass dst (.ofBinaryName name)
    else if kind = .direct && m = FrameworkMethod.stringOfBytes.reference then do
      let receiver ← args[0]?
      let bytes ← g.agreed? a (contents? Value.bytes? (← args[1]?))
      if (g.pileNodes a).all (isLoneString receiver) then
        some (.loadString receiver (String.ofList (Text.ofUtf8Lossy bytes)))
      else none
    else none
  | .checkCast r type =>
    if g.isReached a && (g.pileNodes a).all (castHolds r type) then some .dropCast else none
  | _ => none

/-- The changes of the executed instructions, in order. -/
def plans (g : Graph) : List (Address × Plan) :=
  g.method.code.located.filterMap fun p =>
    if g.isReached p.1 then (plan? g p.1 p.2).map fun plan => (p.1, plan) else none

/-- Loads a literal in place of the instruction at an address, and executes it there. -/
def load (m : Machine) (a : Address) (dst : Register) (l : Literal) : Edit Unit := do
  let _ ← Edit.replace a (.const dst l)
  Edit.refresh m a

/-- Carries a change out. -/
def carryOut (m : Machine) (a : Address) : Plan → Edit Unit
  | .loadClass dst type => do
    match (← Edit.method).code.next? a with
    | none => throw (.noInstruction a)
    | some next => do
      let _ ← Edit.remove next
      load m a dst (.type type)
  | .loadString receiver text => load m a receiver (.string text)
  | .dropCast => do
    let _ ← Edit.remove a
    return ()

/-- Replaces what can be replaced, the last instruction first, so that edits leave the addresses of
pending changes alone. A graph that is not complete decides nothing. -/
def perform (m : Machine) : Pass PassResult := do
  let g ← Pass.graph
  let found := if g.isComplete then plans g else []
  found.reverse.forM fun p => do
    Pass.edit (carryOut m p.1 p.2)
    Pass.count p.2.category
  return if found.isEmpty then .unchanged else .changed

end Dalvik.Peephole
