import Dalvik.State

/-!
What an instruction does to the state and to the flow of control.
-/

namespace Dalvik

/-- Where control goes after an instruction that raises no exception besides. -/
inductive Flow where
  | next
  | jump (targets : List Address)
  | stop
  | raise (exception : Value)
  deriving DecidableEq, Repr

/-- What an instruction does: where control goes, the state after it, and an exception that it may
raise instead. -/
structure Outcome where
  flow : Flow
  post : State
  hazard : Option Value
  deriving DecidableEq, Repr

namespace Outcome

/-- An instruction that goes on to the next one. -/
def next (post : State) : Outcome := ⟨.next, post, none⟩

/-- An instruction that goes on to the next one, or raises an exception. -/
def nextOr (post : State) (hazard : Option Value) : Outcome := ⟨.next, post, hazard⟩

/-- An instruction that goes on to one of some places. -/
def jump (post : State) (targets : List Address) : Outcome := ⟨.jump targets, post, none⟩

/-- An instruction that raises an exception of a type. -/
def raise (post : State) (type : Descriptor) : Outcome := ⟨.raise (.unknown type), post, none⟩

/-- An instruction that assigns a register and goes on, or raises an exception. -/
def assign (post : State) (dst : Register) (v : Value) (hazard : Option Value) :
    Except Error Outcome :=
  (post.assign dst v).map fun s => ⟨.next, s, hazard⟩

end Outcome

/-- Some exception of a type. -/
def someException (type : Descriptor) : Option Value := some (.unknown type)

end Dalvik
