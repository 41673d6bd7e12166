import Dalvik.Text.Split

/-!
The kinds of changes, and how many of each have been made.
-/

namespace Dalvik

/-- The kinds of changes. -/
inductive Category where
  | constantPredicate
  | constantPropagation
  | constantSwitch
  | deadNop
  | deadUnreachable
  | deadUnusedAssignment
  | deadUnusedResult
  | deadUselessGoto
  | peepCheckCast
  | peepClassForName
  | peepStringInit
  | unreflection
  deriving DecidableEq, Repr

namespace Category

/-- Every kind, in the order of their names. -/
def all : List Category :=
  [constantPredicate, constantPropagation, constantSwitch, deadNop, deadUnreachable,
    deadUnusedAssignment, deadUnusedResult, deadUselessGoto, peepCheckCast, peepClassForName,
    peepStringInit, unreflection]

/-- The name of a kind in reports. -/
def name : Category → String
  | constantPredicate => "ConstantPredicate"
  | constantPropagation => "ConstantPropagation"
  | constantSwitch => "ConstantSwitch"
  | deadNop => "DeadNop"
  | deadUnreachable => "DeadUnreachable"
  | deadUnusedAssignment => "DeadUnusedAssignment"
  | deadUnusedResult => "DeadUnusedResult"
  | deadUselessGoto => "DeadUselessGoto"
  | peepCheckCast => "PeepCheckCast"
  | peepClassForName => "PeepClassForName"
  | peepStringInit => "PeepStringInit"
  | unreflection => "Unreflection"

end Category

/-- The kinds of the changes that have been made, last made first. -/
structure Counts where
  made : List Category
  deriving DecidableEq, Repr

namespace Counts

/-- No change. -/
def empty : Counts := ⟨[]⟩

/-- The counts with one more change of a kind. -/
def increment (c : Counts) (kind : Category) : Counts := ⟨kind :: c.made⟩

/-- The counts of two runs together. -/
def add (c d : Counts) : Counts := ⟨d.made ++ c.made⟩

/-- How many changes of a kind have been made. -/
def of (c : Counts) (kind : Category) : Nat := c.made.count kind

/-- How many changes have been made. -/
def total (c : Counts) : Nat := c.made.length

/-- How counts are written: the kinds that occur, in the order of their names. -/
def text (c : Counts) : String :=
  let entries := Category.all.filterMap fun k =>
    if c.of k = 0 then none else some (k.name ++ "=" ++ toString (c.of k))
  if entries.isEmpty then "none" else Text.separated ", " entries

end Counts

end Dalvik
