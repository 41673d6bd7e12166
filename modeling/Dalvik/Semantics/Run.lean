import Dalvik.Heap

/-!
What a run draws on besides the registers. The identities that have been handed out and the nodes that
have been used up stay so when an instruction fails.
-/

namespace Dalvik

/-- The heap of a run, and the number of nodes that may still be explored. -/
structure Supply where
  heap : Heap
  budget : Nat
  deriving DecidableEq, Repr

/-- A computation of a run. An error leaves the supply as it was when the error arose. -/
abbrev Run := ExceptT Error (StateM Supply)

namespace Run

variable {α : Type}

/-- A result that does not touch the supply. -/
def ofExcept (r : Except Error α) : Run α := fun s => (r, s)

/-- A change of the heap. -/
def onHeap (f : Heap → α × Heap) : Run α :=
  fun s =>
    match f s.heap with
    | (v, h) => (.ok v, { s with heap := h })

/-- A change of the heap that may fail, and then leaves it as it is. -/
def onHeap? (f : Heap → Except Error (α × Heap)) : Run α := fun s =>
  match f s.heap with
  | .ok (v, h) => (.ok v, { s with heap := h })
  | .error e => (.error e, s)

/-- The result of a computation or the error that it ends with, as a result. -/
def attempt (r : Run α) : Run (Except Error α) := fun s =>
  match r s with
  | (v, s) => (.ok v, s)

/-- The number of nodes that may still be explored. -/
def budget : Run Nat := fun s => (.ok s.budget, s)

/-- Uses up one node, if there is one left. -/
def charge : Run Unit := fun s => (.ok (), { s with budget := s.budget - 1 })

end Run

end Dalvik
