import Dalvik.Draft
import Dalvik.Pass.Counts

/-!
Passes over a draft, which count what they change.
-/

namespace Dalvik

/-- What a pass has done. After `stale` the graph has to be made anew before anything else relies on
it. -/
inductive PassResult where
  | unchanged
  | changed
  | stale
  deriving DecidableEq, Repr

/-- A draft with the counts of the changes that have been made in it. -/
structure Revision where
  draft : Draft
  counts : Counts
  deriving DecidableEq, Repr

/-- A pass over a draft. What a pass that fails has done before stays done and counted. -/
abbrev Pass := ExceptT EditError (StateM Revision)

namespace Pass

/-- An edit as a part of a pass. -/
def edit {α : Type} (e : Edit α) : Pass α := fun r =>
  match e r.draft with
  | (result, draft) => (result, { r with draft })

/-- Counts a change. -/
def count (kind : Category) : Pass Unit :=
  fun r => (.ok (), { r with counts := r.counts.increment kind })

/-- The graph of the draft. -/
def graph : Pass Graph := edit Edit.graph

end Pass

end Dalvik
