import Dalvik.Exploration

/-!
Graphs with every state of theirs replaced. It makes no difference whether states are replaced before they are
recorded or afterwards.
-/

namespace Dalvik

variable {F : State → State}

/-- An execution with its states replaced. -/
def Node.mapStates (F : State → State) (n : Node) : Node := { n with pre := F n.pre, post := F n.post }

/-- An execution that has been found, with its state replaced. -/
def Pending.mapState (F : State → State) (p : Pending) : Pending := { p with pre := F p.pre }

/-- A step with its states replaced. -/
def Step.mapStates (F : State → State) (s : Step) : Step :=
  ⟨F s.post, s.successors.map fun p => (p.1, F p.2)⟩

namespace Graph

/-- A graph with its states replaced. -/
def mapStates (F : State → State) (g : Graph) : Graph :=
  { g with entry := F g.entry, nodes := g.nodes.map (Option.map (Node.mapStates F)) }

variable {g : Graph}

theorem size_mapStates (F : State → State) (g : Graph) : (g.mapStates F).nodes.size = g.nodes.size := by
  simp [mapStates]

theorem start_mapStates (method : Method) (entry : State) :
    (start method entry).mapStates F = start method (F entry) := by
  simp [start, mapStates]

theorem node?_mapStates (id : NodeId) :
    (g.mapStates F).node? id = (g.node? id).map (Node.mapStates F) := by
  unfold node? mapStates
  dsimp only
  rw [Array.getElem?_map]
  cases g.nodes[id]? with
  | none => rfl
  | some n => cases n <;> rfl

theorem map_modify {α : Type} (xs : Array α) (i : Nat) {F G H : α → α} (h : ∀ x, H (F x) = G (H x)) :
    (xs.modify i F).map H = (xs.map H).modify i G := by
  apply Array.ext
  · simp
  · intro k hk hk'
    simp only [Array.getElem_map, Array.getElem_modify]
    split
    · exact h _
    · rfl

theorem modify_mapStates (id : NodeId) {G : Node → Node}
    (h : ∀ n, (G n).mapStates F = G (n.mapStates F)) :
    (g.modify id G).mapStates F = (g.mapStates F).modify id G := by
  unfold modify mapStates
  dsimp only
  rw [map_modify (G := Option.map G)]
  intro n
  cases n with
  | none => rfl
  | some n => exact congrArg some (h n)

theorem cut_mapStates (ceiling : Ceiling) (parent : Option NodeId) :
    (g.cut ceiling parent).mapStates F = (g.mapStates F).cut ceiling parent := by
  have hMark : (g.truncate parent).mapStates F = (g.mapStates F).truncate parent := by
    cases parent with
    | none => rfl
    | some p => exact modify_mapStates p fun n => rfl
  unfold cut
  dsimp only
  rw [← hMark]
  have hStatus : ((g.truncate parent).mapStates F).status = (g.truncate parent).status := rfl
  rw [hStatus]
  cases (g.truncate parent).status <;> rfl

theorem add_mapStates (a : Address) (pre post : State) (parent : Option NodeId) :
    (g.add a pre post parent).mapStates F = (g.mapStates F).add a (F pre) (F post) parent := by
  cases parent with
  | none =>
      unfold add mapStates
      dsimp only
      rw [Array.map_push, Array.size_map]
      rfl
  | some p =>
      have hLink : (g.modify p fun n => { n with children := n.children ++ [g.nodes.size] }).mapStates F =
          (g.mapStates F).modify p fun n => { n with children := n.children ++ [g.nodes.size] } :=
        modify_mapStates p fun n => rfl
      unfold add
      rw [size_mapStates]
      dsimp only
      rw [← hLink]
      unfold mapStates
      dsimp only
      rw [Array.map_push]
      rfl

end Graph

namespace Exploration

/-- An exploration with its states replaced. -/
def mapStates (F : State → State) (e : Exploration) : Exploration where
  graph := e.graph.mapStates F
  visits := e.visits
  found := e.found.map (Pending.mapState F)

theorem cut_mapStates (e : Exploration) (ceiling : Ceiling) (parent : Option NodeId) :
    (e.cut ceiling parent).mapStates F = (e.mapStates F).cut ceiling parent := by
  unfold cut mapStates
  rw [Graph.cut_mapStates]

theorem record_mapStates (e : Exploration) (p : Pending) (step : Step) :
    (e.record p step).mapStates F = (e.mapStates F).record (p.mapState F) (step.mapStates F) := by
  unfold record mapStates
  rw [Graph.add_mapStates, Graph.size_mapStates]
  simp [Pending.mapState, Step.mapStates, Function.comp_def]

end Exploration

end Dalvik
