import Dalvik.Proofs.Exploration
import Dalvik.Proofs.Mapping
import Dalvik.Proofs.MirroredSteps

/-!
Explorations from states that differ in what instances are called only. They record graphs that differ in no
more, and so what is known of a call of a local method does not depend on the names of its arguments.
-/

namespace Dalvik

/-- An execution with instances renamed. -/
def Node.rename (f : Nat → Nat) (n : Node) : Node :=
  { n with pre := n.pre.rename f, post := n.post.rename f }

/-- An execution that has been found, with instances renamed. -/
def Pending.rename (f : Nat → Nat) (p : Pending) : Pending := { p with pre := p.pre.rename f }

namespace Graph

/-- A graph with instances renamed. -/
def rename (f : Nat → Nat) (g : Graph) : Graph :=
  { g with entry := g.entry.rename f, nodes := g.nodes.map (Option.map (Node.rename f)) }

variable {f : Nat → Nat} {g : Graph}

@[simp] theorem size_rename (f : Nat → Nat) (g : Graph) : (g.rename f).nodes.size = g.nodes.size :=
  size_mapStates _ g

theorem start_rename (method : Method) (entry : State) :
    (start method entry).rename f = start method (entry.rename f) :=
  start_mapStates method entry

theorem node?_rename (id : NodeId) : (g.rename f).node? id = (g.node? id).map (Node.rename f) :=
  node?_mapStates id

theorem isLive_rename (id : NodeId) : (g.rename f).isLive id = g.isLive id := by
  unfold isLive
  rw [node?_rename, Option.isSome_map]

theorem live_rename : (g.rename f).live = g.live.map fun n => (n.1, n.2.rename f) := by
  have hIds : (g.rename f).ids = g.ids := by
    unfold ids
    rw [size_rename]
    exact List.filter_congr fun id _ => isLive_rename id
  unfold live
  rw [hIds, List.map_filterMap]
  refine List.filterMap_congr fun id _ => ?_
  rw [node?_rename]
  cases g.node? id <;> rfl

theorem terminals_rename : (g.rename f).terminals = g.terminals.map fun n => (n.1, n.2.rename f) := by
  unfold terminals
  rw [live_rename, List.filter_map]
  rfl

theorem returned?_rename (n : Node) :
    (g.rename f).returned? (n.rename f) = (g.returned? n).map (Option.map (Value.rename f)) := by
  unfold returned?
  have hMethod : (g.rename f).method = g.method := rfl
  have hAddress : (n.rename f).address = n.address := rfl
  have hPost : (n.rename f).post = n.post.rename f := rfl
  rw [hMethod, hAddress, hPost]
  cases g.method.code.at? n.address with
  | none => rfl
  | some i =>
      cases i with
      | returnValue src =>
          dsimp only
          rw [State.read_rename]
          cases n.post.read src <;> rfl
      | _ => rfl

theorem mapM_map {α β γ δ : Type} {xs : List α} {F : α → Option β} {G : γ → Option δ} {H : α → γ}
    {L : β → δ} (h : ∀ x, G (H x) = (F x).map L) : (xs.map H).mapM G = (xs.mapM F).map (List.map L) := by
  induction xs with
  | nil => rfl
  | cons x xs ih =>
      rw [List.map_cons, List.mapM_cons, List.mapM_cons, h, ih]
      cases F x with
      | none => rfl
      | some y => cases xs.mapM F <;> rfl

/-- What is certain of a call does not depend on names. -/
theorem verdict?_rename (hf : Function.Injective f) :
    (g.rename f).verdict? = g.verdict?.map (Effect.rename f) := by
  have hDone : (g.rename f).isComplete = g.isComplete := rfl
  have hReturned : (g.rename f).terminals.mapM (fun n => (g.rename f).returned? n.2) =
      (g.terminals.mapM fun n => g.returned? n.2).map (List.map (Option.map (Value.rename f))) := by
    rw [terminals_rename]
    exact mapM_map fun n => returned?_rename n.2
  have hInjective : Function.Injective (Option.map (Value.rename f)) :=
    Option.map_injective (Value.rename_injective hf)
  unfold verdict?
  rw [hDone, hReturned]
  split
  · cases g.terminals.mapM fun n => g.returned? n.2 with
    | none => rfl
    | some returned =>
        cases returned with
        | nil => rfl
        | cons first rest =>
            have hAll : ((rest.map (Option.map (Value.rename f))).all
                fun x => x = first.map (Value.rename f)) = rest.all fun x => x = first := by
              rw [List.all_map]
              refine congrArg rest.all (funext fun x => ?_)
              simp [hInjective.eq_iff]
            simp only [Option.map_some, List.map_cons]
            rw [hAll]
            split
            · cases first with
              | none => rfl
              | some v =>
                  dsimp only [Option.map_some]
                  rw [Value.isKnown_rename]
                  split <;> rfl
            · rfl
  · rfl

end Graph

namespace Exploration

/-- An exploration with instances renamed. -/
def rename (f : Nat → Nat) (e : Exploration) : Exploration where
  graph := e.graph.rename f
  visits := e.visits
  found := e.found.map (Pending.rename f)

variable {f : Nat → Nat} {Λ : Links} {s t : Supply} {e e' : Exploration} {p p' : Pending}
  {maxVisits : Nat} {c : Semantics.Context}

open Run (Mirrors)

theorem cut_rename (e : Exploration) (ceiling : Ceiling) (parent : Option NodeId) :
    (e.cut ceiling parent).rename f = (e.rename f).cut ceiling parent :=
  cut_mapStates e ceiling parent

theorem record_rename (e : Exploration) (p : Pending) (step : Step) :
    (e.record p step).rename f = (e.rename f).record (p.rename f) (step.rename f) :=
  record_mapStates e p step

theorem visit_mirrors (hCalls : c.CallsMirror) (hBond : Λ.Bond s.heap t.heap)
    (hBudget : s.budget = t.budget) (he : Λ.Renames rename e e') (hp : Λ.Renames Pending.rename p p') :
    Mirrors Λ (visit maxVisits c e p) (visit maxVisits c e' p') s t fun Λ' => Λ'.Renames rename := by
  have hLeft : Mirrors Λ Run.budget Run.budget s t fun _ n n' => n = n' :=
    ⟨Λ, .refl hBond, hBudget, .ok hBudget⟩
  refine hLeft.bind fun Λ₁ s₁ t₁ n n' hΛ₁ hBudget₁ hn => ?_
  subst hn
  have he₁ := he.grow hΛ₁.grows
  have hp₁ := hp.grow hΛ₁.grows
  obtain ⟨f, hf⟩ := hΛ₁.bond.exists_spans
  have hAddress : p'.address = p.address := by rw [← hp₁ f hf]; rfl
  have hParent : p'.parent = p.parent := by rw [← hp₁ f hf]; rfl
  have hVisits : e'.visitsOf p'.address = e.visitsOf p.address := by rw [hAddress, ← he₁ f hf]; rfl
  have hCut (ceiling : Ceiling) : Mirrors Λ₁ (pure (e.cut ceiling p.parent))
      (pure (e'.cut ceiling p'.parent)) s₁ t₁ fun Λ' => Λ'.Renames rename :=
    Run.mirrors_pure hΛ₁.bond hBudget₁ fun g hg => by rw [cut_rename, he₁ g hg, hParent]
  rw [hVisits]
  split
  · exact hCut .nodes
  · split
    · exact hCut .visits
    · have hPre : Λ₁.Renames State.rename p.pre p'.pre := fun g hg => by rw [← hp₁ g hg]; rfl
      rw [hAddress]
      refine (Semantics.Context.apply_mirrors hCalls hΛ₁.bond hBudget₁ hPre p.address).bind
        fun Λ₂ s₂ t₂ step step' hΛ₂ hBudget₂ hStep => ?_
      have hCharge : Mirrors Λ₂ Run.charge Run.charge s₂ t₂ fun _ _ _ => True :=
        ⟨Λ₂, .refl hΛ₂.bond, congrArg (· - 1) hBudget₂, .ok trivial⟩
      refine hCharge.bind fun Λ₃ s₃ t₃ _ _ hΛ₃ hBudget₃ _ =>
        Run.mirrors_pure hΛ₃.bond hBudget₃ fun g hg => ?_
      rw [record_rename, hStep.grow hΛ₃.grows g hg, he₁.grow hΛ₂.grows |>.grow hΛ₃.grows g hg,
        hp₁.grow hΛ₂.grows |>.grow hΛ₃.grows g hg]

theorem foldlM_visit_mirrors (hCalls : c.CallsMirror) (hBond : Λ.Bond s.heap t.heap)
    (hBudget : s.budget = t.budget) (he : Λ.Renames rename e e') {ps ps' : List Pending}
    (hps : Λ.Renames (fun f => List.map (Pending.rename f)) ps ps') :
    Mirrors Λ (ps.foldlM (visit maxVisits c) e) (ps'.foldlM (visit maxVisits c) e') s t
      fun Λ' => Λ'.Renames rename := by
  induction ps generalizing Λ s t e e' ps' with
  | nil =>
      obtain ⟨f, hf⟩ := hBond.exists_spans
      obtain rfl : [] = ps' := hps f hf
      exact Run.mirrors_pure hBond hBudget he
  | cons p ps ih =>
      have hSplit : ∃ p' qs, ps' = p' :: qs ∧ Λ.Renames Pending.rename p p' ∧
          Λ.Renames (fun f => List.map (Pending.rename f)) ps qs := by
        obtain ⟨f, hf⟩ := hBond.exists_spans
        refine ⟨p.rename f, ps.map (Pending.rename f), (hps f hf).symm, fun g hg => ?_, fun g hg => ?_⟩
        · exact (List.cons.inj ((hps g hg).trans (hps f hf).symm)).1
        · exact (List.cons.inj ((hps g hg).trans (hps f hf).symm)).2
      obtain ⟨p', qs, rfl, hp, hqs⟩ := hSplit
      rw [List.foldlM_cons, List.foldlM_cons]
      exact (visit_mirrors hCalls hBond hBudget he hp).bind fun Λ' s' t' w v hΛ hLeft hw =>
        ih hΛ.bond hLeft hw (hqs.grow hΛ.grows)

theorem rounds_mirror (hCalls : c.CallsMirror) (n : Nat) (hBond : Λ.Bond s.heap t.heap)
    (hBudget : s.budget = t.budget) (he : Λ.Renames rename e e') :
    Mirrors Λ (rounds maxVisits c n e) (rounds maxVisits c n e') s t fun Λ' => Λ'.Renames rename := by
  induction n generalizing Λ s t e e' with
  | zero => exact Run.mirrors_pure hBond hBudget he
  | succ n ih =>
      have hFound : e'.found.isEmpty = e.found.isEmpty := by
        obtain ⟨f, hf⟩ := hBond.exists_spans
        rw [← he f hf]
        exact List.isEmpty_map
      unfold rounds
      rw [hFound]
      split
      · exact Run.mirrors_pure hBond hBudget he
      · have hBare : Λ.Renames rename { e with found := [] } { e' with found := [] } :=
          fun f hf => by rw [← he f hf]; rfl
        have hRound : Λ.Renames (fun f => List.map (Pending.rename f)) e.found.reverse
            e'.found.reverse := by
          intro f hf
          rw [← he f hf]
          exact List.map_reverse
        exact (foldlM_visit_mirrors hCalls hBond hBudget hBare hRound).bind
          fun Λ' s' t' w v hΛ hLeft hw => ih hΛ.bond hLeft hw

end Exploration

theorem Method.startWith?_rename (f : Nat → Nat) (m : Method) (values : List Value) :
    m.startWith? (values.map (Value.rename f)) = (m.startWith? values).map (State.rename f) := by
  unfold startWith?
  rw [List.length_map]
  split
  · simp [State.rename, State.blank, Function.comp_def]
  · rfl

namespace Machine

open Run (Mirrors)

variable {m : Machine} {Λ : Links} {s t : Supply} {entry entry' : State} {method : Method}

/-- What explores a method does the same from entries that differ in names only. -/
def RunsMirror (run : Method → State → Run Graph) : Prop :=
  ∀ (method : Method) (entry entry' : State) (Λ : Links) (s t : Supply),
    Λ.Bond s.heap t.heap → s.budget = t.budget → Λ.Renames State.rename entry entry' →
      Mirrors Λ (run method entry) (run method entry') s t fun Λ' => Λ'.Renames Graph.rename

theorem explore_mirrors {call : Method → List Value → Run (Option Effect)}
    (hCalls : ∀ method, Semantics.Context.CallsMirror ⟨m.classes, method, call⟩) :
    RunsMirror (m.explore call) := by
  intro method entry entry' Λ s t hBond hBudget hEntry
  have hStart : Λ.Renames Graph.rename (.start method entry) (.start method entry') :=
    fun f hf => by rw [← hEntry f hf, Graph.start_rename]
  unfold explore
  split
  · exact Run.mirrors_pure hBond hBudget hStart
  · have hLeft : Mirrors Λ Run.budget Run.budget s t fun _ n n' => n = n' :=
      ⟨Λ, .refl hBond, hBudget, .ok hBudget⟩
    refine hLeft.bind fun Λ' s' t' n n' hΛ hBudget' hn => ?_
    subst hn
    have hBegin : Λ'.Renames Exploration.rename ⟨.start method entry, [], [⟨none, 0, entry⟩]⟩
        ⟨.start method entry', [], [⟨none, 0, entry'⟩]⟩ := by
      intro f hf
      rw [← hEntry.grow hΛ.grows f hf]
      unfold Exploration.rename
      rw [Graph.start_rename]
      rfl
    refine (Exploration.rounds_mirror (hCalls method) _ hΛ.bond hBudget' hBegin).bind
      fun Λ'' s'' t'' e e' hΛ' hBudget'' he => Run.mirrors_pure hΛ'.bond hBudget'' fun f hf => ?_
    rw [← he f hf]
    rfl

theorem callWith_mirrors {run : Method → State → Run Graph} (hRun : RunsMirror run) (cs : Classes)
    (method : Method) : Semantics.Context.CallsMirror ⟨cs, method, callWith run⟩ := by
  intro callee values values' Λ s t hBond hBudget hValues
  have hLeft : Mirrors Λ Run.budget Run.budget s t fun _ n n' => n = n' :=
    ⟨Λ, .refl hBond, hBudget, .ok hBudget⟩
  refine hLeft.bind fun Λ₁ s₁ t₁ n n' hΛ₁ hBudget₁ hn => ?_
  subst hn
  have hNone {Λ : Links} {s t : Supply} (hBond : Λ.Bond s.heap t.heap) (hBudget : s.budget = t.budget) :
      Mirrors Λ (pure (none : Option Effect)) (pure none) s t fun Λ' =>
        Λ'.Renames fun f => Option.map (Effect.rename f) :=
    Run.mirrors_pure hBond hBudget fun _ _ => rfl
  have hStart : Λ₁.Renames (fun f => Option.map (State.rename f)) (callee.startWith? values)
      (callee.startWith? values') :=
    fun f hf => by rw [← hValues.grow hΛ₁.grows f hf, Method.startWith?_rename]
  split
  · exact hNone hΛ₁.bond hBudget₁
  · obtain ⟨f, hf⟩ := hΛ₁.bond.exists_spans
    have hOne := hStart f hf
    cases hEntry : callee.startWith? values with
    | none =>
        rw [hEntry] at hOne
        rw [← hOne]
        exact hNone hΛ₁.bond hBudget₁
    | some entry =>
        rw [hEntry] at hOne hStart
        rw [← hOne] at hStart ⊢
        dsimp only [Option.map_some]
        have hSame : Λ₁.Renames State.rename entry (entry.rename f) :=
          fun g hg => Option.some.inj (hStart g hg)
        refine (hRun callee entry _ Λ₁ s₁ t₁ hΛ₁.bond hBudget₁ hSame).attempt.bind
          fun Λ₂ s₂ t₂ x y hΛ₂ hBudget₂ hxy => ?_
        cases hxy with
        | ok hg =>
            refine Run.mirrors_pure hΛ₂.bond hBudget₂ fun g hg' => ?_
            rw [← hg g hg', Graph.verdict?_rename hg'.injective]
        | error e =>
            cases e with
            | outOfBounds => exact Run.mirrors_throw hΛ₂.bond hBudget₂ .outOfBounds
            | _ => exact hNone hΛ₂.bond hBudget₂

theorem run_mirrors (m : Machine) (depth : Nat) : RunsMirror (m.run depth) := by
  induction depth with
  | zero =>
      exact explore_mirrors fun method callee values values' Λ s t hBond hBudget _ =>
        Run.mirrors_pure hBond hBudget fun _ _ => rfl
  | succ depth ih => exact explore_mirrors fun method => callWith_mirrors ih m.classes method

/-- What is known of a call of a local method depends on its arguments only up to names. -/
theorem callsMirror_context (m : Machine) (method : Method) (depth : Nat) :
    (m.context method depth).CallsMirror := by
  unfold context callAt
  cases m.limits.maxDepth - depth with
  | zero =>
      exact fun callee values values' Λ s t hBond hBudget _ =>
        Run.mirrors_pure hBond hBudget fun _ _ => rfl
  | succ below => exact callWith_mirrors (run_mirrors m below) m.classes method

end Machine

end Dalvik
