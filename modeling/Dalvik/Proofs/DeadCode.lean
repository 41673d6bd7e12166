import Dalvik.Pass.DeadCode
import Dalvik.Proofs.Echoing

/-!
Removing dead instructions. What is left has been checked, and the graph that has been edited along with it is
the one that a new execution makes, where nothing has been removed that matters.
-/

namespace Dalvik

namespace Method

variable {m : Method} {a : Address} {i : Instruction Address}

/-- What takes no exception is not where a handler begins. -/
theorem WellFormed.isHandler_eq_false (h : m.WellFormed) (hi : m.code.at? a = some i)
    (hTakes : i.takesException = false) : m.isHandler a = false := by
  by_contra hHandler
  obtain ⟨k, hk, hHere⟩ := List.any_eq_true.mp (eq_true_of_ne_false hHandler)
  obtain ⟨dst, hDst⟩ := h.exists_moveException hk
  rw [decide_eq_true_eq] at hHere
  rw [hHere, hi] at hDst
  obtain rfl := Option.some.inj hDst
  cases hTakes

end Method

namespace Pruning

open Semantics (Context)

variable {c' : Context} {G : Graph} {needs : NodeId → Register → Prop} {K : NodeId} {N : Node} {step : Step}
  {b : Address} {i : Instruction Address}

/-- What takes no exception, is no call and has led to the next instruction has idled if it has changed nothing
that is needed there. -/
theorem idles_of_leads (hWell : c'.method.WellFormed) (hi : c'.method.code.at? N.address = some i)
    (hTakes : i.takesException = false) (hCall : i.isCall = false) (hLeads : step.successors = [(b, step.post)])
    (hNext : c'.method.code.next? N.address = some b) (hThere : c'.method.isHandler b = false)
    (hKeeps : ∀ C ∈ G.childrenOf K, ∀ r, needs C r → needs K r)
    (hAgrees : ∀ C ∈ G.childrenOf K, N.pre.Agrees (needs C) step.post) : Idles c' G needs K N step b where
  leads := hLeads
  next := hNext
  here := hWell.isHandler_eq_false hi hTakes
  there := hThere
  takes _ hj := hWell.takesResult_next? hi hCall hNext hj
  keeps := hKeeps
  agrees := hAgrees

end Pruning

namespace Edit

variable {g : Graph}

theorem Removes.refl (hg : g.Consistent) (hBounded : g.method.Bounded) : Removes g g [] id where
  consistent := hg
  thinned := by
    rw [Code.spared_nil]
    exact .refl hBounded
  carried := by
    rw [Code.spared_nil]
    exact .refl hg.piled
  status := rfl

end Edit

namespace DeadCode

variable {g : Graph} {a : Address} {i : Instruction Address} {weak : Bool} {kind : Category}

/-- What is removed at once has been checked for. -/
theorem removable_cases (g : Graph) (found : List (Address × Category)) (count : Nat) :
    ∃ k, removable g found count = found.take k ∧
      (removable g found count = [] ∨
        g.checkRemoval ((removable g found count).map Prod.fst) = .ok ()) := by
  induction count with
  | zero => exact ⟨0, rfl, .inl rfl⟩
  | succ count ih =>
      unfold removable
      dsimp only
      split
      · rename_i hChecked
        exact ⟨count + 1, rfl, .inr hChecked⟩
      · exact ih

theorem mem_candidates {x : Address × Category} :
    x ∈ candidates weak g ↔ ∃ i, g.method.code.at? x.1 = some i ∧ classify? weak g x.1 i = some x.2 := by
  constructor
  · intro hx
    obtain ⟨⟨a, i⟩, hLocated, hFound⟩ := List.mem_filterMap.mp hx
    obtain ⟨kind, hKind, rfl⟩ := Option.map_eq_some_iff.mp hFound
    exact ⟨i, Code.mem_located_iff.mp hLocated, hKind⟩
  · rintro ⟨i, hi, hKind⟩
    exact List.mem_filterMap.mpr ⟨(x.1, i), Code.mem_located_iff.mpr hi, by rw [hKind]; rfl⟩

theorem pairwise_candidates (weak : Bool) (g : Graph) :
    ((candidates weak g).map Prod.fst).Pairwise (· < ·) := by
  refine List.pairwise_map.mpr ?_
  rw [← List.pairwise_reverse]
  refine pairwise_located _ Prod.fst _ fun p x hx => ?_
  obtain ⟨kind, _, rfl⟩ := Option.map_eq_some_iff.mp hx
  rfl

theorem yields_counts {r : Revision} (found : List (Address × Category)) :
    Yields (found.forM fun p => Pass.count p.2) r fun _ r' => r'.draft = r.draft := by
  induction found generalizing r with
  | nil => exact yields_of_eq (v := ()) (t := r) rfl rfl
  | cons p found ih =>
      change Yields (Pass.count p.2 >>= fun _ => found.forM fun p => Pass.count p.2) r _
      rw [yields_bind]
      exact yields_of_eq (v := ()) rfl ih

/-- The instructions that are removed at once. -/
def taken (weak : Bool) (g : Graph) : List Address :=
  (removable g (candidates weak g) (candidates weak g).length).map Prod.fst

/-- They are the first ones that can go. -/
theorem exists_taken_eq (weak : Bool) (g : Graph) : ∃ k, taken weak g = ((candidates weak g).map Prod.fst).take k := by
  obtain ⟨k, hTake, _⟩ := removable_cases g (candidates weak g) (candidates weak g).length
  exact ⟨k, by rw [taken, hTake, List.map_take]⟩

theorem exists_of_mem_taken (ha : a ∈ taken weak g) :
    ∃ i kind, g.method.code.at? a = some i ∧ classify? weak g a i = some kind := by
  obtain ⟨k, hTake⟩ := exists_taken_eq weak g
  obtain ⟨x, hx, rfl⟩ := List.mem_map.mp (List.mem_of_mem_take (hTake ▸ ha))
  obtain ⟨i, hi, hKind⟩ := mem_candidates.mp hx
  exact ⟨i, x.2, hi, hKind⟩

theorem ascending_taken (weak : Bool) (g : Graph) : Graph.ascending (taken weak g) = taken weak g := by
  obtain ⟨k, hTake⟩ := exists_taken_eq weak g
  have hSorted : (taken weak g).Pairwise (· < ·) :=
    hTake ▸ (pairwise_candidates weak g).sublist (List.take_sublist _ _)
  exact (Graph.ascending_pairwise _).eq_of_mem_iff hSorted fun a => Graph.mem_ascending

/-- Removing dead instructions does what removing them from the method does, if there are any. -/
theorem perform_yields_of (weak : Bool) {r : Revision} {P : Draft → Prop}
    (hNone : taken weak r.draft.graph = [] → P r.draft)
    (hSome : r.draft.graph.checkRemoval (Graph.ascending (taken weak r.draft.graph)) = .ok () →
      Yields (Edit.removeAll (taken weak r.draft.graph)) r.draft fun _ d' => P d') :
    Yields (perform weak) r fun now r' => now ≠ .stale ∧ P r'.draft := by
  rw [perform, yields_bind]
  refine yields_of_eq (v := r.draft.graph) (t := r) rfl ?_
  obtain ⟨_, _, hChecked⟩ :=
    removable_cases r.draft.graph (candidates weak r.draft.graph) (candidates weak r.draft.graph).length
  rw [ascending_taken] at hSome
  unfold taken at hNone hSome
  dsimp only
  generalize removable r.draft.graph (candidates weak r.draft.graph) (candidates weak r.draft.graph).length =
    found at hNone hSome hChecked
  split
  · rename_i hEmpty
    exact yields_of_eq rfl ⟨by decide, hNone (by rw [List.isEmpty_iff.mp hEmpty]; rfl)⟩
  · rename_i hFound
    obtain ⟨moved, d', hRun, hP⟩ := (hSome (hChecked.resolve_left (by simpa using hFound))).exists_eq
    have hEdit : Pass.edit (Edit.removeAll (found.map Prod.fst)) r = (.ok moved, { r with draft := d' }) := by
      unfold Pass.edit
      rw [hRun]
    rw [yields_bind]
    refine yields_of_eq hEdit ?_
    rw [yields_bind]
    refine (yields_counts found).imp fun _ r' hSame => yields_of_eq rfl ⟨by decide, ?_⟩
    rw [hSame]
    exact hP

/-- Removing dead instructions succeeds. It removes instructions that can go. -/
theorem perform_yields (weak : Bool) {r : Revision} (hr : r.draft.graph.Consistent)
    (hBounded : r.draft.graph.method.Bounded) :
    Yields (perform weak) r fun _ r' => ∃ label removed,
      (∀ a ∈ removed, ∃ i kind, r.draft.graph.method.code.at? a = some i ∧
        classify? weak r.draft.graph a i = some kind) ∧
        Edit.Removes r.draft.graph r'.draft.graph removed label := by
  refine (perform_yields_of weak (P := fun d' => ∃ label removed,
    (∀ a ∈ removed, ∃ i kind, r.draft.graph.method.code.at? a = some i ∧
      classify? weak r.draft.graph a i = some kind) ∧ Edit.Removes r.draft.graph d'.graph removed label)
    (fun _ => ⟨id, [], by simp, .refl hr hBounded⟩) fun hChecked => ?_).imp fun _ _ h => h.2
  obtain ⟨moved, g, label, hRun, hRemoves, _⟩ := Edit.removeAll_removes hr hBounded hChecked
  exact yields_of_eq hRun ⟨label, _, fun a ha => exists_of_mem_taken ha, hRemoves⟩

/-- The instruction at an address does nothing, or only jumps to the next one. -/
inductive Idle (m : Method) (a : Address) : Prop
  | nop (hi : m.code.at? a = some .nop) : Idle m a
  | goto (t : Address) (hi : m.code.at? a = some (.goto t)) (hNext : m.code.next? a = some t) : Idle m a

/-- Of what has been executed only instructions that do nothing can go, and with weak removal those of which the
effect is lost. -/
theorem classify?_cases (hi : g.method.code.at? a = some i) (hReached : g.isReached a = true)
    (h : classify? weak g a i = some kind) : Idle g.method a ∨ weak = true ∧ unused? g a i = some kind := by
  have hWeak (h : (if weak then unused? g a i else none) = some kind) :
      Idle g.method a ∨ weak = true ∧ unused? g a i = some kind := by
    split at h
    · exact .inr ⟨‹_›, h⟩
    · cases h
  unfold classify? at h
  rw [hReached] at h
  cases i with
  | nop => exact .inl (.nop hi)
  | goto t =>
      by_cases hNext : g.method.code.next? a = some t
      · exact .inl (.goto t hi hNext)
      · exact hWeak (by simpa [hNext] using h)
  | _ => exact hWeak h

open Semantics (Context)

/-- Nothing happens where nothing is done. -/
theorem Idle.idles {c : Context} {G : Graph} {K : NodeId} {N : Node} {s t : Supply} {step : Step}
    (h : Idle c.method N.address) (hWell : c.method.WellFormed)
    (hRun : c.apply N.address N.pre s = (.ok step, t)) :
    ∃ b, Pruning.Idles c G (fun _ _ => True) K N step b := by
  obtain ⟨i, o, hi, hDoes, hSuccessors, hPost⟩ := Context.exists_outcome hRun
  have hResting : N.pre.Agrees (fun _ => True) { N.pre with result := none, exception := none } :=
    State.Agrees.pass ⟨.refl N.pre, fun _ _ => rfl⟩ _ _ _ _
  cases h with
  | nop hNop =>
      obtain rfl := Option.some.inj (hi.symm.trans hNop)
      obtain rfl := Except.ok.inj (Prod.mk.inj hDoes).1
      obtain ⟨b, hNext, hLeads⟩ := Context.successors_next rfl rfl hSuccessors
      exact ⟨b, Pruning.idles_of_leads hWell hi rfl rfl (hPost ▸ hLeads) hNext
        (hWell.isHandler_next? hi rfl hNext) (fun _ _ _ h => h) fun _ _ => hPost ▸ hResting⟩
  | goto b hGoto hNext =>
      obtain rfl := Option.some.inj (hi.symm.trans hGoto)
      obtain rfl := Except.ok.inj (Prod.mk.inj hDoes).1
      have hLeads := (Except.ok.inj hSuccessors).symm
      exact ⟨b, Pruning.idles_of_leads hWell hi rfl rfl (hPost ▸ hLeads) hNext
        (hWell.jumps _ (Code.mem_of_at? hi) b (.head _)) (fun _ _ _ h => h) fun _ _ => hPost ▸ hResting⟩

end DeadCode

namespace Graph

/-- An execution of a new graph is one of an edited graph: it takes place at the same address, with the same
contents of the registers before and after it, and returns the same, up to the names of instances. -/
def Repeats (g G : Graph) (k K : NodeId) : Prop :=
  ∃ (f : Nat → Nat) (n N : Node), g.node? k = some n ∧ G.node? K = some N ∧ Function.Injective f ∧
    n.address = N.address ∧ (n.pre.rename f).registers = N.pre.registers ∧
      (n.post.rename f).registers = N.post.registers ∧
        (g.returned? n).map (Option.map (Value.rename f)) = G.returned? N

/-- A new graph has the executions of an edited one, and no others. -/
structure Renews (g G : Graph) : Prop where
  forward : ∀ k, g.isLive k = true → ∃ K, g.Repeats G k K
  backward : ∀ K, G.isLive K = true → ∃ k, g.Repeats G k K
  reached : g.reached = G.reached

/-- The executions of an edited graph are those of the original one whose instructions are left, with the same
states and returned values. `label` says where the places of the original method are now, and `removed` which
instructions are gone. -/
structure Trims (g' g : Graph) (label : Address → Address) (removed : List Address) : Prop where
  forward : ∀ K n', g'.node? K = some n' → ∃ n i, g.node? K = some n ∧ n.address ∉ removed ∧
    n'.address = label n.address ∧ n'.pre = n.pre ∧ n'.post = n.post ∧ g'.returned? n' = g.returned? n ∧
      g.method.code.at? n.address = some i ∧ g'.method.code.at? n'.address = some (i.mapTargets label)
  backward : ∀ K n, g.node? K = some n → n.address ∉ removed → g'.isLive K = true

end Graph

namespace Edit

variable {g g' : Graph} {removed : List Address} {label : Address → Address}

/-- Removing instructions keeps the executions of the others. -/
theorem Removes.trims (h : Removes g g' removed label) (hg : g.Piled g.method.code) :
    g'.Trims g label removed where
  forward K n' hn' := by
    obtain ⟨n, i, hn, hi⟩ := h.carried.exists_origin hn'
    obtain ⟨n₁, hn₁, hAddress, hPre, hPost⟩ := h.carried.exists_node hn hi
    obtain rfl := Option.some.inj (hn₁.symm.trans hn')
    obtain ⟨hKept, hOld⟩ := Code.spared_eq_some_iff.mp hi
    have hNew := h.thinned.insn (Code.hasAddress_of_at? hOld) hi
    rw [← hAddress] at hNew
    refine ⟨n, i, hn, hKept, hAddress, hPre, hPost, ?_, hOld, hNew⟩
    unfold Graph.returned?
    rw [hNew, hOld, hPost]
    cases i <;> rfl
  backward K n hn hKept := by
    obtain ⟨i, hi⟩ := Code.exists_at? (hg.hasAddress hn)
    obtain ⟨n', hn', _⟩ := h.carried.exists_node hn (Code.spared_eq_some_iff.mpr ⟨hKept, hi⟩)
    exact Graph.isLive_iff.mpr ⟨n', hn'⟩

end Edit

namespace DeadCode

/-- What does all that the original method has done does what the edited graph tells. -/
theorem renews_of_echoes {g g' r : Graph} {removed : List Address} {label : Address → Address}
    (hg : g.Consistent) (hRemoves : Edit.Removes g g' removed label)
    (h : r.Echoes g label (g.method.code.spared removed) fun _ _ => True) (hr : r.Consistent) :
    r.Renews g' := by
  have hTrims := hRemoves.trims hg.piled
  have hRepeats {f : Nat → Nat} {k K : NodeId} {n N N' : Node} (hn : r.node? k = some n)
      (hN : g.node? K = some N) (hN' : g'.node? K = some N')
      (hEchoes : n.Echoes r g label f (fun _ => True) N) : r.Repeats g' k K := by
    obtain ⟨N₁, i, hN₁, _, hAddress, hPre, hPost, hReturned, _⟩ := hTrims.forward K N' hN'
    obtain rfl := Option.some.inj (hN₁.symm.trans hN)
    exact ⟨f, n, N', hn, hN', hEchoes.injective, hEchoes.address.trans hAddress.symm,
      hPre ▸ hEchoes.pre.registers_eq, hPost ▸ hEchoes.post.registers_eq, hReturned ▸ hEchoes.returned⟩
  have hForward (k : NodeId) (n : Node) (hn : r.node? k = some n) : ∃ K, r.Repeats g' k K := by
    obtain ⟨f, K, N, hN, hKept, hEchoes⟩ := h.forward k n hn
    obtain ⟨j, hj⟩ := Option.ne_none_iff_exists'.mp hKept
    obtain ⟨N', hN', _⟩ := hRemoves.carried.exists_node hN hj
    exact ⟨K, hRepeats hn hN hN' hEchoes⟩
  have hBackward (K : NodeId) (N' : Node) (hN' : g'.node? K = some N') : ∃ k, r.Repeats g' k K := by
    obtain ⟨N, j, hN, hj⟩ := hRemoves.carried.exists_origin hN'
    obtain ⟨f, k, n, hn, hEchoes⟩ := h.backward K N hN (by rw [hj]; nofun)
    exact ⟨k, hRepeats hn hN hN' hEchoes⟩
  refine ⟨fun k hk => ?_, fun K hK => ?_, Graph.reached_eq fun a => ?_⟩
  · obtain ⟨n, hn⟩ := Graph.isLive_iff.mp hk
    exact hForward k n hn
  · obtain ⟨N', hN'⟩ := Graph.isLive_iff.mp hK
    exact hBackward K N' hN'
  · rw [hr.piled.mem_reached, hRemoves.consistent.piled.mem_reached]
    constructor
    · rintro ⟨k, n, hn, rfl⟩
      obtain ⟨K, f, n₁, N', hn₁, hN', _, hPlace, _⟩ := hForward k n hn
      obtain rfl := Option.some.inj (hn₁.symm.trans hn)
      exact ⟨K, N', hN', hPlace.symm⟩
    · rintro ⟨K, N', hN', rfl⟩
      obtain ⟨k, f, n, N₁, hn, hN₁, _, hPlace, _⟩ := hBackward K N' hN'
      obtain rfl := Option.some.inj (hN₁.symm.trans hN')
      exact ⟨k, n, hn, hPlace⟩

variable {m : Machine} {method : Method} {entry : State} {g : Graph}

/-- A method that adds one to its argument unless that is zero, with instructions that do nothing and some that
are never reached. -/
def sweptMethod : Method where
  reference := ⟨⟨"La;"⟩, "sweep", [.int], .int⟩
  flags := { static := true }
  locals := 1
  code := [.nop, .branch .eq 1 none 8, .goto 6, .binary .add .int 1 1 (.literal 1), .nop, .goto 12,
    .returnValue 1, .const 0 (.int 1), .returnValue 0]
  tries := []

theorem bounded_sweptMethod : sweptMethod.Bounded := nofun

end DeadCode

end Dalvik
