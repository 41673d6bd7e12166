import Dalvik.Proofs.Exploration
import Mathlib.Algebra.Ring.Nat

/-!
When a graph and its method fit together, and that an execution makes a graph of which this holds.
-/

namespace Dalvik

/-- A graph fits its method. The method is valid and laid out without gaps; the piles are at its
instructions and hold every node once, at its own address; links, which only join nodes that exist,
are recorded at both ends. -/
structure Graph.Consistent (g : Graph) : Prop where
  valid : g.method.validate = .ok ()
  layout : g.method.code.addresses =
    (List.range g.method.code.length).map fun i => ((g.method.code.take i).map Instruction.size).sum
  piled : g.Piled g.method.code
  linked : g.Linked

/-- The entry of a graph and the states of its nodes have the registers of its method. -/
structure Graph.Shaped (g : Graph) : Prop where
  entry : g.entry.Fits g.method
  pre : ∀ id n, g.node? id = some n → n.pre.Fits g.method
  post : ∀ id n, g.node? id = some n → n.post.Fits g.method

namespace Code

theorem size_eq_sum (code : Code) : code.size = (code.map Instruction.size).sum := by
  unfold size
  induction code with
  | nil => rfl
  | cons i r ih => simp [Instruction.totalSize, ih]

theorem addresses_eq_sums (code : Code) :
    code.addresses =
      (List.range code.length).map fun i => ((code.take i).map Instruction.size).sum := by
  apply List.ext_getElem?
  intro n
  by_cases h : n < code.length <;> simp [addresses_getElem?, h, addressAt, size_eq_sum]

end Code

namespace Machine

open Exploration

/-- What an exploration keeps of the graph's structure: the method and the entry it is about, the
piles, the links, and parents that exist for all that is in the queue. -/
structure Structured (method : Method) (entry : State) (q : List Pending) (g : Graph) : Prop where
  sameMethod : g.method = method
  sameEntry : g.entry = entry
  linked : g.Linked
  piled : g.Piled method.code
  parents : ∀ p ∈ q, ∀ id, p.parent = some id → g.isLive id = true

theorem Structured.cut {method : Method} {entry : State} {p : Pending} {q : List Pending}
    {g : Graph} (h : Structured method entry (p :: q) g) (ceiling : Ceiling) :
    Structured method entry q (g.cut ceiling p.parent) where
  sameMethod := by
    rw [Graph.cut_eq]
    exact h.sameMethod
  sameEntry := by
    rw [Graph.cut_eq]
    exact h.sameEntry
  linked := h.linked.cut _ _
  piled := h.piled.cut _ _
  parents r hr id hid := by
    rw [(Graph.bare_children_cut ceiling p.parent id).2.2.1]
    exact h.parents r (.tail _ hr) id hid

theorem Structured.add {method : Method} {entry : State} {p : Pending} {q : List Pending}
    {g : Graph} (h : Structured method entry (p :: q) g) (hAddress : method.code.HasAddress p.address)
    (step : Step) :
    Structured method entry (q ++ nextOf g.nodes.size step)
      (g.add p.address p.pre step.post p.parent) where
  sameMethod := by
    rw [Graph.add_eq]
    exact h.sameMethod
  sameEntry := by
    rw [Graph.add_eq]
    exact h.sameEntry
  linked := h.linked.add (fun id hid => h.parents p (.head _) id hid) _ _ _
  piled := h.piled.add hAddress _ _ _
  parents r hr id hid := by
    rw [Graph.isLive_add]
    rcases List.mem_append.mp hr with hOld | hNew
    · exact .inr (h.parents r (.tail _ hOld) id hid)
    · obtain ⟨x, _, rfl⟩ := List.mem_map.mp hNew
      exact .inl (Option.some.inj hid).symm

/-- The states of a graph and those in the queue have the registers of the entry, and what is in the
queue is at instructions. -/
structure Fitting (method : Method) (entry : State) (q : List Pending) (g : Graph) : Prop where
  pre : ∀ id n, g.node? id = some n → n.pre.SameShape entry
  post : ∀ id n, g.node? id = some n → n.post.SameShape entry
  pending : ∀ p ∈ q, method.code.HasAddress p.address ∧ p.pre.SameShape entry

theorem Fitting.cut {method : Method} {entry : State} {p : Pending} {q : List Pending} {g : Graph}
    (h : Fitting method entry (p :: q) g) (ceiling : Ceiling) :
    Fitting method entry q (g.cut ceiling p.parent) where
  pre id n hn := by
    rw [Graph.node?_cut] at hn
    split at hn
    · obtain ⟨old, hOld, rfl⟩ := Option.map_eq_some_iff.mp hn
      exact h.pre id old hOld
    · exact h.pre id n hn
  post id n hn := by
    rw [Graph.node?_cut] at hn
    split at hn
    · obtain ⟨old, hOld, rfl⟩ := Option.map_eq_some_iff.mp hn
      exact h.post id old hOld
    · exact h.post id n hn
  pending r hr := h.pending r (.tail _ hr)

theorem Fitting.add {method : Method} {entry : State} {p : Pending} {q : List Pending} {g : Graph}
    (h : Fitting method entry (p :: q) g) {step : Step} (hPost : step.post.SameShape entry)
    (hNext : ∀ s ∈ step.successors, method.code.HasAddress s.1 ∧ s.2.SameShape entry) :
    Fitting method entry (q ++ nextOf g.nodes.size step) (g.add p.address p.pre step.post p.parent) where
  pre id n hn := by
    rw [Graph.node?_add] at hn
    split at hn
    · cases hn
      exact (h.pending p (.head _)).2
    · split at hn
      · obtain ⟨old, hOld, rfl⟩ := Option.map_eq_some_iff.mp hn
        exact h.pre id old hOld
      · exact h.pre id n hn
  post id n hn := by
    rw [Graph.node?_add] at hn
    split at hn
    · cases hn
      exact hPost
    · split at hn
      · obtain ⟨old, hOld, rfl⟩ := Option.map_eq_some_iff.mp hn
        exact h.post id old hOld
      · exact h.post id n hn
  pending r hr := by
    rcases List.mem_append.mp hr with hOld | hNew
    · exact h.pending r (.tail _ hOld)
    · obtain ⟨x, hx, rfl⟩ := List.mem_map.mp hNew
      exact hNext x hx

theorem structured_start (method : Method) (entry : State) (q : List Pending)
    (hq : ∀ p ∈ q, p.parent = none) : Structured method entry q (.start method entry) where
  sameMethod := rfl
  sameEntry := rfl
  linked := ⟨fun p c => by simp [Graph.childrenOf, Graph.parentsOf, Graph.node?, Graph.start],
    fun id h => by simp [Graph.start] at h⟩
  piled := ⟨by simp [Graph.start], by simp [Graph.start], by simp [Graph.pile, Graph.node?, Graph.start],
    by simp [Graph.pile, Graph.start]⟩
  parents p hp id h := by simp [hq p hp] at h

theorem fitting_start (method : Method) (entry : State) {q : List Pending}
    (hq : ∀ p ∈ q, method.code.HasAddress p.address ∧ p.pre.SameShape entry) :
    Fitting method entry q (.start method entry) where
  pre id n h := by simp [Graph.node?, Graph.start] at h
  post id n h := by simp [Graph.node?, Graph.start] at h
  pending := hq

theorem preserves_structured (maxVisits : Nat) (c : Semantics.Context) (entry : State) :
    Preserves maxVisits c (fun q g _ _ => Structured c.method entry q g) fun _ _ => True where
  nodes p q g v s h _ := h.cut _
  visits p q g v s h _ _ := h.cut _
  record p q g v s h _ _ := by
    unfold Semantics.Context.apply
    cases hi : c.method.code.at? p.address with
    | none => trivial
    | some i =>
        have hAdd (step : Step) := h.add (Code.hasAddress_of_at? hi) step
        dsimp only
        rw [Run.ends_bind]
        refine Run.ends_of_forall (fun o t => ?_) fun _ _ => trivial
        rw [Run.ends_bind]
        exact Run.ends_of_forall (fun successors t => hAdd _) fun _ _ => trivial

/-- How an exploration of a valid method fails: in the step of an instruction, in a state with the
registers of the entry. -/
def StepFails (c : Semantics.Context) (entry : State) (e : Error) : Prop :=
  ∃ a i pre, c.method.code.at? a = some i ∧ pre.SameShape entry ∧ Semantics.Lapses c a i pre e

theorem preserves_fitting (maxVisits : Nat) {c : Semantics.Context} (entry : State)
    (hCalls : c.CallsLapse) (hValid : c.method.validate = .ok ()) :
    Preserves maxVisits c (fun q g _ _ => Fitting c.method entry q g)
      fun e _ => StepFails c entry e where
  nodes p q g v s h _ := h.cut _
  visits p q g v s h _ _ := h.cut _
  record p q g v s h _ _ := by
    obtain ⟨hAddress, hPre⟩ := h.pending p (.head _)
    refine (Semantics.Context.apply_ends hCalls hValid _ _ s).imp (fun step t hStep => ?_)
      fun e t hFails => ?_
    · exact h.add (hStep.1.trans hPre)
        fun r hr => ⟨(hStep.2 r hr).1, (hStep.2 r hr).2.trans hPre⟩
    · rcases hFails with ⟨hNone, _⟩ | ⟨i, hi, hLapse⟩
      · rw [Code.hasAddress_iff, ← Code.isSome_at?, hNone] at hAddress
        cases hAddress
      · exact ⟨p.address, i, p.pre, hi, hPre, hLapse⟩

theorem explore_structured (m : Machine) (call : Method → List Value → Run (Option Effect))
    (method : Method) (entry : State) (s : Supply) :
    Run.Ends (m.explore call method entry) s
      (fun g _ => Structured method entry [] g) fun _ _ => True := by
  unfold explore
  split
  · exact structured_start method entry [] (by simp)
  · rw [Run.ends_bind, Run.ends_budget, Run.ends_bind]
    have hStart := structured_start method entry [⟨none, 0, entry⟩] (by simp)
    refine (rounds_ends (e := ⟨.start method entry, [], [⟨none, 0, entry⟩]⟩)
      (preserves_structured m.limits.maxVisits ⟨m.classes, method, call⟩ entry) hStart).imp (fun e t h => ?_) fun _ _ he => he
    exact ⟨h.sameMethod, h.sameEntry, h.linked, h.piled, by simp⟩

theorem explore_fitting (m : Machine) (call : Method → List Value → Run (Option Effect))
    {method : Method} (entry : State) (s : Supply)
    (hCalls : (⟨m.classes, method, call⟩ : Semantics.Context).CallsLapse)
    (hValid : method.validate = .ok ()) :
    Run.Ends (m.explore call method entry) s (fun g _ => Fitting method entry [] g)
      fun e _ => StepFails ⟨m.classes, method, call⟩ entry e := by
  unfold explore
  split
  · exact fitting_start method entry (by simp)
  · rename_i hFull
    rw [Run.ends_bind, Run.ends_budget, Run.ends_bind]
    have hFirst : method.code.HasAddress 0 := by
      refine ⟨0, ?_, Code.addressAt_zero _⟩
      exact List.length_pos_iff.mpr (by simpa using hFull)
    have hStart : Fitting method entry [⟨none, 0, entry⟩] (.start method entry) :=
      fitting_start method entry (by simpa using ⟨hFirst, State.SameShape.refl entry⟩)
    refine (rounds_ends (e := ⟨.start method entry, [], [⟨none, 0, entry⟩]⟩)
      (preserves_fitting m.limits.maxVisits entry hCalls hValid) hStart).imp
      (fun e t h => ?_) fun _ _ he => he
    exact ⟨h.pre, h.post, by simp⟩

/-- What goes wrong in a call stays there, but for what is beyond the end of a list. -/
theorem callWith_ends (run : Method → State → Run Graph) (callee : Method) (values : List Value)
    (s : Supply) :
    Run.Ends (callWith run callee values) s (fun _ _ => True) fun e _ => e = .outOfBounds := by
  unfold callWith
  rw [Run.ends_bind, Run.ends_budget]
  split
  · trivial
  · split
    · trivial
    · rw [Run.ends_bind, Run.ends_attempt]
      refine Run.ends_of_forall (fun _ _ => trivial) fun e t => ?_
      cases e <;> first | rfl | trivial

theorem callsLapse_context (m : Machine) (method : Method) (depth : Nat) :
    (m.context method depth).CallsLapse := fun callee values s => by
  unfold context callAt
  cases m.limits.maxDepth - depth with
  | zero => trivial
  | succ below => exact callWith_ends _ callee values s

theorem context_zero (m : Machine) (method : Method) :
    m.run m.limits.maxDepth method = m.explore (m.context method 0).call method := by
  unfold context callAt
  rw [Nat.sub_zero]
  cases m.limits.maxDepth <;> rfl

/-- An execution explores a valid method, and leaves the heap in the graph. -/
theorem execute_eq_ok_iff {m : Machine} {method : Method} {entry : State} {g : Graph} :
    m.execute method entry = .ok g ↔ method.validate = .ok () ∧ ∃ g₀ t,
      m.explore (m.context method 0).call method entry ⟨.after entry, m.limits.maxNodes⟩ = (.ok g₀, t) ∧
        g = { g₀ with heap := t.heap } := by
  rw [execute, context_zero]
  cases hValid : method.validate with
  | error e => simp
  | ok _ =>
      constructor
      · intro h
        dsimp only at h
        split at h
        · cases h
        · rename_i g₀ t hRun
          exact ⟨rfl, g₀, t, hRun, (Except.ok.inj h).symm⟩
      · rintro ⟨_, g₀, t, hRun, rfl⟩
        rw [hRun]

/-- An execution that succeeds makes a graph that fits its method. -/
theorem execute_consistent {m : Machine} {method : Method} {entry : State} {g : Graph}
    (h : m.execute method entry = .ok g) :
    g.method = method ∧ g.entry = entry ∧ g.Consistent ∧ (entry.Fits method → g.Shaped) := by
  obtain ⟨hValid, made, t, hRun, rfl⟩ := execute_eq_ok_iff.mp h
  have hStructured := explore_structured m (m.context method 0).call method entry
    ⟨.after entry, m.limits.maxNodes⟩
  have hFitting := explore_fitting m (m.context method 0).call entry
    ⟨.after entry, m.limits.maxNodes⟩ (callsLapse_context m method 0) hValid
  unfold Run.Ends at hStructured hFitting
  rw [hRun] at hStructured hFitting
  obtain ⟨hMethod, hEntry, hLinked, hPiled, _⟩ := hStructured
  refine ⟨hMethod, hEntry, ⟨?_, Code.addresses_eq_sums _, ?_, ?_⟩, fun hFits => ?_⟩
  · exact hMethod ▸ hValid
  · subst hMethod
    exact ⟨hPiled.keys, hPiled.addresses, hPiled.mem_iff, hPiled.nodup⟩
  · exact hLinked.of_eq rfl rfl
  · subst hMethod hEntry
    exact ⟨hFits, fun id n hn => hFits.of_sameShape (hFitting.pre id n hn),
      fun id n hn => hFits.of_sameShape (hFitting.post id n hn)⟩

/-- An execution of a valid method fails only in the step of an instruction. -/
theorem execute_error {m : Machine} {method : Method} {entry : State} {e : ExecutionError}
    (hValid : method.validate = .ok ()) (h : m.execute method entry = .error e) :
    ∃ cause, e = .failed method.reference cause ∧ StepFails (m.context method 0) entry cause := by
  unfold execute at h
  simp only [hValid, context_zero] at h
  have hFitting := explore_fitting m (m.context method 0).call entry
    ⟨.after entry, m.limits.maxNodes⟩ (callsLapse_context m method 0) hValid
  unfold Run.Ends at hFitting
  split at h
  · rename_i cause s hRun
    rw [hRun] at hFitting
    exact ⟨cause, (Except.error.inj h).symm, hFitting⟩
  · cases h

end Machine

end Dalvik
