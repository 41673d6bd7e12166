import Dalvik.Proofs.Recording
import Dalvik.Proofs.Routing

/-!
Two explorations side by side. If every step of the first is one that the second allows for, and the
second is complete, then every node of the first graph has a partner in the second.
-/

namespace Dalvik

open Run (Frugal)

namespace Successive

variable {s t : Supply} {log : List Performance}

/-- The heaps of steps that are performed one after another only grow. -/
theorem grows_before (h : Successive s log t)
    (hFrugal : ∀ r ∈ log, r.before.heap.Grows r.after.heap) {n : Nat} {r : Performance}
    (hr : log[n]? = some r) : s.heap.Grows r.before.heap := by
  induction log generalizing s n with
  | nil => cases hr
  | cons q log ih =>
      obtain ⟨rfl, hRest⟩ := h
      cases n with
      | zero =>
          obtain rfl := Option.some.inj hr
          exact .refl _
      | succ n =>
          have hLater := ih hRest (fun r hr => hFrugal r (.tail _ hr)) (by simpa using hr)
          exact (hFrugal q (.head _)).trans hLater

/-- What a step leaves of the heap only grows until a later one. -/
theorem grows_between (h : Successive s log t)
    (hFrugal : ∀ r ∈ log, r.before.heap.Grows r.after.heap) {m n : Nat} (hLess : m < n)
    {q r : Performance} (hq : log[m]? = some q) (hr : log[n]? = some r) :
    q.after.heap.Grows r.before.heap := by
  induction log generalizing s m n with
  | nil => cases hq
  | cons p log ih =>
      obtain ⟨_, hRest⟩ := h
      have hLater : ∀ r ∈ log, r.before.heap.Grows r.after.heap := fun r hr => hFrugal r (.tail _ hr)
      cases n with
      | zero => omega
      | succ n =>
          have hThere : log[n]? = some r := by simpa using hr
          cases m with
          | zero =>
              obtain rfl := Option.some.inj hq
              exact grows_before hRest hLater hThere
          | succ m => exact ih hRest hLater (Nat.lt_of_succ_lt_succ hLess) (by simpa using hq) hThere

/-- The heap only grows from the first step to the last. -/
theorem grows (h : Successive s log t) (hFrugal : ∀ r ∈ log, r.before.heap.Grows r.after.heap) :
    s.heap.Grows t.heap := by
  induction log generalizing s with
  | nil =>
      obtain rfl : t = s := h
      exact .refl _
  | cons p log ih =>
      obtain ⟨rfl, hRest⟩ := h
      have hLater := ih hRest fun r hr => hFrugal r (.tail _ hr)
      exact (hFrugal p (.head _)).trans hLater

/-- What a step leaves of the heap only grows until the end. -/
theorem grows_after (h : Successive s log t)
    (hFrugal : ∀ r ∈ log, r.before.heap.Grows r.after.heap) {r : Performance} (hr : r ∈ log) :
    r.after.heap.Grows t.heap := by
  induction log generalizing s with
  | nil => cases hr
  | cons p log ih =>
      obtain ⟨_, hRest⟩ := h
      have hLater : ∀ r ∈ log, r.before.heap.Grows r.after.heap := fun r hr => hFrugal r (.tail _ hr)
      rcases List.mem_cons.mp hr with rfl | hr
      · have hGrows := grows hRest hLater
        exact hGrows
      · exact ih hRest hLater hr

theorem first_before (h : Successive s log t) {r : Performance} (hr : log[0]? = some r) :
    r.before = s := by
  cases log with
  | nil => cases hr
  | cons q log =>
      obtain rfl := Option.some.inj hr
      exact h.1

end Successive

namespace Graph

variable {g : Graph} {c : Semantics.Context} {maxVisits : Nat} {entry : State} {s t : Supply}
  {log : List Performance}

theorem mem_places {ids : List NodeId} {x : Address × State} :
    x ∈ g.places ids ↔ ∃ id ∈ ids, ∃ n, g.node? id = some n ∧ (n.address, n.pre) = x := by
  simp [places, List.mem_filterMap, Option.map_eq_some_iff]

theorem mem_children {p id : NodeId} {n : Node} (hn : g.node? p = some n) :
    id ∈ g.childrenOf p ↔ id ∈ n.children := by
  simp [childrenOf, hn]

theorem mem_parents {p id : NodeId} {n : Node} (hn : g.node? id = some n) :
    p ∈ g.parentsOf id ↔ p ∈ n.parents := by
  simp [parentsOf, hn]

/-- Executions agree on what each of them has, if there is one. -/
theorem agreed?_eq_some_iff {α : Type} [DecidableEq α] {a : Address} {f : Node → Option α} {x : α} :
    g.agreed? a f = some x ↔ g.pileNodes a ≠ [] ∧ ∀ n ∈ g.pileNodes a, f n = some x := by
  unfold agreed?
  cases g.pileNodes a with
  | nil => simp
  | cons n rest =>
      rw [List.map_cons]
      cases hFirst : f n with
      | none => simp [hFirst]
      | some y =>
          simp only [List.all_map, List.all_eq_true, Function.comp_apply, decide_eq_true_eq]
          constructor
          · intro h
            split at h
            · rename_i hRest
              obtain rfl := Option.some.inj h
              exact ⟨List.cons_ne_nil n rest, List.forall_mem_cons.mpr ⟨hFirst, hRest⟩⟩
            · cases h
          · rintro ⟨_, hAll⟩
            obtain ⟨hHead, hRest⟩ := List.forall_mem_cons.mp hAll
            obtain rfl := Option.some.inj (hFirst.symm.trans hHead)
            rw [if_pos hRest]

theorem Piled.mem_pileNodes {code : Code} (h : g.Piled code) {a : Address} {n : Node} :
    n ∈ g.pileNodes a ↔ ∃ k, g.node? k = some n ∧ n.address = a := by
  unfold pileNodes
  rw [List.mem_filterMap]
  refine exists_congr fun k => ⟨fun ⟨hk, hn⟩ => ⟨hn, ?_⟩, fun ⟨hn, ha⟩ => ⟨(h.mem_iff a k).mpr ⟨n, hn, ha⟩, hn⟩⟩
  obtain ⟨n', hn', ha⟩ := (h.mem_iff a k).mp hk
  obtain rfl := Option.some.inj (hn.symm.trans hn')
  exact ha

/-- What executions agree on each of them has. -/
theorem Piled.eq_of_agreed? {code : Code} (h : g.Piled code) {α : Type} [DecidableEq α] {a : Address}
    {f : Node → Option α} {x : α} (hAgreed : g.agreed? a f = some x) {k : NodeId} {n : Node}
    (hn : g.node? k = some n) (ha : n.address = a) : f n = some x :=
  (agreed?_eq_some_iff.mp hAgreed).2 n (h.mem_pileNodes.mpr ⟨k, hn, ha⟩)

/-- What executions agree on in a register each of them leaves there. -/
theorem Piled.peek?_of_consensus? {code : Code} (h : g.Piled code) {a : Address} {r : Register}
    {v : Value} (hAgreed : g.consensus? a r = some v) {k : NodeId} {n : Node}
    (hn : g.node? k = some n) (ha : n.address = a) : n.post.peek? r = some v ∧ v.isKnown = true :=
  Option.filter_eq_some_iff.mp (h.eq_of_agreed? hAgreed hn ha)

namespace Recording

/-- Every step in the log is that of a node. -/
theorem applied_of_mem (h : g.Recording c maxVisits entry s log t) {r : Performance} (hr : r ∈ log) :
    ∃ n : Node, c.apply n.address n.pre r.before = (.ok r.step, r.after) := by
  obtain ⟨id, hLess, rfl⟩ := List.mem_iff_getElem.mp hr
  obtain ⟨n, hn⟩ := isLive_iff.mp (h.live id (h.length ▸ hLess))
  obtain ⟨r, hr, hRecords⟩ := h.records id n hn
  rw [List.getElem?_eq_getElem hLess] at hr
  obtain rfl := Option.some.inj hr
  exact ⟨n, hRecords.applied⟩

theorem grows_of_mem (h : g.Recording c maxVisits entry s log t)
    (hFrugal : ∀ a pre, Frugal (c.apply a pre)) :
    ∀ r ∈ log, r.before.heap.Grows r.after.heap := by
  intro r hr
  obtain ⟨n, hApplied⟩ := h.applied_of_mem hr
  have hGrows := (hFrugal n.address n.pre r.before).1
  rwa [hApplied] at hGrows

/-- Where there is a node, the entry has been executed. -/
theorem rooted (h : g.Recording c maxVisits entry s log t) {id : NodeId} {n : Node}
    (hn : g.node? id = some n) : g.Rooted entry ∧ c.method.code ≠ [] := by
  rcases h.entered with ⟨hNone, _⟩ | ⟨hRooted, hCode, _⟩
  · have hLess := lt_size_of_isLive (isLive_iff.mpr ⟨n, hn⟩)
    rw [hNone] at hLess
    exact absurd hLess (Nat.not_lt_zero id)
  · exact ⟨hRooted, hCode⟩

/-- A complete graph of a method with instructions begins with the entry. -/
theorem exists_first (h : g.Recording c maxVisits entry s log t) (hDone : g.status = .completed)
    (hCode : c.method.code ≠ []) :
    ∃ n r, g.node? 0 = some n ∧ log[0]? = some r ∧ n.address = 0 ∧ n.pre = entry ∧ r.before = s := by
  have hFull := (h.completed.mp hDone).1.resolve_left hCode
  obtain ⟨n, hn, hAddress, hPre, _⟩ := (h.entered.resolve_left fun hNone => hFull hNone.1).1.first
  obtain ⟨r, hr, _⟩ := h.records 0 n hn
  exact ⟨n, r, hn, hr, hAddress, hPre, h.successive.first_before hr⟩

/-- A node that is no root is a child of one made before it. -/
theorem exists_childrenOf (h : g.Recording c maxVisits entry s log t) {id : NodeId} {n : Node}
    (hn : g.node? id = some n) (hid : id ≠ 0) : ∃ p < id, id ∈ g.childrenOf p := by
  obtain ⟨p, hp, hParents⟩ := (h.rooted hn).1.later id n hn hid
  refine ⟨p, hp, ?_⟩
  rw [h.linked.both, mem_parents hn, hParents]
  exact .head _

/-- A node that is no root is one of the places that its parent's step leads to. -/
theorem exists_parent (h : g.Recording c maxVisits entry s log t) {id : NodeId} {n : Node}
    (hn : g.node? id = some n) (hid : id ≠ 0) :
    ∃ p np rp, p < id ∧ g.node? p = some np ∧ log[p]? = some rp ∧ np.Records g c rp ∧
      (n.address, n.pre) ∈ rp.step.successors := by
  obtain ⟨p, hp, hChild⟩ := h.exists_childrenOf hn hid
  obtain ⟨np, hnp⟩ := isLive_iff.mp (h.linked.live_of_child hChild).1
  obtain ⟨rp, hrp, hRecords⟩ := h.records p np hnp
  have hPlace : (n.address, n.pre) ∈ g.places np.children :=
    mem_places.mpr ⟨id, (mem_children hnp).mp hChild, n, hn, rfl⟩
  exact ⟨p, np, rp, hp, hnp, hrp, hRecords, hRecords.children.subset hPlace⟩

/-- What holds of the entry and, whenever it holds of an execution, of all that the step of that leads to from
then on, holds of every execution. -/
theorem induct {P : Heap → Address → State → Prop} (h : g.Recording c maxVisits entry s log t)
    (hFrugal : ∀ a pre, Frugal (c.apply a pre)) (hEntry : P s.heap 0 entry)
    (hStep : ∀ p np rp, g.node? p = some np → log[p]? = some rp → np.Records g c rp →
      P rp.before.heap np.address np.pre →
        ∀ q ∈ rp.step.successors, ∀ later, rp.after.heap.Grows later → P later q.1 q.2)
    {id : NodeId} {n : Node} {r : Performance} (hn : g.node? id = some n) (hr : log[id]? = some r) :
    P r.before.heap n.address n.pre := by
  induction id using Nat.strongRecOn generalizing n r with
  | ind id ih =>
      by_cases hFirst : id = 0
      · subst hFirst
        obtain ⟨n₀, hn₀, hAddress, hPre, _⟩ := (h.rooted hn).1.first
        obtain rfl := Option.some.inj (hn₀.symm.trans hn)
        rwa [hAddress, hPre, h.successive.first_before hr]
      · obtain ⟨p, np, rp, hLess, hnp, hrp, hRecords, hPlace⟩ := h.exists_parent hn hFirst
        exact hStep p np rp hnp hrp hRecords (ih p hLess hnp hrp) _ hPlace _
          (h.successive.grows_between (h.grows_of_mem hFrugal) hLess hrp hr)

/-- In a complete graph the places that a step leads to are those of the children. -/
theorem mem_successors_iff (h : g.Recording c maxVisits entry s log t) (hDone : g.status = .completed)
    {p : NodeId} {np : Node} {rp : Performance} (hnp : g.node? p = some np) (hrp : log[p]? = some rp)
    {x : Address × State} :
    x ∈ rp.step.successors ↔ ∃ id ∈ g.childrenOf p, ∃ n, g.node? id = some n ∧ (n.address, n.pre) = x := by
  rw [← (h.completed.mp hDone).2 p np rp hnp hrp, mem_places]
  simp only [mem_children hnp]

/-- In a complete graph every place that a step leads to is that of a child. -/
theorem exists_child (h : g.Recording c maxVisits entry s log t) (hDone : g.status = .completed)
    {p : NodeId} {np : Node} {rp : Performance} (hnp : g.node? p = some np) (hrp : log[p]? = some rp)
    {x : Address × State} (hx : x ∈ rp.step.successors) :
    ∃ id n r, p < id ∧ g.node? id = some n ∧ log[id]? = some r ∧ n.Records g c r ∧
      (n.address, n.pre) = x := by
  obtain ⟨id, hid, n, hn, hPlace⟩ := (h.mem_successors_iff hDone hnp hrp).mp hx
  rw [mem_children hnp] at hid
  obtain ⟨r, hr, hRecords⟩ := h.records id n hn
  refine ⟨id, n, r, ?_, hn, hr, hRecords, hPlace⟩
  have hParent : p ∈ n.parents := by
    rw [← mem_parents hn, ← h.linked.both, mem_children hnp]
    exact hid
  by_cases hFirst : id = 0
  · obtain ⟨n₀, hn₀, _, _, hParents⟩ := (h.rooted hn).1.first
    rw [hFirst, hn₀] at hn
    obtain rfl := Option.some.inj hn
    rw [hParents] at hParent
    cases hParent
  · obtain ⟨p', hp', hParents⟩ := (h.rooted hn).1.later id n hn hFirst
    rw [hParents] at hParent
    exact List.mem_singleton.mp hParent ▸ hp'

end Recording

/-- An execution in the first of two runs and one in the second which it is like. `f` says where the places
of the second run are in the first. -/
structure Partners (Λ : Links) (f : Address → Address) (n n' : Node) (r r' : Performance) : Prop where
  place : n.address = f n'.address
  follows : n.pre.Follows Λ n'.pre
  bond : Λ.Bond r.before.heap r'.before.heap

variable {g' : Graph} {c' : Semantics.Context} {maxVisits' : Nat} {entry' : State} {s' t' : Supply}
  {log' : List Performance} {Λ₀ : Links} {f : Address → Address} {handler : Address → Prop}

/-- Steps that have been performed are related as the runs are. -/
theorem Partners.covers {n n' : Node} {r r' : Performance} {Λ : Links}
    (hTracks : Run.Tracks Λ (c.apply n.address n.pre) (c'.apply n'.address n'.pre) r.before r'.before
      fun Λ' => Step.Covers Λ' f handler)
    (h : n.Records g c r) (h' : n'.Records g' c' r') :
    ∃ Λ', Λ.Advances r.before.heap r'.before.heap Λ' r.after.heap r'.after.heap ∧
      Step.Covers Λ' f handler r.step r'.step := by
  have hEnds := hTracks _ _ h'.applied
  unfold Run.Ends at hEnds
  rwa [h.applied] at hEnds

/-- What the steps of partners have in common, the steps of their children have, too, if only every step
of the first run is one that the second allows for. -/
theorem exists_partner (h : g.Recording c maxVisits entry s log t)
    (h' : g'.Recording c' maxVisits' entry' s' log' t') (hDone : g'.status = .completed)
    (hFrugal : ∀ a pre, Frugal (c.apply a pre)) (hFrugal' : ∀ a pre, Frugal (c'.apply a pre))
    (hCode : c.method.code ≠ [] → c'.method.code ≠ []) (hZero : 0 = f 0)
    (hBond : Λ₀.Bond s.heap s'.heap) (hEntry : entry.Follows Λ₀ entry')
    (hStep : ∀ Λ id n r id' n' r', Λ₀.Grows Λ → g.node? id = some n → log[id]? = some r →
      g'.node? id' = some n' → log'[id']? = some r' → Partners Λ f n n' r r' →
        Run.Tracks Λ (c.apply n.address n.pre) (c'.apply n'.address n'.pre) r.before r'.before
          fun Λ' => Step.Covers Λ' f handler)
    {id : NodeId} {n : Node} (hn : g.node? id = some n) :
    ∃ r id' n' r' Λ, log[id]? = some r ∧ g'.node? id' = some n' ∧ log'[id']? = some r' ∧
      Λ₀.Grows Λ ∧ Partners Λ f n n' r r' := by
  obtain ⟨r, hr, _⟩ := h.records id n hn
  suffices hPartner : ∃ id' n' r' Λ, g'.node? id' = some n' ∧ log'[id']? = some r' ∧ Λ₀.Grows Λ ∧
      n.address = f n'.address ∧ n.pre.Follows Λ n'.pre ∧ Λ.Bond r.before.heap r'.before.heap by
    obtain ⟨id', n', r', Λ, hn', hr', hΛ, hPlace, hFollows, hHeaps⟩ := hPartner
    exact ⟨r, id', n', r', Λ, hr, hn', hr', hΛ, hPlace, hFollows, hHeaps⟩
  refine h.induct (P := fun heap a pre => ∃ id' n' r' Λ, g'.node? id' = some n' ∧ log'[id']? = some r' ∧
    Λ₀.Grows Λ ∧ a = f n'.address ∧ pre.Follows Λ n'.pre ∧ Λ.Bond heap r'.before.heap) hFrugal ?_ ?_ hn hr
  · -- the entries are partners
    obtain ⟨n', r', hn', hr', hAddress, hPre, hBefore⟩ := h'.exists_first hDone (hCode (h.rooted hn).2)
    exact ⟨0, n', r', Λ₀, hn', hr', .refl Λ₀, by rwa [hAddress], by rwa [hPre], by rwa [hBefore]⟩
  · -- the parent has a partner, and what its step leads to is in the complete graph
    rintro p np rp hnp hrp hRecords ⟨p', np', rp', Λ, hnp', hrp', hΛ, hPlace, hFollows, hHeaps⟩ q hq later hLater
    obtain ⟨rp₁, hrp₁, hRecords'⟩ := h'.records p' np' hnp'
    obtain rfl := Option.some.inj (hrp₁.symm.trans hrp')
    have hTracks := hStep Λ p np rp p' np' rp₁ hΛ hnp hrp hnp' hrp' ⟨hPlace, hFollows, hHeaps⟩
    obtain ⟨Λ', hAdvances, hCovers⟩ := Partners.covers hTracks hRecords hRecords'
    obtain ⟨q', hq', hWhere, hArrives⟩ := hCovers.forward q hq
    obtain ⟨id', n', r', hLess', hn', hr', _, rfl⟩ := h'.exists_child hDone hnp' hrp' hq'
    exact ⟨id', n', r', Λ', hn', hr', hΛ.trans hAdvances.grows, hWhere, hArrives.follows,
      hAdvances.bond.grow hLater
        (h'.successive.grows_between (h'.grows_of_mem hFrugal') hLess' hrp' hr')⟩

end Graph

end Dalvik
