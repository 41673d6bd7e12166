import Dalvik.Proofs.Bypassing
import Dalvik.Proofs.DeadStores

/-!
Edits that are not refused. An instruction whose executions have all gone on to the next one can be removed, and a load
of a class can be executed again in every state that has its register. Both leave what is before the place of the edit
alone, so that what is still to be edited there can be edited, too.
-/

namespace Dalvik

namespace Graph

/-- There are executions of the instruction at a position, and all of them have gone on to the next one. -/
structure Passes (g : Graph) (q : Nat) : Prop where
  on : g.GoesOn (g.method.code.addressAt q)
  here : ∃ k, g.addressOf? k = some (g.method.code.addressAt q)

/-- An edit at a position of a method has left the executions of what is before that alone. -/
structure Spares (g g' : Graph) (p : Nat) : Prop where
  goesOn : ∀ q < p, g.GoesOn (g.method.code.addressAt q) → g'.GoesOn (g'.method.code.addressAt q)
  here : ∀ q < p, ∀ k, g.addressOf? k = some (g.method.code.addressAt q) →
    g'.addressOf? k = some (g'.method.code.addressAt q)
  pre : ∀ q < p, ∀ k n', g'.node? k = some n' → n'.address = g'.method.code.addressAt q →
    ∃ n, g.node? k = some n ∧ n.address = g.method.code.addressAt q ∧ n'.pre = n.pre

variable {g g' g'' : Graph} {label : Address → Address} {stands : Address → Option (Instruction Address)}
  {a b : Address} {i : Instruction Address} {k : NodeId} {p q : Nat}

theorem Spares.refl (g : Graph) (p : Nat) : g.Spares g p :=
  ⟨fun _ _ h => h, fun _ _ _ h => h, fun _ _ _ n' hn' hHere => ⟨n', hn', hHere, rfl⟩⟩

theorem Spares.passes (h : g.Spares g' p) (hq : q < p) (hPasses : g.Passes q) : g'.Passes q where
  on := h.goesOn q hq hPasses.on
  here := by
    obtain ⟨k, hk⟩ := hPasses.here
    exact ⟨k, h.here q hq k hk⟩

theorem Spares.trans (h : g.Spares g' p) (h' : g'.Spares g'' p) : g.Spares g'' p where
  goesOn q hq hOn := h'.goesOn q hq (h.goesOn q hq hOn)
  here q hq k hk := h'.here q hq k (h.here q hq k hk)
  pre q hq k n'' hn'' hHere := by
    obtain ⟨n', hn', hThere, hLater⟩ := h'.pre q hq k n'' hn'' hHere
    obtain ⟨n, hn, hFirst, hPre⟩ := h.pre q hq k n' hn' hThere
    exact ⟨n, hn, hFirst, hLater.trans hPre⟩

theorem Spares.mono (h : g.Spares g' p) (hq : q ≤ p) : g.Spares g' q :=
  ⟨fun r hr => h.goesOn r (Nat.lt_of_lt_of_le hr hq), fun r hr => h.here r (Nat.lt_of_lt_of_le hr hq),
    fun r hr => h.pre r (Nat.lt_of_lt_of_le hr hq)⟩

/-- What has gone on is not the last instruction. -/
theorem Passes.lt (h : g.Passes q) (hq : q < g.method.code.length) : q + 1 < g.method.code.length := by
  obtain ⟨k, hk⟩ := h.here
  obtain ⟨b, hNext, _⟩ := h.on k hk
  obtain ⟨n, hn, hLess, _⟩ := Code.next?_eq_some_iff.mp hNext
  obtain rfl := Option.some.inj ((Code.indexOf?_addressAt hq).symm.trans hn)
  exact hLess

/-- What has only gone on to the next instruction can be removed, unless it is the last instruction. -/
theorem GoesOn.checkRemoval (h : g.GoesOn (g.method.code.addressAt q)) (hg : g.Consistent)
    (hq : q + 1 < g.method.code.length) : g.checkRemoval [g.method.code.addressAt q] = .ok () := by
  have hHere := Nat.lt_of_succ_lt hq
  refine checkRemoval_of_last hg (fun a ha => List.mem_singleton.mp ha ▸ Code.hasAddress_addressAt hHere)
    (fun p hp hMem => ?_) fun a ha => ?_
  · have hSame := Code.addressAt_injective (by omega) (Nat.le_of_lt hHere) (List.mem_singleton.mp hMem)
    omega
  · obtain rfl := List.mem_singleton.mp ha
    refine List.any_eq_false.mpr fun n hn => ?_
    obtain ⟨k, hk, hNode⟩ := List.mem_filterMap.mp hn
    obtain ⟨b, hNext, hGoes⟩ := h k (hg.piled.mem_pile_iff_addressOf?.mp hk)
    have hNone : g.strays (g.method.code.next? (g.method.code.addressAt q)) n = false := by
      refine List.any_eq_false.mpr fun c hc => ?_
      obtain ⟨child, hChild, rfl⟩ := addressOf?_eq_some_iff.mp (hGoes.only c ((mem_children hNode).mpr hc))
      simp [hChild, hNext]
    simp [hNone]

theorem Passes.checkRemoval (h : g.Passes q) (hg : g.Consistent) (hq : q < g.method.code.length) :
    g.checkRemoval [g.method.code.addressAt q] = .ok () :=
  h.on.checkRemoval hg (h.lt hq)

/-- An edit that keeps the instructions before a position at their places leaves their executions alone. -/
theorem Persists.spares (h : g.Persists g' label stands) (hp : p ≤ g.method.code.length)
    (hStands : ∀ q < p, ∃ i, stands (g.method.code.addressAt q) = some i)
    (hLabel : ∀ q < p, label (g.method.code.addressAt q) = g'.method.code.addressAt q) : g.Spares g' p where
  goesOn q hq hOn := by
    obtain ⟨i, hi⟩ := hStands q hq
    exact hLabel q hq ▸ h.goesOn (Code.hasAddress_addressAt (Nat.lt_of_lt_of_le hq hp)) hi hOn
  here q hq k hk := by
    obtain ⟨i, hi⟩ := hStands q hq
    exact hLabel q hq ▸ h.kept k _ i hk hi
  pre q hq k n' hn' hHere := by
    obtain ⟨i, hi⟩ := hStands q hq
    obtain ⟨n, j, hn, ha, hj, hAddress, hPre⟩ := h.origin k n' hn'
    refine ⟨n, hn, ?_, hPre⟩
    exact h.injective _ _ j i ha (Code.hasAddress_addressAt (Nat.lt_of_lt_of_le hq hp)) hj hi
      (hAddress.symm.trans (hHere.trans (hLabel q hq).symm))

namespace Reexecuted

theorem addressOf?_eq (h : g.Reexecuted g') (k : NodeId) : g'.addressOf? k = g.addressOf? k :=
  h.of_field Node.address (fun _ => rfl) k

theorem childrenOf_eq (h : g.Reexecuted g') (k : NodeId) : g'.childrenOf k = g.childrenOf k := by
  rw [childrenOf, childrenOf, h.of_field Node.children fun _ => rfl]

/-- Executing an instruction again changes nothing but the states after its executions. -/
theorem exists_node (h : g.Reexecuted g') {n' : Node} (hn' : g'.node? k = some n') :
    ∃ n, g.node? k = some n ∧ n'.address = n.address ∧ n'.pre = n.pre ∧ n'.truncated = n.truncated := by
  have hSame := h.nodes k
  rw [hn', Option.map_some] at hSame
  obtain ⟨n, hn, hFields⟩ := Option.map_eq_some_iff.mp hSame.symm
  rw [Node.mk.injEq] at hFields
  obtain ⟨hAddress, hPre, _, _, _, hTruncated⟩ := hFields
  exact ⟨n, hn, hAddress.symm, hPre.symm, hTruncated.symm⟩

theorem goesTo_iff (h : g.Reexecuted g') : g'.GoesTo k b ↔ g.GoesTo k b := by
  have hReaches : g'.Reaches k b ↔ g.Reaches k b := by simp only [Reaches, h.addressOf?_eq, h.childrenOf_eq]
  constructor
  · rintro ⟨hAny, hOnly⟩
    exact ⟨hReaches.mp hAny, fun c hc => h.addressOf?_eq c ▸ hOnly c (h.childrenOf_eq k ▸ hc)⟩
  · rintro ⟨hAny, hOnly⟩
    exact ⟨hReaches.mpr hAny, fun c hc => (h.addressOf?_eq c).trans (hOnly c (h.childrenOf_eq k ▸ hc))⟩

/-- Executing an instruction again leaves the links alone. -/
theorem persists (h : g.Reexecuted g') (hg : g.Consistent) : g.Persists g' id g.method.code.at? := by
  refine ⟨fun a b _ _ hNext => ?_, fun _ _ _ _ _ _ _ _ hSame => hSame,
    fun k n' hn' => ?_, fun k a _ hk _ => (h.addressOf?_eq k).trans hk, fun k b _ hGoes => h.goesTo_iff.mpr hGoes⟩
  · rw [h.method]
    exact hNext
  · obtain ⟨n, hn, hAddress, hPre, _⟩ := h.exists_node hn'
    obtain ⟨i, hi⟩ := Code.exists_at? (hg.piled.hasAddress hn)
    exact ⟨n, i, hn, hg.piled.hasAddress hn, hi, hAddress, hPre⟩

/-- Executing an instruction again leaves the others alone. -/
theorem spares (h : g.Reexecuted g') (hg : g.Consistent) (hp : p ≤ g.method.code.length) : g.Spares g' p := by
  refine (h.persists hg).spares hp (fun q hq => ?_) fun q _ => ?_
  · exact Code.exists_at? (Code.hasAddress_addressAt (Nat.lt_of_lt_of_le hq hp))
  · rw [h.method]
    rfl

end Reexecuted

section Reapply

variable {m : Machine} {dst : Register} {d : Descriptor}

/-- Loading a class can be executed again where its register is and something follows. -/
theorem reapplyNode_yields (hg : g.Consistent) (hi : g.method.code.at? a = some (.const dst (.type d)))
    (hNext : g.method.code.next? a = some b) (hFits : ∀ n, g.node? k = some n → dst < n.pre.registerCount) :
    Yields (reapplyNode m a k) g fun _ g' => g.Reexecuted g' := by
  have hSpec := (reapplyNode_spec m a k hg).1
  have hDone : ∃ agrees, (reapplyNode m a k g).1 = .ok agrees := by
    unfold reapplyNode
    cases hn : g.node? k with
    | none => exact ⟨true, rfl⟩
    | some n =>
        obtain ⟨post, hPost⟩ := State.exists_assign (s := n.pre.resting) (hFits n hn) (.type d)
        have hStep := Semantics.Context.apply_const (c := m.context g.method 0)
          (s := ⟨g.heap, m.limits.maxNodes⟩) hi rfl hPost (Semantics.Context.next_eq_ok_iff.mpr hNext)
        dsimp only
        rw [hStep]
        exact ⟨_, rfl⟩
  obtain ⟨agrees, hAgrees⟩ := hDone
  exact yields_of_eq (Prod.ext hAgrees rfl) hSpec

theorem reapplyNodes_yields {ids : List NodeId} (hg : g.Consistent)
    (hi : g.method.code.at? a = some (.const dst (.type d))) (hNext : g.method.code.next? a = some b)
    (hFits : ∀ k ∈ ids, ∀ n, g.node? k = some n → dst < n.pre.registerCount) :
    Yields (reapplyNodes m a ids) g fun _ g' => g.Reexecuted g' := by
  induction ids generalizing g with
  | nil => exact .refl g
  | cons id ids ih =>
      rw [reapplyNodes, yields_bind]
      refine (reapplyNode_yields hg hi hNext (hFits id (.head _))).imp fun agrees g' hFirst => ?_
      split
      · refine (ih (hFirst.consistent hg) (hFirst.method ▸ hi) (hFirst.method ▸ hNext) fun k hk n' hn' => ?_).imp
          fun _ _ hRest => hFirst.trans hRest
        have hPre := hFirst.of_field Node.pre (fun _ => rfl) k
        rw [hn', Option.map_some] at hPre
        obtain ⟨n, hn, hSame⟩ := Option.map_eq_some_iff.mp hPre.symm
        exact hSame ▸ hFits k (.tail _ hk) n hn
      · exact hFirst

end Reapply

end Graph

namespace Edit

variable {d : Draft} {p : Nat} {i new : Instruction Address}

/-- An instruction whose executions have all gone on to the next one is removed. -/
theorem remove_yields (hd : d.graph.Consistent) (hBounded : d.graph.method.Bounded)
    (hi : d.graph.method.code[p]? = some i) (hFalls : i.fallsThrough = true) (hPasses : d.graph.Passes p) :
    Yields (remove (d.graph.method.code.addressAt p)) d fun _ d' =>
      d'.graph.Consistent ∧ d'.graph.method = d.graph.method.without p ∧ d.graph.Spares d'.graph p := by
  have hBound : p < d.graph.method.code.length := (List.getElem?_eq_some_iff.mp hi).1
  have hDone := remove_of_ok (Code.indexOf?_addressAt hBound) (hPasses.checkRemoval hd hBound)
  refine yields_of_eq hDone ?_
  rcases remove_spec hd hi hFalls with ⟨e, hRefused⟩ | ⟨g, hRemoved, hKeeps, hMethod⟩
  · rw [hDone] at hRefused
    cases congrArg Prod.fst hRefused
  · obtain rfl : d.graph.removeAt p = g := congrArg (fun x => x.2.graph) (hDone.symm.trans hRemoved)
    have hMoved := Method.moved_without hBounded (hPasses.lt hBound)
    rw [← hMethod] at hMoved
    have hPersists := Graph.persists_of_moved hd.piled hMoved
      (Graph.carried_removeAt hd.piled hBound)
      ((Graph.steers_removeAt hd.piled hBound hd.linked hPasses.on).bridges hd.linked hKeeps.consistent.linked)
    refine ⟨hKeeps.consistent, hMethod, hPersists.spares (Nat.le_of_lt hBound) (fun q hq => ?_) fun q hq => ?_⟩
    · have hLess := Nat.lt_trans hq hBound
      exact ⟨_, (Code.exchanged_addressAt hBound hLess (Nat.ne_of_lt hq)).trans (List.getElem?_eq_getElem hLess)⟩
    · rw [hMethod, Method.splice_label_addressAt (Nat.lt_trans hq hBound), Method.landing_of_le (Nat.le_of_lt hq)]
      rfl

/-- An instruction that falls through is replaced by another one. -/
theorem replace_spares (hd : d.graph.Consistent) (hBounded : d.graph.method.Bounded)
    (hi : d.graph.method.code[p]? = some i) (hFalls : i.fallsThrough = true) (hAdmits : d.graph.method.Admits new) :
    Yields (replace (d.graph.method.code.addressAt p) new) d fun _ d' => d'.graph.Consistent ∧
      d'.graph.method = (d.graph.method.splice p 1 [new] true).1 ∧ d.graph.Spares d'.graph (p + 1) := by
  have hBound : p < d.graph.method.code.length := (List.getElem?_eq_some_iff.mp hi).1
  have hLeads := replace_leads hd hi hFalls hAdmits
  obtain ⟨r, d', hDone, _, hGraph⟩ := (replace_yields (Code.indexOf?_addressAt hBound) new).exists_eq
  unfold Leads at hLeads
  rw [hDone] at hLeads
  obtain ⟨hKeeps, hMethod, _⟩ := hLeads
  refine yields_of_eq hDone ⟨hKeeps.consistent, hMethod, ?_⟩
  have hMoved := Method.moved_replaced hBounded hBound new
  rw [← hMethod] at hMoved
  have hCarried := Graph.carried_replaced hd.piled hBound new
  have hSteers := Graph.steers_replaced hd.piled hBound new
  rw [← hGraph] at hCarried hSteers
  have hBridges := hSteers.bridges hd.linked hKeeps.consistent.linked
  refine (Graph.persists_of_moved hd.piled hMoved hCarried hBridges).spares hBound
    (fun q hq => ?_) fun q hq => ?_
  · by_cases hHere : q = p
    · exact ⟨new, hHere ▸ Code.exchanged_here⟩
    · have hLess : q < d.graph.method.code.length := Nat.lt_of_lt_of_le hq hBound
      exact ⟨_, (Code.exchanged_addressAt hBound hLess hHere).trans (List.getElem?_eq_getElem hLess)⟩
  · rw [hMethod, Method.splice_label_addressAt (Nat.lt_of_lt_of_le hq hBound),
      Method.landing_of_le (Nat.le_of_lt_succ hq)]

/-- Executing a load of a class again where its register is and something follows does not fail. -/
theorem refresh_yields {m : Machine} {dst : Register} {type : Descriptor} {d : Draft} {a b : Address}
    (hd : d.graph.Consistent) (hi : d.graph.method.code.at? a = some (.const dst (.type type)))
    (hNext : d.graph.method.code.next? a = some b)
    (hFits : ∀ k n, d.graph.node? k = some n → n.address = a → dst < n.pre.registerCount) :
    Yields (refresh m a) d fun _ d' => d.graph.Reexecuted d'.graph := by
  obtain ⟨p, hp, _⟩ := Code.at?_eq_some_iff.mp hi
  have hAll : ∀ k ∈ d.graph.pile a, ∀ n, d.graph.node? k = some n → dst < n.pre.registerCount := by
    intro k hk n hn
    obtain ⟨n', hn', hHere⟩ := (hd.piled.mem_iff _ _).mp hk
    obtain rfl := Option.some.inj (hn'.symm.trans hn)
    exact hFits k n' hn' hHere
  obtain ⟨agrees, g', hAgain, hSame⟩ := (Graph.reapplyNodes_yields (m := m) hd hi hNext hAll).exists_eq
  have hReapply : Graph.reapply m a d.graph = (.ok agrees, g') := hAgain
  unfold Yields
  rw [refresh, index_bind, hp]
  dsimp only
  rw [stateful_bind_apply, hReapply]
  cases agrees <;> exact hSame

end Edit

end Dalvik
