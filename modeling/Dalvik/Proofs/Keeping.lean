import Dalvik.Proofs.Rewriting

/-!
What an edit that leaves the end of a method alone keeps: the graph fits its method, which stays closed. Instructions are
removed one by one, so that the end is closed only when the last of those after some instruction that does not go on is gone.
-/

namespace Dalvik

namespace Graph

/-- An edit: the graph still fits its method. -/
structure Maintains (g g' : Graph) : Prop where
  consistent : g'.Consistent
  shaped : g.Shaped → g'.Shaped
  entry : g.Widens g'

theorem Maintains.trans {g g' g'' : Graph} (h : g.Maintains g') (h' : g'.Maintains g'') : g.Maintains g'' where
  consistent := h'.consistent
  shaped hg := h'.shaped (h.shaped hg)
  entry := h.entry.trans h'.entry

/-- An edit that leaves the end of a method alone: the method is closed if it was. -/
structure Keeps (g g' : Graph) : Prop extends g.Maintains g' where
  closed : g.method.Closed → g'.method.Closed

theorem Keeps.refl {g : Graph} (hg : g.Consistent) : g.Keeps g where
  consistent := hg
  shaped h := h
  entry := .refl g
  closed h := h

theorem Keeps.trans {g g' g'' : Graph} (h : g.Keeps g') (h' : g'.Keeps g'') : g.Keeps g'' where
  toMaintains := h.toMaintains.trans h'.toMaintains
  closed hg := h'.closed (h.closed hg)

theorem Becomes.keeps {g g' : Graph} {move : Nat → Option Nat} (h : g.Becomes g' move)
    (hClosed : g.method.Closed → g'.method.Closed) : g.Keeps g' where
  consistent := h.consistent
  shaped := h.shaped
  entry := h.entry
  closed := hClosed

end Graph

namespace Method

variable {m : Method} {p : Nat} {as : List Address}

/-- A method is closed as soon as the instructions at some addresses are gone. -/
def ClosedBut (m : Method) (as : List Address) : Prop :=
  ∃ q i, m.code[q]? = some i ∧ i.fallsThrough = false ∧ m.code.addressAt q ∉ as ∧
    ∀ p, q < p → p < m.code.length → m.code.addressAt p ∈ as

theorem ClosedBut.congr {bs : List Address} (h : m.ClosedBut as) (hSame : ∀ a, a ∈ as ↔ a ∈ bs) : m.ClosedBut bs := by
  obtain ⟨q, i, hi, hStops, hKept, hAfter⟩ := h
  exact ⟨q, i, hi, hStops, mt (hSame _).mpr hKept, fun p hq hp => (hSame _).mp (hAfter p hq hp)⟩

theorem ClosedBut.closed (h : m.ClosedBut []) : m.Closed := by
  obtain ⟨q, i, hi, hStops, _, hAfter⟩ := h
  have hq : q < m.code.length := (List.getElem?_eq_some_iff.mp hi).1
  have hLast : q = m.code.length - 1 := by
    by_contra hOther
    exact List.not_mem_nil (hAfter (q + 1) (Nat.lt_succ_self q) (by omega))
  exact ⟨i, by rw [List.getLast?_eq_getElem?, ← hLast, hi], hStops⟩

/-- The last one of the instructions that go is the first to be removed. -/
theorem ClosedBut.without (h : m.ClosedBut (m.code.addressAt p :: as)) (hp : p < m.code.length)
    (hOrder : ∀ b ∈ as, b < m.code.addressAt p) : (m.without p).ClosedBut as := by
  obtain ⟨q, i, hi, hStops, hKept, hAfter⟩ := h
  have hq : q < m.code.length := (List.getElem?_eq_some_iff.mp hi).1
  have hOther : q ≠ p := fun hSame => hKept (hSame ▸ .head _)
  have hLength := without_length hp
  rcases Nat.lt_or_gt_of_ne hOther with hBefore | hBehind
  · -- what is behind the instruction that stays is before the one that is removed
    have hLast {n : Nat} (hn : p < n) (hEnd : n < m.code.length) : False := by
      rcases List.mem_cons.mp (hAfter n (Nat.lt_trans hBefore hn) hEnd) with hSame | hMem
      · exact Nat.ne_of_gt (Code.addressAt_lt hn (Nat.le_of_lt hEnd)) hSame
      · exact Nat.lt_asymm (hOrder _ hMem) (Code.addressAt_lt hn (Nat.le_of_lt hEnd))
    refine ⟨q, i.mapTargets (m.splice p 1 [] false).2.label, ?_, by simpa using hStops, ?_, fun n hn hEnd => ?_⟩
    · rw [without_getElem? hp, if_pos hBefore, hi]
      rfl
    · rw [without_addressAt_of_le hp (Nat.le_of_lt hBefore)]
      exact fun hMem => hKept (.tail _ hMem)
    · have hLess : n < p := by
        by_contra hNot
        exact hLast (n := n + 1) (by omega) (by omega)
      rw [without_addressAt_of_le hp (Nat.le_of_lt hLess)]
      refine (List.mem_cons.mp (hAfter n hn (by omega))).resolve_left fun hSame => ?_
      exact Nat.ne_of_lt (Code.addressAt_lt hLess (Nat.le_of_lt hp)) hSame
  · -- the instruction that stays is the last one
    have hNone {n : Nat} (hn : q < n) (hEnd : n < m.code.length) : False := by
      have hLess := Code.addressAt_lt (Nat.lt_trans hBehind hn) (Nat.le_of_lt hEnd)
      rcases List.mem_cons.mp (hAfter n hn hEnd) with hSame | hMem
      · exact Nat.ne_of_gt hLess hSame
      · exact Nat.lt_asymm (hOrder _ hMem) hLess
    refine ⟨q - 1, i.mapTargets (m.splice p 1 [] false).2.label, ?_, by simpa using hStops, fun hMem => ?_,
      fun n hn hEnd => (hNone (n := n + 1) (by omega) (by omega)).elim⟩
    · rw [without_getElem? hp, if_neg (by omega), show q - 1 + 1 = q by omega, hi]
      rfl
    · have hLess : (m.without p).code.addressAt p ≤ (m.without p).code.addressAt (q - 1) :=
        (Code.addressAt_le_iff (by omega) (by omega)).mpr (by omega)
      rw [without_addressAt_of_le hp (Nat.le_refl p)] at hLess
      exact Nat.not_lt_of_le hLess (hOrder _ hMem)

end Method

namespace Edit

variable {d : Draft}

@[simp] theorem leads_method {Q : Method → Draft → Prop} :
    Leads method d Q ↔ Q d.graph.method d := Iff.rfl

/-- Replacing an instruction that falls through by others leaves the end of the method alone. -/
theorem replaceMany_leads {p : Nat} {i : Instruction Address} {new : Code}
    (hd : d.graph.Consistent) (hi : d.graph.method.code[p]? = some i)
    (hFalls : i.fallsThrough = true) (hNew : new ≠ [])
    (hAdmits : ∀ i ∈ new, d.graph.method.Admits i) :
    Leads (replaceMany (d.graph.method.code.addressAt p) new) d fun r d' =>
      d.graph.Keeps d'.graph ∧ d'.graph.method = (d.graph.method.splice p 1 new true).1 ∧
        r.label = (d.graph.method.splice p 1 new true).2.label := by
  have hBound : p < d.graph.method.code.length := (List.getElem?_eq_some_iff.mp hi).1
  unfold Leads
  rw [replaceMany, index_bind, Code.indexOf?_addressAt hBound]
  have hMoves := Method.replacement_moves (m := d.graph.method) hBound hNew
  have hBecomes := Graph.becomes_replacement hd hBound hNew hAdmits
  have hMethod := (Graph.method_relocate hd.piled hMoves fun _ _ _ => Code.isSome_replacing).1
  refine ⟨hBecomes.keeps fun hClosed => ?_, hMethod, rfl⟩
  rw [hMethod]
  exact hClosed.splice (hClosed.lt_of_fallsThrough hi hFalls) _ _

theorem replace_leads {p : Nat} {i new : Instruction Address} (hd : d.graph.Consistent)
    (hi : d.graph.method.code[p]? = some i) (hFalls : i.fallsThrough = true)
    (hAdmits : d.graph.method.Admits new) :
    Leads (replace (d.graph.method.code.addressAt p) new) d fun r d' =>
      d.graph.Keeps d'.graph ∧ d'.graph.method = (d.graph.method.splice p 1 [new] true).1 ∧
        r.label = (d.graph.method.splice p 1 [new] true).2.label :=
  replaceMany_leads hd hi hFalls (List.cons_ne_nil _ _) fun _ h => List.mem_singleton.mp h ▸ hAdmits

/-- A single removal is refused, or takes the instruction at its position out of the method. -/
theorem remove_spec {p : Nat} {i : Instruction Address} (hd : d.graph.Consistent)
    (hi : d.graph.method.code[p]? = some i) (hFalls : i.fallsThrough = true) :
    (∃ e, remove (d.graph.method.code.addressAt p) d = (.error e, d)) ∨
      ∃ g, remove (d.graph.method.code.addressAt p) d =
          (.ok (d.graph.method.splice p 1 [] false).2, { d with graph := g }) ∧
        d.graph.Keeps g ∧ g.method = d.graph.method.without p := by
  have hBound : p < d.graph.method.code.length := (List.getElem?_eq_some_iff.mp hi).1
  have hp := Code.indexOf?_addressAt hBound
  rcases removeAll_spec hd [d.graph.method.code.addressAt p] with hRefused | ⟨r, g, hRun, hBecomes⟩
  · exact .inl hRefused
  · cases hCheck : d.graph.checkRemoval (Graph.ascending [d.graph.method.code.addressAt p]) with
    | error e =>
        have hRefused := removeAll_of_error hCheck
        rw [hRun] at hRefused
        cases congrArg Prod.fst hRefused
    | ok _ =>
        have hEach := removeAll_of_ok hCheck
        rw [hRun] at hEach
        simp only [Graph.ascending, List.foldl_cons, List.foldl_nil, Graph.insertAddress,
          List.reverse_singleton] at hEach
        rw [removeEach_cons hp] at hEach
        have hParts : r = (d.graph.method.splice p 1 [] false).2 ∧ g = d.graph.removeAt p := by
          have hPair := Prod.mk.inj hEach
          exact ⟨Except.ok.inj hPair.1, congrArg Draft.graph hPair.2⟩
        have hMethod : g.method = d.graph.method.without p := by
          rw [hParts.2]
          exact (Graph.removeAt_method hd.piled hBound).1
        refine .inr ⟨g, ?_, hBecomes.keeps fun hClosed => ?_, hMethod⟩
        · rw [← hParts.1]
          exact hRun
        · rw [hMethod]
          exact hClosed.splice (hClosed.lt_of_fallsThrough hi hFalls) _ _

theorem removeAll_leads (hd : d.graph.Consistent) (as : List Address) :
    Leads (removeAll as) d fun _ d' => d.graph.Maintains d'.graph := by
  unfold Leads
  rcases removeAll_spec hd as with ⟨e, hRefused⟩ | ⟨moved, g, hRun, hBecomes⟩
  · rw [hRefused]
    trivial
  · rw [hRun]
    exact ⟨hBecomes.consistent, hBecomes.shaped, hBecomes.entry⟩

theorem removeEach_closed {as : List Address} (h : d.graph.Removing as) (hClosed : d.graph.method.ClosedBut as)
    (combined : Relocation) :
    Leads (removeEach combined as) d fun _ d' => d'.graph.method.Closed := by
  induction as generalizing d combined with
  | nil => exact hClosed.closed
  | cons a as ih =>
      obtain ⟨p, hp, rfl⟩ := h.here a (.head _)
      obtain ⟨hOrder, _⟩ := List.pairwise_cons.mp h.order
      unfold Leads
      rw [removeEach_cons (Code.indexOf?_addressAt hp)]
      refine ih (d := { d with graph := d.graph.removeAt p }) (h.removeAt hp) ?_ _
      rw [(Graph.removeAt_method h.piled hp).1]
      exact hClosed.without hp hOrder

/-- A removal leaves a method closed if the last one of the other instructions is one behind which control does not go
on. -/
theorem removeAll_closed {as : List Address} (hd : d.graph.Consistent) (hClosed : d.graph.method.ClosedBut as) :
    Leads (removeAll as) d fun _ d' => d'.graph.method.Closed := by
  unfold Leads
  cases hCheck : d.graph.checkRemoval (Graph.ascending as) with
  | error e =>
      rw [removeAll_of_error hCheck]
      trivial
  | ok _ =>
      rw [removeAll_of_ok hCheck]
      refine removeEach_closed (Graph.removing_of_checkRemoval hd hCheck) (hClosed.congr fun a => ?_) .empty
      rw [List.mem_reverse, Graph.mem_ascending]

theorem refresh_leads (m : Machine) (a : Address) (hd : d.graph.Consistent) :
    Leads (refresh m a) d fun _ d' =>
      d.graph.Keeps d'.graph ∧ d'.graph.method = d.graph.method := by
  have hKeeps : d.graph.Keeps (refresh m a d).2.graph ∧
      (refresh m a d).2.graph.method = d.graph.method := by
    rcases refresh_graph m a d with hSame | hAgain
    · rw [hSame]
      exact ⟨.refl hd, rfl⟩
    · have hMethod : (Graph.reapply m a d.graph).2.method = d.graph.method :=
        (Graph.reapplyNodes_spec m a (d.graph.pile a) hd).1.method
      rw [hAgain]
      exact ⟨(Graph.reapply_spec m a hd).keeps fun hClosed => by rwa [hMethod], hMethod⟩
  unfold Leads
  split
  · rename_i d' hRun
    rwa [hRun] at hKeeps
  · trivial

theorem addLocals_leads (count : Nat) (hd : d.graph.Consistent) :
    Leads (addLocals count) d fun _ d' =>
      d.graph.Keeps d'.graph ∧ d'.graph.method = d.graph.method.addLocals count ∧
        d.graph.method.hasRoom count = true := by
  unfold Leads
  cases hRoom : d.graph.hasRoom count with
  | false =>
      rw [addLocals_of_full hRoom]
      trivial
  | true =>
      rw [addLocals_of_hasRoom hRoom]
      exact ⟨(Graph.becomes_addLocals hd count).keeps fun hClosed => hClosed.addLocals count, rfl,
        Graph.hasRoom_method hRoom⟩

end Edit

end Dalvik
