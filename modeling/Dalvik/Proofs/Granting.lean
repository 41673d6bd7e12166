import Dalvik.Proofs.Certainty
import Dalvik.Proofs.Unreflecting

/-!
Edits that are granted. What passes remove after all executions have gone where they were certain to go has only gone
on to the next instruction, so that no pass asks for an edit that is refused. What can still fail is executing an
instruction again.
-/

namespace Dalvik

/-- An edit has not been refused, but an instruction could not be executed again, or registers not be numbered. -/
def EditError.Fails (e : EditError) : Prop := ∃ a cause, e = .execution a cause

/-- An edit at a position of a method leaves certain what has been certain, and what is before the position alone. -/
structure Draft.Upholds (d d' : Draft) (p : Nat) : Prop where
  consistent : d'.graph.Consistent
  takes : d.graph.method.TakesWithin → d'.graph.method.TakesWithin
  spares : d.graph.Spares d'.graph p
  guided : (d.stale = false → d.graph.Guided) → d'.stale = false → d'.graph.Guided

theorem Draft.Upholds.trans {d d' d'' : Draft} {p q : Nat} (h : d.Upholds d' q) (h' : d'.Upholds d'' p)
    (hLess : p ≤ q) : d.Upholds d'' p where
  consistent := h'.consistent
  takes hTakes := h'.takes (h.takes hTakes)
  spares := (h.spares.mono hLess).trans h'.spares
  guided hGuided := h'.guided (h.guided hGuided)

namespace Edit

variable {d : Draft} {p : Nat} {i : Instruction Address} {m : Machine}

@[simp] theorem concludes_method {Q : Method → Draft → Prop} {E : EditError → Prop} :
    Concludes method d Q E ↔ Q d.graph.method d := Iff.rfl

/-- What has only gone on to the next instruction is removed. -/
theorem remove_upholds (hd : d.graph.Consistent) (hp : p + 1 < d.graph.method.code.length)
    (hOn : d.graph.GoesOn (d.graph.method.code.addressAt p)) :
    Yields (remove (d.graph.method.code.addressAt p)) d fun _ d' => d.Upholds d' p := by
  have hHere := Nat.lt_of_succ_lt hp
  have hCheck := hOn.checkRemoval hd hp
  have hRemoving : d.graph.Removing (Graph.ascending [d.graph.method.code.addressAt p]).reverse :=
    Graph.removing_of_checkRemoval hd hCheck
  have hConsistent : (d.graph.removeAt p).Consistent := (hRemoving.removeAt hHere).consistent
  have hMethod := (Graph.removeAt_method hd.piled hHere).1
  have hRevised := Graph.revised_removeAt hd.piled hHere hd.linked hOn
  have hRanked := Method.ranked_without hp
  rw [← hMethod] at hRanked
  refine yields_of_eq (remove_of_ok (Code.indexOf?_addressAt hHere) hCheck)
    ⟨hConsistent, ?_, ?_, fun hGuided hStale => ?_⟩
  · exact hRanked.takesWithin_exchanged hHere rfl
  · exact hRevised.spares_exchanged hd.piled hd.linked hConsistent.linked hHere hMethod
  · have hOld := hGuided hStale
    refine hRevised.guided hd.piled hd.linked hConsistent.linked hOld.whole fun k n j hn hj => ?_
    refine hOld.follows k n j hn ?_
    unfold Code.exchanged at hj
    split at hj
    · cases hj
    · exact hj

/-- Executing an instruction again is not refused where there is one. -/
theorem refresh_concludes (m : Machine) (hd : d.graph.Consistent) (hp : p < d.graph.method.code.length) :
    Concludes (refresh m (d.graph.method.code.addressAt p)) d (fun _ d' => d.graph.Reexecuted d'.graph ∧
      (d'.stale = false → d.stale = false ∧
        (Graph.reapply m (d.graph.method.code.addressAt p) d.graph).1 = .ok true)) EditError.Fails := by
  have hAgain := (Graph.reapplyNodes_spec m (d.graph.method.code.addressAt p)
    (d.graph.pile (d.graph.method.code.addressAt p)) hd).1
  unfold Concludes
  rw [refresh, index_bind, Code.indexOf?_addressAt hp]
  dsimp only
  rw [stateful_bind_apply]
  change d.graph.Reexecuted (Graph.reapply m (d.graph.method.code.addressAt p) d.graph).2 at hAgain
  rcases hRun : Graph.reapply m (d.graph.method.code.addressAt p) d.graph with ⟨e | agrees, g⟩
  · exact ⟨_, e, rfl⟩
  · rw [hRun] at hAgain
    cases agrees with
    | true => exact ⟨hAgain, fun hStale => ⟨hStale, rfl⟩⟩
    | false => exact ⟨hAgain, fun hFresh => by cases hFresh⟩

/-- Loading a literal in place of an instruction is not refused. If it leads where that led, then it has gone on to the
next instruction, as it is certain to do. -/
theorem load_upholds (hd : d.graph.Consistent) (hi : d.graph.method.code[p]? = some i) (hFalls : i.fallsThrough = true)
    {dst : Register} (hDst : dst < d.graph.method.registerCount) (l : Literal) :
    Concludes (Peephole.load m (d.graph.method.code.addressAt p) dst l) d (fun _ d' => d.Upholds d' p)
      EditError.Fails := by
  have hp := (List.getElem?_eq_some_iff.mp hi).1
  have hReplaced := replace_of_indexOf? (Code.indexOf?_addressAt hp) (.const dst l)
  have hLeads := replace_leads hd hi hFalls (Method.admits_const hDst l)
  have hRevised := Graph.revised_replaced hd.piled hp (.const dst l)
  have hRanked := Method.ranked_replaced hp (.const dst l)
  unfold Leads at hLeads
  rw [hReplaced] at hLeads
  obtain ⟨hKeeps, hMethod, _⟩ := hLeads
  rw [Peephole.load, concludes_bind]
  refine (yields_of_eq hReplaced ?_).concludes
  generalize (d.graph.withMethod (d.graph.method.splice p 1 [.const dst l] true).1).relocate
    ((d.graph.method.splice p 1 [.const dst l] true).2.followLabel (d.graph.method.code.addressAt p)) = g at *
  dsimp only at hKeeps hMethod
  rw [← hMethod] at hRanked
  have hSpares := hRevised.spares_exchanged hd.piled hd.linked hKeeps.consistent.linked hp hMethod
  have hLength : g.method.code.length = d.graph.method.code.length := hRanked.last.symm
  have hPlace : g.method.code.addressAt p = d.graph.method.code.addressAt p :=
    hMethod ▸ (Method.editedFrom_splice (show p + 1 ≤ d.graph.method.code.length from hp) _ _).address p (Nat.le_refl p)
  rw [← hPlace]
  refine (refresh_concludes m (d := { d with graph := g }) hKeeps.consistent (hLength ▸ hp)).imp fun _ d' hAgain => ?_
  obtain ⟨hSame, hAgrees⟩ := hAgain
  dsimp only at hSame hAgrees
  refine ⟨hSame.consistent hKeeps.consistent, fun hTakes => ?_, ?_, fun hGuided hStale => ?_⟩
  · rw [hSame.method]
    exact hRanked.takesWithin_exchanged hp rfl hTakes
  · exact hSpares.trans (hSame.spares hKeeps.consistent (hLength ▸ Nat.le_of_lt hp))
  · obtain ⟨hOld, hDone⟩ := hAgrees hStale
    refine (hGuided hOld).loaded (m := m) hd hKeeps.consistent hRevised ?_ hSame
    rwa [hRanked.place p (Nat.le_of_lt hp)]

end Edit

namespace Peephole

variable {m : Method} {machine : Machine} {d : Draft} {g g' : Graph} {p q : Nat} {i : Instruction Address} {plan : Plan}
  {x : Address × Plan} {rest : List (Address × Plan)}

/-- What is removed to carry a plan out has only gone on to the next instruction. -/
def Plan.Eased (plan : Plan) (g : Graph) (p : Nat) : Prop :=
  match plan with
  | loadClass _ _ => g.GoesOn (g.method.code.addressAt (p + 1))
  | loadString _ _ => True
  | dropCast => g.Passes p

/-- An edit behind everything that is removed leaves it so. -/
theorem Plan.Eased.spared (h : plan.Eased g p) (hSpares : g.Spares g' q) (hp : p < q)
    (hResult : ∀ dst type, plan = .loadClass dst type → p + 1 < q) : plan.Eased g' p := by
  cases plan with
  | loadClass dst type => exact hSpares.goesOn (p + 1) (hResult dst type rfl) h
  | loadString _ _ => trivial
  | dropCast => exact hSpares.passes hp h

/-- Where everything has gone where it was certain to go, what plans remove has only gone on. -/
theorem eased_of_guided (hg : g.Piled g.method.code) (hGuided : g.Guided) (hp : p < g.method.code.length)
    (hPlan : planAt? g (g.method.code.addressAt p) = some plan) : plan.Eased g p := by
  obtain ⟨hReached, i, hi, hFound⟩ := planAt?_eq_some_iff.mp hPlan
  have hOn {q : Nat} {j : Instruction Address} (hj : g.method.code.at? (g.method.code.addressAt q) = some j)
      (hBound : ∀ k n, g.node? k = some n → n.address = g.method.code.addressAt q → n.isBoundOn j = true) :
      g.GoesOn (g.method.code.addressAt q) := by
    intro k hk
    obtain ⟨n, hn, hHere⟩ := Graph.addressOf?_eq_some_iff.mp hk
    rw [← hHere] at hj ⊢
    exact (hGuided.follows k n j hn hj).on (hBound k n hn hHere)
  cases planned_of_plan? hFound with
  | loadClass hResult _ _ =>
      exact hOn (Code.at?_addressAt (moveResult_of_resultRegister? hp hResult)) fun _ _ _ _ => rfl
  | loadString _ _ => trivial
  | dropCast hHolds =>
      refine ⟨hOn hi fun k n hn hHere => ?_, hg.isReached_iff.mp hReached⟩
      exact List.all_eq_true.mp hHolds n (List.mem_filterMap.mpr ⟨k, (hg.mem_iff _ _).mpr ⟨n, hn, hHere⟩, hn⟩)

/-- A plan suits what an edit behind it has left of its instruction. -/
theorem Suits.found {m' : Method} {label : Address → Address} {bound : Nat} (h : Suits m p plan i)
    (hFrom : m.EditedFrom m' label bound) (hLast : ∀ dst, m.code[bound]? ≠ some (.moveResult dst)) (hp : p < bound) :
    Suits m' p plan (i.mapTargets label) where
  falls := by simpa using h.falls
  takesNoResult dst hSame := by
    cases i with
    | moveResult r => exact h.takesNoResult r rfl
    | _ => cases hSame
  loadClass dst type hPlan := by
    have hResult := h.loadClass dst type hPlan
    have hMore : p + 1 < bound := Nat.lt_of_le_of_ne hp fun hSame => hLast dst (hSame ▸ hResult)
    rw [hFrom.insn (p + 1) hMore, hResult]
    rfl
  loadString receiver text hPlan := by
    rw [Instruction.reads_mapTargets]
    exact h.loadString receiver text hPlan

/-- The changes that are left to be carried out remove what has only gone on. -/
structure Easing (m : Method) (rest : List (Address × Plan)) (d : Draft) : Prop where
  consistent : d.graph.Consistent
  remaining : Remaining m rest d.graph
  takes : d.graph.method.TakesWithin
  guided : d.stale = false → d.graph.Guided
  eased : ∀ p < m.code.length, ∀ plan, (m.code.addressAt p, plan) ∈ rest → plan.Eased d.graph p

theorem carryOut_upholds (machine : Machine) (hd : d.graph.Consistent) (hTakes : d.graph.method.TakesWithin)
    (hi : d.graph.method.code[p]? = some i) (hSuits : Suits d.graph.method p plan i) (hEased : plan.Eased d.graph p) :
    Concludes (carryOut machine (d.graph.method.code.addressAt p) plan) d (fun _ d' => d.Upholds d' p)
      EditError.Fails := by
  have hp := (List.getElem?_eq_some_iff.mp hi).1
  obtain ⟨hCode, _⟩ := Method.validate_eq_ok_iff.mp hd.valid
  cases plan with
  | loadString receiver text =>
      refine Edit.load_upholds hd hi hSuits.falls ((hCode i (List.mem_of_getElem? hi)).registers _ ?_) _
      exact List.mem_append_left _ (hSuits.loadString receiver text rfl)
  | dropCast =>
      rw [carryOut, concludes_bind]
      exact (Edit.remove_upholds hd (hEased.lt hp) hEased.on).concludes
  | loadClass dst type =>
      have hResult := hSuits.loadClass dst type rfl
      have hMore := (List.getElem?_eq_some_iff.mp hResult).1
      have hLast := hTakes (p + 1) (by rw [hResult]; rfl)
      rw [carryOut, concludes_bind, Edit.concludes_method, Code.next?_addressAt hMore]
      dsimp only
      rw [concludes_bind]
      refine ((Edit.remove_upholds hd hLast hEased).concludes.and_leads
        (remove_leads hd (.refl _) hMore hResult rfl)).imp fun _ d' hRemoved => ?_
      obtain ⟨hUpholds, _, label, hFrom⟩ := hRemoved
      obtain ⟨hAddress, hNow⟩ := hFrom.found (Nat.lt_succ_self p) hi
      have hDst := (hCode _ (List.mem_of_getElem? hResult)).registers dst (by simp [Instruction.writes?])
      rw [hAddress]
      refine (Edit.load_upholds hUpholds.consistent hNow (by simpa using hSuits.falls) (hFrom.registers ▸ hDst) _).imp
        fun _ d'' hLoaded => hUpholds.trans hLoaded (Nat.le_succ p)

/-- One more plan is carried out. -/
theorem Easing.concludes (h : Easing m (x :: rest) d) :
    Concludes (carryOut machine x.1 x.2) d (fun _ d' => Easing m rest d') EditError.Fails := by
  have hRemaining := h.remaining.carryOut_leads machine h.consistent
  obtain ⟨hOrder, label, bound, hFrom, hLast, hRest⟩ := h.remaining
  obtain ⟨p, i, hp, hAddress, hi, hSuits⟩ := hRest _ (.head _)
  obtain ⟨a, plan⟩ := x
  obtain rfl : a = m.code.addressAt p := hAddress
  obtain ⟨hPlace, hNow⟩ := hFrom.found hp hi
  have hBound := (List.getElem?_eq_some_iff.mp hi).1
  have hUpholds := carryOut_upholds machine h.consistent h.takes hNow (hSuits.found hFrom hLast hp)
    (h.eased p hBound plan (.head _))
  rw [← hPlace] at hUpholds
  refine (hUpholds.and_leads hRemaining).imp fun _ d' hBoth => ?_
  obtain ⟨hUpholds, _, hLater⟩ := hBoth
  refine ⟨hUpholds.consistent, hLater, hUpholds.takes h.takes, hUpholds.guided h.guided, fun q hq plan' hMem => ?_⟩
  -- a result that is taken is behind an earlier call, and is not what has just been edited
  have hLess := (List.pairwise_cons.mp hOrder).1 _ hMem
  rw [Code.addressAt_lt_iff (Nat.le_of_lt hq) (Nat.le_of_lt hBound)] at hLess
  refine (h.eased q hq plan' (.tail _ hMem)).spared hUpholds.spares hLess fun dst type hPlan => ?_
  obtain ⟨r, j, _, hThere, hj, hOther⟩ := hRest _ (.tail _ hMem)
  obtain rfl := Code.addressAt_injective (Nat.le_of_lt hq) (Nat.le_of_lt (List.getElem?_eq_some_iff.mp hj).1) hThere
  refine Nat.lt_of_le_of_ne hLess fun hSame => ?_
  have hResult := hOther.loadClass dst type hPlan
  rw [hSame, hi] at hResult
  exact hSuits.takesNoResult dst (Option.some.inj hResult)

theorem Easing.concludes_forM {r : Revision} (h : Easing m rest r.draft) :
    Concludes (rest.forM fun x => do
      Pass.edit (carryOut machine x.1 x.2)
      Pass.count x.2.category) r (fun _ r' => Easing m [] r'.draft) EditError.Fails := by
  induction rest generalizing r with
  | nil => exact h
  | cons x rest ih =>
      change Concludes ((do
        Pass.edit (carryOut machine x.1 x.2)
        Pass.count x.2.category) >>= fun _ => rest.forM _) r _ _
      rw [concludes_bind, concludes_bind, Pass.concludes_edit]
      exact h.concludes.imp fun _ d' hNow => ih (r := ⟨d', _⟩) hNow

end Peephole

/-- What the passes need of a graph, and leave: what takes a result is not the last instruction, and everything has gone
where it was certain to go, unless the graph is stale. Nothing is asked of incomplete graphs, which are never stale. -/
structure Graph.Sound (g : Graph) (stale : Bool) : Prop where
  consistent : g.Consistent
  takes : stale = true ∨ g.status = .completed → g.method.TakesWithin
  guided : stale = false → g.status = .completed → g.Guided

theorem Graph.Sound.unchanged {d : Draft} (h : d.graph.Sound false) (hStale : d.stale = false) :
    d.graph.Sound (PassResult.unchanged = .stale || d.stale) := by
  rw [hStale]
  exact h

namespace Peephole

theorem perform_concludes (machine : Machine) {r : Revision} (hStale : r.draft.stale = false)
    (h : r.draft.graph.Sound false) :
    Concludes (perform machine) r (fun now r' => r'.draft.graph.Sound (now = .stale || r'.draft.stale))
      EditError.Fails := by
  rw [perform, concludes_bind, Pass.concludes_graph, concludes_bind]
  by_cases hComplete : r.draft.graph.isComplete = true
  · rw [if_pos hComplete]
    have hDone : r.draft.graph.status = .completed := of_decide_eq_true hComplete
    have hEasing : Easing r.draft.graph.method (plans r.draft.graph).reverse r.draft := by
      refine ⟨h.consistent, remaining_plans _, h.takes (.inr hDone), fun _ => h.guided rfl hDone,
        fun p hp plan hMem => ?_⟩
      exact eased_of_guided h.consistent.piled (h.guided rfl hDone) hp
        (mem_plans_iff.mp (List.mem_reverse.mp hMem))
    refine hEasing.concludes_forM.imp fun _ r' hEnd => ?_
    refine ⟨hEnd.consistent, fun _ => hEnd.takes, fun hFresh _ => hEnd.guided ?_⟩
    exact (Bool.or_eq_false_iff.mp hFresh).2
  · rw [if_neg hComplete]
    exact Yields.concludes (yields_of_eq (v := ()) (t := r) rfl (h.unchanged hStale))

end Peephole

namespace DeadCode

variable {g : Graph} {weak : Bool}

/-- Whether the calls that are removed have gone on to the next instruction, and to no handler. -/
def callsGoOn (weak : Bool) (g : Graph) : Bool :=
  (taken weak g).all fun a => !(g.method.code.at? a).any Instruction.isCall ||
    (g.pileNodes a).all fun n => (g.method.code.next? a).any fun b => Constants.wentOn g b n

variable {a : Address} {i : Instruction Address} {kind : Category}

theorem isBoundOn_of_unused? (hCall : i.isCall = false) (h : unused? g a i = some kind) (n : Node) :
    n.isBoundOn i = true := by
  have hQuiet : i.hasSideEffect = false ∧ i.mayThrow = false := by
    unfold unused? at h
    cases i with
    | invoke form m args => cases hCall
    | _ =>
        dsimp only at h
        split at h
        · cases h
        · rename_i hPlain
          simpa using hPlain
  cases i with
  | checkCast r type => cases hQuiet.2
  | _ => simp [Node.isBoundOn, hQuiet]

/-- What is removed from a complete graph has only gone on to the next instruction, if the calls among it have. -/
theorem goesOn_of_classify? (hg : g.Piled g.method.code) (hGuided : g.Guided) (hi : g.method.code.at? a = some i)
    (hKind : classify? weak g a i = some kind)
    (hCall : weak = true → i.isCall = true → ∀ n ∈ g.pileNodes a, ∃ b, g.method.code.next? a = some b ∧
      Constants.wentOn g b n = true) : g.GoesOn a := by
  intro k hk
  obtain ⟨n, hn, rfl⟩ := Graph.addressOf?_eq_some_iff.mp hk
  have hFollows := hGuided.follows k n i hn hi
  rcases classify?_cases hi (hg.isReached_iff.mpr ⟨k, hk⟩) hKind with hIdle | ⟨hWeak, hUnused⟩
  · cases hIdle with
    | nop hNop =>
        obtain rfl := Option.some.inj (hi.symm.trans hNop)
        exact hFollows.on rfl
    | goto t hGoto hNext =>
        obtain rfl := Option.some.inj (hi.symm.trans hGoto)
        exact ⟨t, hNext, hFollows.jumps t t hNext (.goto t)⟩
  · cases hIs : i.isCall with
    | true =>
        obtain ⟨b, hNext, hWent⟩ := hCall hWeak hIs n (hg.mem_pileNodes.mpr ⟨k, hn, rfl⟩)
        exact ⟨b, hNext, (Constants.wentOn_iff hn).mp hWent⟩
    | false => exact hFollows.on (isBoundOn_of_unused? hIs hUnused n)

theorem goesOn_of_mem_taken (hg : g.Piled g.method.code) (hGuided : g.Guided)
    (hCalls : weak = true → callsGoOn weak g = true) (ha : a ∈ taken weak g) : g.GoesOn a := by
  obtain ⟨i, kind, hi, hKind⟩ := exists_of_mem_taken ha
  refine goesOn_of_classify? hg hGuided hi hKind fun hWeak hCall n hn => ?_
  have hAll := List.all_eq_true.mp (hCalls hWeak) a ha
  rw [hi, Option.any_some, hCall, Bool.not_true, Bool.false_or] at hAll
  obtain ⟨b, hNext, hWent⟩ := (Option.any_eq_true ..).mp (List.all_eq_true.mp hAll n hn)
  exact ⟨b, hNext, hWent⟩

/-- Of what can go, what is before something that is removed is removed, too. -/
theorem mem_taken_of_lt {b : Address} (hi : g.method.code.at? a = some i) (hKind : classify? weak g a i = some kind)
    (hb : b ∈ taken weak g) (hLess : a < b) : a ∈ taken weak g := by
  obtain ⟨k, hTake⟩ := exists_taken_eq weak g
  have hMem : a ∈ (candidates weak g).map Prod.fst :=
    List.mem_map.mpr ⟨(a, kind), mem_candidates.mpr ⟨i, hi, hKind⟩, rfl⟩
  have hSorted := pairwise_candidates weak g
  rw [← List.take_append_drop k ((candidates weak g).map Prod.fst)] at hMem hSorted
  rw [hTake] at hb ⊢
  refine (List.mem_append.mp hMem).resolve_right fun hLater => ?_
  exact Nat.lt_asymm hLess ((List.pairwise_append.mp hSorted).2.2 b hb a hLater)

/-- Behind what takes a result something is left. If that has not been executed, then it can go itself, and so nothing
behind it is removed. If it has been executed, then it has gone on, and so has everything behind it that is removed. -/
theorem exists_kept_after (hg : g.Piled g.method.code) (hDone : g.status = .completed) (hGuided : g.Guided)
    (hTakes : g.method.TakesWithin) (hOn : ∀ a ∈ taken weak g, g.GoesOn a) {p : Nat} (hp : p < g.method.code.length)
    {j : Instruction Address} (hj : g.method.code.spared (taken weak g) (g.method.code.addressAt p) = some j)
    (hResult : j.takesResult = true) :
    ∃ q, p < q ∧ q < g.method.code.length ∧
      g.method.code.spared (taken weak g) (g.method.code.addressAt q) ≠ none := by
  obtain ⟨hKept, hi⟩ := Code.spared_eq_some_iff.mp hj
  have hInsn : g.method.code[p]? = some j := by
    rw [Code.at?_addressAt (List.getElem?_eq_getElem hp)] at hi
    rw [List.getElem?_eq_getElem hp, hi]
  have hNext := hTakes p (by rw [hInsn, Option.any_some, hResult])
  by_contra hNone
  have hGone (q : Nat) (hLess : p < q) (hq : q < g.method.code.length) : g.method.code.addressAt q ∈ taken weak g := by
    by_contra hNot
    refine hNone ⟨q, hLess, hq, ?_⟩
    rw [Code.spared_of_not_mem hNot, Code.at?_addressAt (List.getElem?_eq_getElem hq)]
    nofun
  cases hReached : g.isReached (g.method.code.addressAt p) with
  | false =>
      have hKind : classify? weak g (g.method.code.addressAt p) j = some .deadUnreachable := by
        simp [classify?, hReached, Graph.isComplete, hDone]
      exact hKept (mem_taken_of_lt hi hKind (hGone _ (Nat.lt_succ_self p) hNext)
        (Code.addressAt_lt (Nat.lt_succ_self p) (Nat.le_of_lt hNext)))
  | true =>
      have hAfter {q : Nat} {k : NodeId} (hq : q < g.method.code.length)
          (hSteps : g.StepsOn k (g.method.code.addressAt q)) :
          q + 1 < g.method.code.length ∧ ∃ k, g.addressOf? k = some (g.method.code.addressAt (q + 1)) := by
        obtain ⟨b, hThere, ⟨c, _, hc⟩, _⟩ := hSteps
        obtain ⟨n, hn, hLess, rfl⟩ := Code.next?_eq_some_iff.mp hThere
        obtain rfl := Option.some.inj ((Code.indexOf?_addressAt hq).symm.trans hn)
        exact ⟨hLess, c, hc⟩
      have hAll (q : Nat) : p + 1 + q < g.method.code.length ∧
          ∃ k, g.addressOf? k = some (g.method.code.addressAt (p + 1 + q)) := by
        induction q with
        | zero =>
            obtain ⟨k, hk⟩ := hg.isReached_iff.mp hReached
            obtain ⟨n, hn, hHere⟩ := Graph.addressOf?_eq_some_iff.mp hk
            have hSteps := (hGuided.follows k n j hn (hHere ▸ hi)).on (by cases j <;> first | rfl | cases hResult)
            exact hAfter hp (hHere ▸ hSteps)
        | succ q ih =>
            obtain ⟨hq, k, hk⟩ := ih
            exact hAfter hq (hOn _ (hGone _ (by omega) hq) k hk)
      exact absurd (hAll g.method.code.length).1 (by omega)

end DeadCode

namespace Edit

/-- Instructions are removed one after another, the last one first, with the graph. Where all of them have only gone on
to the next instruction, whatever is left has gone where it went. -/
theorem removeEach_revises {d : Draft} {as : List Address} (h : d.graph.Removing as) (combined : Relocation) :
    ∃ r g, removeEach combined as d = (.ok r, { d with graph := g }) ∧ g.Consistent ∧ g.status = d.graph.status ∧
      ((∀ a ∈ as, d.graph.GoesOn a) → ∃ label, d.graph.Revised g label (d.graph.method.code.spared as)) := by
  induction as generalizing d combined with
  | nil =>
      refine ⟨combined, d.graph, rfl, h.consistent, rfl, fun _ => ⟨id, ?_⟩⟩
      rw [Code.spared_nil]
      exact .refl h.piled
  | cons a as ih =>
      obtain ⟨p, hp, rfl⟩ := h.here a (.head _)
      obtain ⟨hOrder, _⟩ := List.pairwise_cons.mp h.order
      have hHere : ∀ b ∈ as, d.graph.method.code.HasAddress b := fun b hb => h.here b (.tail _ hb)
      have hMethod := (Graph.removeAt_method h.piled hp).1
      rw [removeEach_cons (Code.indexOf?_addressAt hp)]
      obtain ⟨r, g, hResult, hConsistent, hStatus, hRest⟩ :=
        ih (d := { d with graph := d.graph.removeAt p }) (h.removeAt hp) _
      refine ⟨r, g, hResult, hConsistent, hStatus.trans (Graph.status_removeAt h.piled hp), fun hOn => ?_⟩
      have hFirst := Graph.revised_removeAt h.piled hp h.linked (hOn _ (.head _))
      have hSpares := hFirst.spares_exchanged h.piled h.linked (Graph.removeAt_linked h.piled h.linked hp) hp hMethod
      obtain ⟨label, hRevised⟩ := hRest fun b hb => by
        obtain ⟨q, hq, rfl⟩ := hHere b hb
        have hLess := (Code.addressAt_lt_iff (Nat.le_of_lt hq) (Nat.le_of_lt hp)).mp (hOrder _ hb)
        have hStill := hSpares.goesOn q hLess (hOn _ (.tail _ hb))
        rwa [hMethod, Method.without_addressAt_of_le hp (Nat.le_of_lt hLess)] at hStill
      refine ⟨_, hFirst.trans hRevised h.piled fun x hx => ?_⟩
      dsimp only
      rw [hMethod]
      exact Method.spared_without hp hOrder hHere hx

end Edit

namespace DeadCode

/-- Dead code removal is not refused, and leaves everything where it was certain to go if the calls that it removes have
gone on. -/
theorem perform_concludes (weak : Bool) {r : Revision} (hStale : r.draft.stale = false) (h : r.draft.graph.Sound false)
    (hCalls : weak = true → r.draft.graph.isComplete = true → callsGoOn weak r.draft.graph = true) :
    Yields (perform weak) r fun now r' => r'.draft.graph.Sound (now = .stale || r'.draft.stale) := by
  have hYields := perform_yields_of weak (r := r)
    (P := fun d' => d'.stale = false ∧ d'.graph.Sound false) (fun _ => ⟨hStale, h⟩) fun hChecked => ?_
  · refine hYields.imp fun now r' hNow => ?_
    obtain ⟨hFresh, hStill, hSound⟩ := hNow
    rw [hStill, decide_eq_false hFresh]
    exact hSound
  · have hRemoving := Graph.removing_of_checkRemoval h.consistent hChecked
    obtain ⟨moved, g, hRun, hConsistent, hStatus, hRevises⟩ := Edit.removeEach_revises hRemoving .empty
    rw [← Edit.removeAll_of_ok hChecked] at hRun
    have hMem {a : Address} :
        a ∈ (Graph.ascending (taken weak r.draft.graph)).reverse ↔ a ∈ taken weak r.draft.graph := by
      rw [List.mem_reverse, Graph.mem_ascending]
    rw [Code.spared_congr fun a => hMem] at hRevises
    have hOn (hDone : g.status = .completed) (a : Address) (ha : a ∈ taken weak r.draft.graph) :
        r.draft.graph.GoesOn a := by
      have hOld := hStatus.symm.trans hDone
      exact goesOn_of_mem_taken h.consistent.piled (h.guided rfl hOld)
        (fun hWeak => hCalls hWeak (decide_eq_true hOld)) ha
    refine yields_of_eq hRun ⟨hStale, hConsistent, fun hEither q hq => ?_, fun _ hDone => ?_⟩
    · have hDone := hEither.resolve_left Bool.false_ne_true
      have hOld := hStatus.symm.trans hDone
      obtain ⟨label, hRevised⟩ := hRevises fun a ha => hOn hDone a (hMem.mp ha)
      obtain ⟨rank, hSifted⟩ := hRevised.sifted
      refine hSifted.takesWithin (fun p hp j hj hThere => ?_) hq
      exact exists_kept_after h.consistent.piled hOld (h.guided rfl hOld) (h.takes (.inr hOld)) (hOn hDone) hp hj hThere
    · have hGuided := h.guided rfl (hStatus.symm.trans hDone)
      obtain ⟨label, hRevised⟩ := hRevises fun a ha => hOn hDone a (hMem.mp ha)
      exact hRevised.guided h.consistent.piled h.consistent.linked hConsistent.linked hGuided.whole
        fun k n j hn hj => hGuided.follows k n j hn (Code.spared_eq_some_iff.mp hj).2

end DeadCode

namespace Constants

variable {g g' : Graph} {label : Address → Address} {stands : Address → Option (Instruction Address)} {k : NodeId}
  {n : Node} {j : Instruction Address} {a : Address}

/-- What stands where nothing is planned is the instruction itself. -/
theorem standing_cases (hj : standing g a = some j) :
    (∃ i plan kind, g.method.code.at? a = some i ∧ plan? g a i = some (plan, kind) ∧ plan.insn? = some j) ∨
      g.method.code.at? a = some j := by
  unfold standing at hj
  split at hj
  · rename_i x hPlan
    obtain ⟨_, i, hi, hFound⟩ := planAt?_eq_some_iff.mp hPlan
    exact .inl ⟨i, x.1, x.2, hi, hFound, hj⟩
  · exact .inr hj

/-- Executions have gone where what stands for their instruction is certain to go. -/
theorem follows_of_standing (hg : g.Piled g.method.code) (hGuided : g.Guided) (hn : g.node? k = some n)
    (hj : standing g n.address = some j) : g.Follows k n j := by
  rcases standing_cases hj with ⟨i, plan, kind, hi, hFound, hNew⟩ | hi
  · obtain ⟨next, hNext, ⟨target, hDecides, rfl⟩ | ⟨dst, l, _, _, hConstant, rfl⟩⟩ := plan?_cases hFound
    · have hGoes := hGuided.decisive hg k n.address i next target
        (Graph.addressOf?_eq_some_iff.mpr ⟨n, hn, rfl⟩) hi hNext hDecides
      unfold goTo at hNew
      split at hNew
      · cases hNew
      · obtain rfl := Option.some.inj hNew
        exact ⟨nofun, fun _ _ _ hBound => by cases hBound; exact hGoes⟩
    · obtain rfl := Option.some.inj hNew
      refine ⟨fun _ => ⟨next, hNext, (wentOn_iff hn).mp ?_⟩, fun _ _ _ hBound => nomatch hBound⟩
      unfold constant? at hConstant
      split at hConstant
      · rename_i hWent
        exact List.all_eq_true.mp hWent n (hg.mem_pileNodes.mpr ⟨k, hn, rfl⟩)
      · cases hConstant
  · exact hGuided.follows k n j hn hi

theorem Folded.revised {bound : Nat} (h : Folded g g' label stands bound) : g.Revised g' label stands := by
  obtain ⟨rank, hRanked⟩ := h.ranked
  exact ⟨⟨rank, hRanked.sifted⟩, h.carried, h.steers, h.marks⟩

/-- Constant propagation is not refused, and leaves everything where it was certain to go. -/
theorem perform_concludes {r : Revision} (hStale : r.draft.stale = false) (h : r.draft.graph.Sound false) :
    Yields perform r fun now r' => r'.draft.graph.Sound (now = .stale || r'.draft.stale) := by
  by_cases hComplete : r.draft.graph.isComplete = true
  · have hDone : r.draft.graph.status = .completed := of_decide_eq_true hComplete
    have hGuided := h.guided rfl hDone
    have hPiled := h.consistent.piled
    obtain ⟨r', label, stands, hCarries, hFolded⟩ :=
      Folded.carriesOut_plans h.consistent (hGuided.decisive hPiled)
    have hStands {p : Nat} (hp : p < r.draft.graph.method.code.length) := hFolded.settled p hp (Nat.zero_le p)
    refine yields_of_eq (hCarries.perform_eq hDone) ⟨hFolded.consistent, fun _ => ?_, fun _ _ => ?_⟩
    · obtain ⟨rank, hRanked⟩ := hFolded.ranked
      refine hRanked.takesWithin (h.takes (.inr hDone)) fun p hp j hj hTakes => ?_
      rw [hStands hp] at hj
      rcases standing_cases hj with ⟨_, plan, _, _, _, hNew⟩ | hi
      · cases plan <;> cases hNew <;> cases hTakes
      · rw [Code.at?_addressAt (List.getElem?_eq_getElem hp)] at hi
        rw [List.getElem?_eq_getElem hp, hi, Option.any_some, hTakes]
    · refine hFolded.revised.guided hPiled h.consistent.linked hFolded.consistent.linked hGuided.whole
        fun k n j hn hj => follows_of_standing hPiled hGuided hn ?_
      obtain ⟨p, hp, hHere⟩ := hPiled.hasAddress hn
      rw [← hHere] at hj ⊢
      rwa [← hStands hp]
  · rw [perform, yields_bind]
    refine yields_of_eq (v := r.draft.graph) (t := r) rfl ?_
    rw [if_pos (by simpa using hComplete)]
    exact yields_of_eq rfl (h.unchanged hStale)

end Constants

namespace Unreflection

/-- A direct call ends with a call. -/
theorem getLast?_lower (s : Site) (receiver argv scratch : Register) :
    ∃ i, (lower s receiver argv scratch).getLast? = some i ∧ i.isCall = true := by
  cases hBox : s.target.ret.boxing? <;> simp [lower, rebox, hBox, Instruction.isCall]

/-- What becomes of an instruction ends with taking a result only if that took one. -/
theorem Becomes.exists_getLast? {code b : Code} {calls : List Call} {σ : Register → Register}
    {label : Address → Address} {n : Nat} {i : Instruction Address} (h : Becomes code calls σ label n i b) :
    ∃ j, b.getLast? = some j ∧ (j.takesResult = true → i.takesResult = true) := by
  cases h with
  | call _ _ =>
      obtain ⟨j, hj, hCall⟩ := getLast?_lower _ _ _ _
      refine ⟨j, hj, fun hTakes => ?_⟩
      cases j with
      | invoke form m args => cases hTakes
      | _ => cases hCall
  | null _ _ _ => exact ⟨_, rfl, nofun⟩
  | kept _ _ =>
      refine ⟨_, rfl, fun hTakes => ?_⟩
      cases i with
      | moveResult dst => rfl
      | binary op type dst lhs rhs => cases rhs <;> cases hTakes
      | _ => cases hTakes

theorem Unreflected.takesWithin {m m' : Method} {found : List Site} {label : Address → Address} {block : Nat → Code}
    (h : Unreflected m found m' label block) (hTakes : m.TakesWithin) : m'.TakesWithin := by
  refine Method.takesWithin_of_getLast? fun i hi => ?_
  rw [h.expanded.code] at hi
  cases hLength : m.code.length with
  | zero =>
      rw [hLength] at hi
      cases hi
  | succ n =>
      have hLast := List.getElem?_eq_getElem (show n < m.code.length by omega)
      obtain ⟨j, hj, hOnly⟩ := (h.becomes n _ hLast).exists_getLast?
      rw [hLength, Code.blocks_succ, List.getLast?_append, hj] at hi
      obtain rfl := Option.some.inj hi
      by_contra hResult
      have hMore := hTakes n (by rw [hLast]; exact hOnly (by simpa using hResult))
      omega

/-- Calling directly what is called by reflection is not refused. -/
theorem perform_concludes (cs : Classes) {r : Revision} (hStale : r.draft.stale = false)
    (h : r.draft.graph.Sound false) :
    Concludes (perform cs) r (fun now r' => r'.draft.graph.Sound (now = .stale || r'.draft.stale)) EditError.Fails := by
  by_cases hComplete : r.draft.graph.isComplete = true
  · have hTakes := h.takes (.inr (of_decide_eq_true hComplete))
    have hCases := (perform_cases cs h.consistent hComplete).and_leads (perform_leads cs h.consistent)
    refine (hCases.weaken fun e he => ⟨_, _, he.1⟩).imp fun now r' hBoth => ?_
    obtain ⟨⟨hSame, label, block, hUnreflected⟩, hKeeps⟩ := hBoth
    refine ⟨hKeeps.consistent, fun _ => hUnreflected.takesWithin hTakes, fun hFresh hDone => ?_⟩
    obtain rfl := hSame (of_decide_eq_false (Bool.or_eq_false_iff.mp hFresh).1)
    exact h.guided rfl hDone
  · rw [perform, concludes_bind, Pass.concludes_graph, if_neg hComplete]
    exact h.unchanged hStale

end Unreflection

end Dalvik
