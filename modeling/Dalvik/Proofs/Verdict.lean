import Dalvik.Proofs.Handling
import Dalvik.Proofs.Refinement

/-!
What is known of a call. If every path of a method with unknown arguments ends alike, then so does every
path with known ones, as long as no exception can leave the method that the graph does not show.
-/

namespace Dalvik

namespace Graph

variable {g : Graph}

theorem mem_terminals {k : NodeId} {n : Node} :
    (k, n) ∈ g.terminals ↔ g.node? k = some n ∧ n.isTerminal = true := by
  have hLive : (k, n) ∈ g.live ↔ g.node? k = some n := by
    unfold live ids
    rw [List.mem_filterMap]
    constructor
    · rintro ⟨k', _, hSame⟩
      obtain ⟨n', hn', hPair⟩ := Option.map_eq_some_iff.mp hSame
      obtain ⟨rfl, rfl⟩ := Prod.mk.inj hPair
      exact hn'
    · intro hn
      have hAlive : g.isLive k = true := isLive_iff.mpr ⟨n, hn⟩
      refine ⟨k, List.mem_filter.mpr ⟨List.mem_range.mpr (lt_size_of_isLive hAlive), hAlive⟩, ?_⟩
      rw [hn]
      rfl
  unfold terminals
  rw [List.mem_filter, hLive]

theorem mapM_eq_replicate {α β : Type} {f : α → Option β} {x : β} {as : List α}
    (h : ∀ a ∈ as, f a = some x) : as.mapM f = some (List.replicate as.length x) := by
  induction as with
  | nil => rfl
  | cons a as ih =>
      rw [List.mapM_cons, h a (.head _), ih fun b hb => h b (.tail _ hb)]
      rfl

theorem forall₂_of_mapM {α β : Type} {f : α → Option β} {as : List α} {bs : List β}
    (h : as.mapM f = some bs) : List.Forall₂ (fun a b => f a = some b) as bs := by
  induction as generalizing bs with
  | nil =>
      obtain rfl := Option.some.inj h
      exact .nil
  | cons a as ih =>
      rw [List.mapM_cons] at h
      obtain ⟨b, hb, hRest⟩ := Option.bind_eq_some_iff.mp h
      obtain ⟨bs', hbs', hSame⟩ := Option.bind_eq_some_iff.mp hRest
      obtain rfl := Option.some.inj hSame
      exact .cons hb (ih hbs')

/-- What a call is known to do if all paths return a value, or all return nothing. -/
def effectOf : Option Value → Effect
  | none => .void
  | some v => .returns v

/-- A graph has a verdict if it is complete and all of its paths return one thing that is known. -/
structure Returns (g : Graph) (x : Option Value) : Prop where
  complete : g.status = .completed
  ends : g.terminals ≠ []
  same : ∀ k n, g.node? k = some n → n.isTerminal = true → g.returned? n = some x
  known : ∀ v, x = some v → v.isKnown = true

theorem Returns.verdict? {x : Option Value} (h : g.Returns x) : g.verdict? = some (effectOf x) := by
  have hMap : g.terminals.mapM (fun n => g.returned? n.2) =
      some (List.replicate g.terminals.length x) := by
    apply mapM_eq_replicate
    rintro ⟨k, n⟩ hMem
    obtain ⟨hn, hTerminal⟩ := mem_terminals.mp hMem
    exact h.same k n hn hTerminal
  obtain ⟨p, ps, hSome⟩ := List.exists_cons_of_ne_nil h.ends
  unfold Graph.verdict?
  rw [if_pos (by simpa [isComplete] using h.complete), hMap, hSome, List.length_cons,
    List.replicate_succ]
  dsimp only
  rw [if_pos (by simp)]
  cases x with
  | none => rfl
  | some v => exact if_pos (h.known v rfl)

theorem returns_of_verdict? {V : Effect} (h : g.verdict? = some V) :
    ∃ x, g.Returns x ∧ V = effectOf x := by
  unfold Graph.verdict? at h
  split at h
  · rename_i hComplete
    split at h
    · rename_i first rest hMap
      have hEach := forall₂_of_mapM hMap
      split at h
      · rename_i hAll
        refine ⟨first, ⟨by simpa [isComplete] using hComplete, ?_, fun k n hn hTerminal => ?_, ?_⟩, ?_⟩
        · intro hNone
          rw [hNone] at hEach
          cases hEach
        · obtain ⟨y, hy, hReturned⟩ :=
            exists_of_forall₂ hEach (mem_terminals.mpr ⟨hn, hTerminal⟩)
          rcases List.mem_cons.mp hy with rfl | hRest
          · exact hReturned
          · rw [hReturned]
            exact congrArg some (by simpa using List.all_eq_true.mp hAll y hRest)
        · rintro v rfl
          by_contra hUnknown
          simp [hUnknown] at h
        · cases first with
          | none => exact (Option.some.inj h).symm
          | some v =>
              dsimp only at h
              split at h
              · exact (Option.some.inj h).symm
              · cases h
      · cases h
    · cases h
  · cases h

namespace Recording

variable {c : Semantics.Context} {maxVisits : Nat} {entry : State} {s t : Supply}
  {log : List Performance}

/-- Nothing follows the node that was made last. -/
theorem exists_terminal (h : g.Recording c maxVisits entry s log t) (hDone : g.status = .completed)
    (hSome : g.nodes.size ≠ 0) : ∃ k n, g.node? k = some n ∧ n.isTerminal = true := by
  obtain ⟨n, hn⟩ := isLive_iff.mp (h.live (g.nodes.size - 1) (by omega))
  refine ⟨g.nodes.size - 1, n, hn, ?_⟩
  have hNone : n.children = [] := by
    apply List.eq_nil_iff_forall_not_mem.mpr
    intro k hk
    obtain ⟨r, hr, hRecords⟩ := h.records _ n hn
    obtain ⟨n', hn'⟩ := isLive_iff.mp (h.linked.live_of_child ((mem_children hn).mpr hk)).2
    have hPlace : (n'.address, n'.pre) ∈ r.step.successors :=
      hRecords.children.subset (mem_places.mpr ⟨k, hk, n', hn', rfl⟩)
    obtain ⟨k', n'', _, hLess, hLive, _⟩ := h.exists_child hDone hn hr hPlace
    exact Nat.not_lt_of_le (Nat.le_of_pred_lt hLess) (lt_size_of_isLive (isLive_iff.mpr ⟨n'', hLive⟩))
  simp [Node.isTerminal, hNone, h.unmarked hDone _ n hn]

/-- In a complete graph the paths end at the steps that lead to nothing. -/
theorem terminal_iff (h : g.Recording c maxVisits entry s log t) (hDone : g.status = .completed)
    {k : NodeId} {n : Node} {r : Performance} (hn : g.node? k = some n) (hr : log[k]? = some r) :
    n.isTerminal = true ↔ r.step.successors = [] := by
  have hAll := (h.completed.mp hDone).2 k n r hn hr
  have hUnmarked := h.unmarked hDone k n hn
  rw [← hAll]
  unfold Node.isTerminal
  rw [hUnmarked]
  constructor
  · intro hEmpty
    have hNone : n.children = [] := by simpa using hEmpty
    rw [hNone]
    rfl
  · intro hEmpty
    have hNone : n.children = [] := by
      apply List.eq_nil_iff_forall_not_mem.mpr
      intro id hid
      obtain ⟨n', hn'⟩ := isLive_iff.mp (h.linked.live_of_child ((mem_children hn).mpr hid)).2
      have hPlace : (n'.address, n'.pre) ∈ g.places n.children :=
        mem_places.mpr ⟨id, hid, n', hn', rfl⟩
      rw [hEmpty] at hPlace
      cases hPlace
    simp [hNone]

end Recording

end Graph

namespace Semantics.Context

variable {c : Context} {a : Address} {i : Instruction Address} {pre : State} {s t : Supply}
  {o : Outcome} {x y : Value} {hs : List Handler} {step : Step}

/-- Which handlers are entered hangs on the type of the exception alone. -/
theorem entries_eq_nil_iff : entries x hs = [] ↔ ∀ h ∈ hs, ¬ h.MayCatch x := by
  induction hs with
  | nil => simp [entries]
  | cons h hs ih =>
      rw [entries_cons, List.forall_mem_cons, ← ih, Handler.MayCatch]
      split
      · rename_i hCatches
        simp [hCatches]
      · rename_i hCatches
        simp [hCatches]
      · rename_i hCatches
        simp [hCatches]

theorem addAll_eq_nil {ps : List (Address × State)} (h : addAll [] ps = []) : ps = [] := by
  apply List.eq_nil_iff_forall_not_mem.mpr
  intro p hp
  obtain ⟨q, hq, _⟩ := reaches_addAll (A := []) hp
  rw [h] at hq
  cases hq

/-- Where a path ends, an instruction returns or an exception is raised that nothing catches. -/
theorem returns_or_escapes (hRespects : Respects c a i pre o) (hNone : c.successors a pre o = .ok []) :
    (i = .returnVoid ∨ ∃ src, i = .returnValue src) ∨
      ∃ x, o.flow = .raise x ∧ entries x (c.method.handlersAt a) = [] := by
  have hFlow : c.flowSuccessors a pre o.post o.flow = .ok [] := by
    unfold successors at hNone
    cases hGoes : c.flowSuccessors a pre o.post o.flow with
    | error e =>
        rw [hGoes] at hNone
        cases hNone
    | ok A =>
        rw [hGoes] at hNone
        have hAll := Except.ok.inj hNone
        dsimp only at hAll
        refine congrArg Except.ok (List.eq_nil_iff_forall_not_mem.mpr fun p hp => ?_)
        have hMem : p ∈ ([] : List (Address × State)) := by
          rw [← hAll]
          split
          · rw [route_eq]
            exact subset_addAll A _ hp
          · exact hp
        cases hMem
  have hFollows := hRespects.flow
  cases hKind : o.flow with
  | next =>
      rw [hKind] at hFlow
      unfold flowSuccessors at hFlow
      cases hNext : c.next a with
      | error e =>
          rw [hNext] at hFlow
          cases hFlow
      | ok n =>
          rw [hNext] at hFlow
          cases hFlow
  | jump targets =>
      rw [hKind] at hFlow hFollows
      have hEmpty := Except.ok.inj hFlow
      rw [jump_eq] at hEmpty
      exact absurd (List.map_eq_nil_iff.mp (addAll_eq_nil hEmpty)) hFollows.1
  | stop =>
      rw [hKind] at hFollows
      exact .inl hFollows
  | raise x =>
      rw [hKind] at hFlow
      have hEmpty := Except.ok.inj hFlow
      rw [route_eq] at hEmpty
      exact .inr ⟨x, rfl, List.map_eq_nil_iff.mp (addAll_eq_nil hEmpty)⟩

/-- After a return control goes nowhere. -/
theorem stop_of_return (hReturn : i = .returnVoid ∨ ∃ src, i = .returnValue src)
    (hDoes : c.execute a i pre { pre with result := none, exception := none } s = (.ok o, t)) :
    o.flow = .stop ∧ o.hazard = none := by
  rcases hReturn with rfl | ⟨src, rfl⟩
  · obtain ⟨hOutcome, _⟩ := Prod.mk.inj hDoes
    obtain rfl := Except.ok.inj hOutcome
    exact ⟨rfl, rfl⟩
  · obtain ⟨hOutcome, _⟩ := Prod.mk.inj hDoes
    obtain ⟨v, _, hSame⟩ := except_bind_eq_ok.mp hOutcome
    obtain rfl := Except.ok.inj hSame
    exact ⟨rfl, rfl⟩

/-- What certainly catches what may be raised may catch what is raised in its place. -/
theorem mayCatch_of_catches {h : Handler} {d e : Descriptor} (hType : d = e ∨ e = .throwable)
    (hCatches : h.Catches (.unknown e)) : h.MayCatch (.unknown d) := by
  unfold Handler.Catches at hCatches
  unfold Handler.MayCatch
  change Classes.catches? h.type e = some true at hCatches
  change Classes.catches? h.type d ≠ some false
  rcases hType with rfl | rfl
  · simp [hCatches]
  · rcases catches_throwable h.type with hAll | hNone
    · simp [hAll d]
    · rw [hCatches] at hNone
      cases hNone

/-- An exception that escapes in the first run escapes in the second, too, if that allows for it only
where a handler is certain to catch it. -/
theorem escapes_of_covers {Λ : Links} {f : Address → Address} {k : Handler} {o' : Outcome}
    (hCovers : Outcome.Covers Λ f [k] o o') (hRaise : o.flow = .raise x) (hNone : entries x hs = [])
    (hCaught : ∀ y, o'.hazard = some y → ∃ h ∈ hs, h.Catches y) :
    ∃ y, o'.flow = .raise y ∧ o'.hazard = none ∧ entries y hs = [] := by
  cases hCovers with
  | alike hFlow hPost =>
      cases hFlow with
      | next | jump | stop => cases hRaise
      | @raise w v hThrows =>
          obtain rfl := Flow.raise.inj hRaise
          obtain ⟨_, hType⟩ := hThrows.resolve_left (List.cons_ne_nil _ _)
          refine ⟨v, rfl, rfl, ?_⟩
          rw [entries_eq_nil_iff] at hNone ⊢
          simpa only [Handler.MayCatch, hType] using hNone
  | hazards | certain | narrows => cases hRaise
  | @raises s t d e hl hType hShows =>
      obtain rfl := Flow.raise.inj hRaise
      obtain ⟨h, hh, hCatches⟩ := hCaught _ rfl
      exact absurd (mayCatch_of_catches hType hCatches) (entries_eq_nil_iff.mp hNone h hh)
  | silent hl hEmpty => cases hEmpty

/-- A step with an exception that escapes leads to nothing. -/
theorem successors_of_escape (hRaise : o.flow = .raise x) (hHazard : o.hazard = none)
    (hNone : entries x (c.method.handlersAt a) = []) : c.successors a pre o = .ok [] := by
  unfold successors flowSuccessors
  rw [hRaise, hHazard]
  dsimp only
  rw [route_eq, hNone]
  rfl

/-- A return leads to nothing. -/
theorem successors_of_stop (hStop : o.flow = .stop) (hHazard : o.hazard = none) :
    c.successors a pre o = .ok [] := by
  unfold successors flowSuccessors
  rw [hStop, hHazard]
  rfl

end Semantics.Context

theorem State.read_of_peek? {s : State} {r : Register} {v : Value} (h : s.peek? r = some v) :
    s.read r = .ok v := by
  refine (read_eq_ok_iff s r v).mpr ⟨?_, by rw [h]; rfl⟩
  rw [← length_registers]
  unfold peek? at h
  by_contra hBeyond
  rw [List.getElem?_eq_none (Nat.le_of_not_lt hBeyond)] at h
  cases h

namespace Graph

open Semantics Semantics.Context

/-- What the graph of a method with unknown arguments has to satisfy so that no exception leaves the
method that the graph does not show: the values on which exceptions depend are known, and where one may
be raised a handler is certain to catch it. -/
structure Guarded (G : Graph) (c : Context) : Prop where
  calls : ∀ a i, c.method.code.at? a = some i → c.RunsNoBody i
  apart : ∀ a i, c.method.code.at? a = some i → Apart id c a i
  candid : ∀ K N i hs, G.node? K = some N → c.method.code.at? N.address = some i → Candid hs i N.pre
  caught : ∀ K N i s o t x, G.node? K = some N → c.method.code.at? N.address = some i →
    c.execute N.address i N.pre { N.pre with result := none, exception := none } s = (.ok o, t) →
      o.hazard = some x → ∃ h ∈ c.method.handlersAt N.address, h.Catches x

theorem Guarded.forthright {G : Graph} {c : Context} (h : G.Guarded c) : G.Forthright c :=
  ⟨h.calls, h.apart, fun K N i hN hi => h.candid K N i _ hN hi⟩

variable {g G : Graph} {c c' : Context} {maxVisits maxVisits' : Nat} {e E : State}
  {s s' t t' : Supply} {log log' : List Performance} {x : Option Value}

theorem return_of_returned? {n : Node} {i : Instruction Address}
    (hi : G.method.code.at? n.address = some i) (h : G.returned? n = some x) :
    i = .returnVoid ∨ ∃ src, i = .returnValue src := by
  unfold returned? at h
  rw [hi] at h
  cases i with
  | returnVoid => exact .inl rfl
  | returnValue src => exact .inr ⟨src, rfl⟩
  | _ => cases h

/-- What is returned at an instruction where more is known is the number that is known anyway. -/
theorem returned?_of_shows {n N : Node} (hMethod : g.method = G.method) (hPlace : n.address = N.address)
    (hShows : n.post.Shows N.post) (hAtom : ∀ v, x = some v → v.isAtom = true)
    (h : G.returned? N = some x) : g.returned? n = some x := by
  unfold returned? at h ⊢
  rw [hMethod, hPlace]
  split at h
  · exact h
  · rename_i src hi
    obtain ⟨v, hv, rfl⟩ := Option.map_eq_some_iff.mp h
    have hRead : N.post.read src = .ok v := by
      cases hRead : N.post.read src with
      | error _ =>
          rw [hRead] at hv
          cases hv
      | ok w =>
          rw [hRead] at hv
          rw [Option.some.inj hv]
    have hKnown : v.isKnown = true := by
      have hOwn := hAtom v rfl
      cases v <;> first | rfl | cases hOwn
    have hPeek := hShows src v (hAtom v rfl) (State.peek?_of_read hRead hKnown)
    rw [State.read_of_peek? hPeek]
    rfl
  · cases h

/-- If all paths of the complete graph with unknown values return one thing, then so do those of the
complete graph with known ones. -/
theorem Returns.of_refines (h : G.Returns x) (hAtom : ∀ v, x = some v → v.isAtom = true)
    (hGuarded : G.Guarded c') (hg : g.Recording c maxVisits e s log t)
    (hG : G.Recording c' maxVisits' E s' log' t') (hDone : g.status = .completed)
    (hMethod : c.method = c'.method) (hClasses : c.classes = c'.classes) (hLapse : c.CallsLapse)
    (hLapse' : c'.CallsLapse) (hFrugal : ∀ a pre, Run.Frugal (c.apply a pre))
    (hFrugal' : ∀ a pre, Run.Frugal (c'.apply a pre)) (hRefines : e.Refines E) (he : e.Plain)
    (hE : E.Plain) (hReady : Links.Ready e E s.heap s'.heap) : g.Returns x := by
  have hSame : g.method = G.method := hg.sameMethod.trans (hMethod.trans hG.sameMethod.symm)
  have hTerminal {K : NodeId} {N : Node} {R : Performance} (hN : G.node? K = some N)
      (hR : log'[K]? = some R) (hNone : R.step.successors = []) : G.returned? N = some x :=
    h.same K N hN ((hG.terminal_iff h.complete hN hR).mpr hNone)
  refine ⟨hDone, ?_, fun k n hn hEnd => ?_, h.known⟩
  · -- the graph is not empty, as the other one is not
    have hCode : c.method.code ≠ [] := by
      obtain ⟨⟨K, N⟩, hMem⟩ := List.exists_mem_of_ne_nil _ h.ends
      rw [hMethod]
      exact (hG.rooted (mem_terminals.mp hMem).1).2
    obtain ⟨k, n, hn, hEnd⟩ := hg.exists_terminal hDone ((hg.completed.mp hDone).1.resolve_left hCode)
    exact List.ne_nil_of_mem (mem_terminals.mpr ⟨hn, hEnd⟩)
  · obtain ⟨r, K, N, R, Λ, hr, hRecords, hN, hR, hRecords', hl, hPartners⟩ :=
      exists_partner_of_refines hg hG h.complete hGuarded.forthright hMethod hClasses hLapse' hFrugal
        hFrugal' hRefines he hE hReady hn
    have hPlace : n.address = N.address := hPartners.place
    obtain ⟨i, o, hi, hDoes, hNext, _⟩ := exists_outcome hRecords.applied
    obtain ⟨i', o', hi', hDoes', hNext', _⟩ := exists_outcome hRecords'.applied
    obtain rfl : i' = i := by
      rw [hMethod, hPlace, hi'] at hi
      exact Option.some.inj hi
    have hRespects : Respects c n.address i' n.pre o := by
      have hEnds : Run.Ends
          (c.execute n.address i' n.pre { n.pre with result := none, exception := none }) r.before
          (fun o _ => Respects c n.address i' n.pre o) fun e _ => Lapses c n.address i' n.pre e :=
        execute_ends hLapse (sameShape_pass none none) i' r.before
      unfold Run.Ends at hEnds
      rwa [hDoes] at hEnds
    rw [(hg.terminal_iff hDone hn hr).mp hEnd] at hNext
    have hAt : G.method.code.at? N.address = some i' := by
      rw [hG.sameMethod]
      exact hi'
    rcases returns_or_escapes hRespects hNext with hReturn | ⟨y, hRaise, hNone⟩
    · -- a return is one in both graphs
      obtain ⟨hStop, hHazard⟩ := stop_of_return hReturn hDoes'
      have hEmpty := (successors_of_stop hStop hHazard).symm.trans hNext'
      obtain ⟨_, _, hCovers⟩ := Partners.covers
        (hGuarded.forthright.tracks hMethod hClasses hLapse' hN hRecords' hPartners) hRecords hRecords'
      refine returned?_of_shows hSame hPlace ?_ hAtom (hTerminal hN hR (Except.ok.inj hEmpty).symm)
      rw [hRecords.post, hRecords'.post]
      exact hCovers.shows
    · -- an exception that escapes would do so in both graphs, but none does in the other one
      have hTracks : Run.Tracks Λ
          (c.execute n.address (i'.mapTargets id) n.pre { n.pre with result := none, exception := none })
          (c'.execute N.address i' N.pre { N.pre with result := none, exception := none })
          r.before R.before fun Λ' => Outcome.Covers Λ' id [⟨none, 0⟩] := by
        refine execute_tracks hClasses hPartners.bond ⟨hPartners.follows.stands,
          fun _ _ => hPartners.follows.result, fun _ _ => hPartners.follows.exception⟩ ?_
          (hGuarded.calls _ _ hi') fun _ => hGuarded.candid K N i' _ hN hi'
        intro v hv
        unfold Context.next at hv ⊢
        rw [hMethod, hPlace, hv]
        rfl
      have hEnds := hTracks _ _ hDoes'
      unfold Run.Ends at hEnds
      rw [Instruction.mapTargets_id, hDoes] at hEnds
      obtain ⟨_, _, hCovers⟩ := hEnds
      rw [hMethod, hPlace] at hNone
      obtain ⟨z, hRaise', hHazard', hNone'⟩ := escapes_of_covers hCovers hRaise hNone
        fun z hz => hGuarded.caught K N i' R.before o' R.after z hN hi' hDoes' hz
      have hEmpty := (successors_of_escape hRaise' hHazard' hNone').symm.trans hNext'
      have hReturn := return_of_returned? hAt (hTerminal hN hR (Except.ok.inj hEmpty).symm)
      rw [(stop_of_return hReturn hDoes').1] at hRaise'
      cases hRaise'

end Graph

/-- Arguments of which more is known than of others: some are known of which there only the type is, and
their instances are not among the others. -/
def Value.RefineAll (as As : List Value) : Prop :=
  List.Forall₂ (fun w v => w = v ∨
    v.isKnown = false ∧ w.descriptor = v.descriptor ∧ ∀ i, w.id? = some i → ∀ u ∈ As, u.id? ≠ some i) as As

namespace Method

variable {method : Method} {as As : List Value} {e E : State}

theorem registers_startWith (h : method.startWith? As = some E) :
    E.registers = List.replicate method.locals none ++
      (As.map some ++ List.replicate (method.paramCount - As.length) none) ∧
      E.locals.length = method.locals ∧ E.params.length = method.paramCount ∧
      E.result = none ∧ E.exception = none := by
  unfold startWith? at h
  split at h
  · rename_i hFew
    obtain rfl := Option.some.inj h
    refine ⟨rfl, by simp [State.blank], ?_, rfl, rfl⟩
    rw [List.length_append, List.length_map, List.length_replicate]
    omega
  · cases h

theorem mem_startWith (h : method.startWith? As = some E) {v : Value} :
    some v ∈ E.registers ↔ v ∈ As := by
  rw [(registers_startWith h).1]
  simp [List.mem_replicate]

theorem refines_startWith (hArgs : Value.RefineAll as As) (hE : method.startWith? As = some E)
    (he : method.startWith? as = some e) : e.Refines E := by
  obtain ⟨hRegisters, hLocals, hParams, _⟩ := registers_startWith hE
  obtain ⟨hRegisters', hLocals', hParams', _⟩ := registers_startWith he
  refine ⟨⟨hLocals'.trans hLocals.symm, hParams'.trans hParams.symm⟩, ?_⟩
  rw [hRegisters, hRegisters', hArgs.length_eq]
  have hBlank {R : Value → Value → Prop} (n : Nat) :
      List.Forall₂ (Option.Rel R) (List.replicate n none) (List.replicate n none) := by
    rw [List.forall₂_same]
    intro x hx
    rw [List.eq_of_mem_replicate hx]
    exact .none
  refine List.rel_append (hBlank _) (List.rel_append ?_ (hBlank _))
  rw [List.forall₂_map_left_iff, List.forall₂_map_right_iff]
  refine hArgs.imp fun w v hRel => .some ?_
  rcases hRel with hSame | ⟨hUnknown, hType, hNew⟩
  · exact .inl hSame
  · refine .inr ⟨hUnknown, hType, fun i hi => ?_⟩
    rintro ⟨u, hu, hId⟩
    exact hNew i hi u ((mem_startWith hE).mp hu) hId

theorem plain_startWith (hE : method.startWith? As = some E) (hFlat : ∀ v ∈ As, v.Flat)
    (hKinds : ∀ v ∈ As, ∀ w ∈ As, v.id? = w.id? → v.id? ≠ none → (v.stores = [] ↔ w.stores = [])) :
    E.Plain where
  flat v hv := hFlat v ((mem_startWith hE).mp hv)
  kinds v w hv hw := hKinds v ((mem_startWith hE).mp hv) w ((mem_startWith hE).mp hw)
  passes := (registers_startWith hE).2.2.2

end Method

namespace Machine

theorem callWith_of_run {run : Method → State → Run Graph} {callee : Method} {values : List Value}
    {state : State} {s t : Supply} {g : Graph} (hBudget : s.budget ≠ 0)
    (hStart : callee.startWith? values = some state) (hRun : run callee state s = (.ok g, t)) :
    callWith run callee values s = (.ok g.verdict?, t) := by
  unfold callWith
  rw [stateful_bind_apply]
  change (if s.budget = 0 then _ else _ : Run (Option Effect)) s = _
  rw [if_neg hBudget, hStart]
  dsimp only
  rw [stateful_bind_apply]
  unfold Run.attempt
  rw [hRun]
  rfl

theorem callWith_of_spent {run : Method → State → Run Graph} {callee : Method} {values : List Value}
    {s : Supply} (hBudget : s.budget = 0) : callWith run callee values s = (.ok none, s) := by
  unfold callWith
  rw [stateful_bind_apply]
  change (if s.budget = 0 then _ else _ : Run (Option Effect)) s = _
  rw [if_pos hBudget]
  rfl

/-- What is known of a call with unknown arguments is so for a call with known ones that is explored
completely, if no exception can leave the method that the graph does not show. -/
theorem callAt_refines {m : Machine} {callee : Method} {depth : Nat} {as As : List Value}
    {s s' t t' : Supply} {V : Effect} {e E : State} {g G : Graph}
    (hCall : m.callAt depth callee As s = (.ok (some V), t)) (hAtom : ∀ v, V = .returns v → v.isAtom = true)
    (hE : callee.startWith? As = some E) (he : callee.startWith? as = some e)
    (hG : m.run (m.limits.maxDepth - (depth + 1)) callee E s = (.ok G, t))
    (hg : m.run (m.limits.maxDepth - (depth + 1)) callee e s' = (.ok g, t'))
    (hDone : g.status = .completed) (hArgs : Value.RefineAll as As) (hFirst : e.Plain) (hSecond : E.Plain)
    (hReady : Links.Ready e E s'.heap s.heap) (hGuarded : G.Guarded (m.context callee (depth + 1))) :
    m.callAt depth callee as s' = (.ok (some V), t') := by
  obtain ⟨below, hBelow⟩ : ∃ below, m.limits.maxDepth - depth = below + 1 := by
    cases hDepth : m.limits.maxDepth - depth with
    | zero =>
        unfold callAt at hCall
        rw [hDepth] at hCall
        cases hCall
    | succ below => exact ⟨below, rfl⟩
  have hRest : m.limits.maxDepth - (depth + 1) = below := by omega
  have hCallAt : m.callAt depth = callWith (m.run below) := by
    unfold callAt
    rw [hBelow]
  obtain ⟨log, hRecording⟩ := explore_recording (callAt_frugal (depth + 1)) (run_eq m (depth + 1) ▸ hg)
  obtain ⟨log', hRecording'⟩ := explore_recording (callAt_frugal (depth + 1)) (run_eq m (depth + 1) ▸ hG)
  rw [hRest] at hG hg
  rw [hCallAt] at hCall ⊢
  have hBudget : s.budget ≠ 0 := fun hSpent => by
    rw [callWith_of_spent hSpent] at hCall
    cases hCall
  rw [callWith_of_run hBudget hE hG] at hCall
  obtain ⟨x, hReturns, rfl⟩ := Graph.returns_of_verdict? (Except.ok.inj (Prod.mk.inj hCall).1)
  have hKnown : g.Returns x := hReturns.of_refines (fun v hv => hAtom v (by rw [hv]; rfl)) hGuarded hRecording
    hRecording' hDone rfl rfl (callsLapse_context m callee (depth + 1))
    (callsLapse_context m callee (depth + 1)) (context_frugal callee (depth + 1))
    (context_frugal callee (depth + 1)) (Method.refines_startWith hArgs hE he) hFirst hSecond hReady
  have hBudget' : s'.budget ≠ 0 := by
    obtain ⟨⟨k, n⟩, hMem⟩ := List.exists_mem_of_ne_nil _ hKnown.ends
    have hn := (Graph.mem_terminals.mp hMem).1
    rcases hRecording.entered with ⟨hNone, _⟩ | ⟨_, _, hSome, _⟩
    · have hLess := Graph.lt_size_of_isLive (Graph.isLive_iff.mpr ⟨n, hn⟩)
      rw [hNone] at hLess
      exact absurd hLess (Nat.not_lt_zero k)
    · exact hSome
  rw [callWith_of_run hBudget' he hg, hKnown.verdict?]

/-- A method that returns the same number whichever way its argument sends it. -/
def steadyMethod : Method where
  reference := ⟨⟨"La;"⟩, "five", [.int], .int⟩
  flags := { static := true }
  locals := 1
  code := [.const 0 (.int 5), .branch .eq 1 none 6, .nop, .returnValue 0]
  tries := []

theorem guarded_steadyMethod (G : Graph) : G.Guarded (bare.context steadyMethod 1) where
  calls a i hi := by
    rintro kind m args rfl
    have hMem := Code.mem_of_at? hi
    simp [context, steadyMethod] at hMem
  apart a i _ := ⟨fun _ n _ k hk => by simp [Method.handlersAt, context, steadyMethod] at hk,
    fun k hk => by simp [Method.handlersAt, context, steadyMethod] at hk⟩
  candid K N i hs _ hi := by
    have hMem := Code.mem_of_at? hi
    simp only [context, steadyMethod, List.mem_cons, List.not_mem_nil, or_false] at hMem
    rcases hMem with rfl | rfl | rfl | rfl <;> trivial
  caught K N i s o t x _ hi hDoes hHazard := by
    have hMem := Code.mem_of_at? hi
    simp only [context, steadyMethod, List.mem_cons, List.not_mem_nil, or_false] at hMem
    rcases hMem with rfl | rfl | rfl | rfl
    · obtain ⟨v, u, _, hAssign⟩ := Run.bind_eq_ok hDoes
      obtain ⟨_, _, rfl⟩ := assign_eq_ok.mp (Prod.mk.inj hAssign).1
      cases hHazard
    · obtain ⟨v, _, hRest⟩ := except_bind_eq_ok.mp (Prod.mk.inj hDoes).1
      obtain ⟨w, _, hRest⟩ := except_bind_eq_ok.mp hRest
      obtain ⟨n, _, hJump⟩ := except_bind_eq_ok.mp hRest
      split at hJump <;> (obtain rfl := Except.ok.inj hJump; cases hHazard)
    · obtain rfl := Except.ok.inj (Prod.mk.inj hDoes).1
      cases hHazard
    · rw [(Semantics.Context.stop_of_return (.inr ⟨0, rfl⟩) hDoes).2] at hHazard
      cases hHazard

/-- A supply on which nothing has been drawn. -/
def freshSupply : Supply := ⟨.empty, 100⟩

/-- The graph of a method that is explored from a state on a fresh supply. -/
def calledGraph (method : Method) (entry : State) : Graph :=
  match (bare.run 1 method entry freshSupply).1 with
  | .ok g => g
  | .error _ => .start method entry

theorem run_eq_calledGraph {method : Method} {entry : State} {budget : Nat}
    (hOk : (bare.run 1 method entry freshSupply).1.toOption.isSome = true)
    (hLeft : (bare.run 1 method entry freshSupply).2 = ⟨.empty, budget⟩) :
    bare.run 1 method entry freshSupply = (.ok (calledGraph method entry), ⟨.empty, budget⟩) := by
  unfold calledGraph
  cases hRun : bare.run 1 method entry freshSupply with
  | mk result t =>
      rw [hRun] at hOk hLeft
      obtain rfl : t = ⟨.empty, budget⟩ := hLeft
      cases result with
      | ok g => rfl
      | error e => cases hOk

theorem callAt_refines_steadyMethod :
    bare.callAt 0 steadyMethod [.int 3] freshSupply = (.ok (some (.returns (.int 5))), ⟨.empty, 96⟩) := by
  have hPlain {v : Value} (hNone : v.id? = none) (hFlat : v.Flat) {E : State}
      (hE : steadyMethod.startWith? [v] = some E) : E.Plain :=
    Method.plain_startWith hE (by simpa using hFlat) (by
      intro u hu w hw _ hSome
      obtain rfl := List.mem_singleton.mp hu
      exact absurd hNone hSome)
  have hHolds {v : Value} (hNone : v.id? = none) {E : State}
      (hE : steadyMethod.startWith? [v] = some E) (i : Nat) : ¬ E.Holds i := by
    rintro ⟨u, hu, hId⟩
    obtain rfl := List.mem_singleton.mp ((Method.mem_startWith hE).mp hu)
    rw [hNone] at hId
    cases hId
  have hKnown : steadyMethod.startWith? [.int 3] = some (entryWith (.int 3)) := rfl
  have hUnknown : steadyMethod.startWith? [.unknown .int] = some (entryWith (.unknown .int)) := rfl
  have hCall : bare.callAt 0 steadyMethod [.unknown .int] freshSupply =
      (.ok (some (.returns (.int 5))), ⟨.empty, 95⟩) := Prod.ext (by decide +kernel) (by decide +kernel)
  have hRunUnknown : bare.run (bare.limits.maxDepth - (0 + 1)) steadyMethod (entryWith (.unknown .int))
      freshSupply = (.ok (calledGraph steadyMethod (entryWith (.unknown .int))), ⟨.empty, 95⟩) :=
    run_eq_calledGraph (by decide +kernel) (by decide +kernel)
  have hRun : bare.run (bare.limits.maxDepth - (0 + 1)) steadyMethod (entryWith (.int 3)) freshSupply =
      (.ok (calledGraph steadyMethod (entryWith (.int 3))), ⟨.empty, 96⟩) :=
    run_eq_calledGraph (by decide +kernel) (by decide +kernel)
  exact callAt_refines hCall (fun v hv => by cases hv; rfl) hUnknown hKnown hRunUnknown hRun
    (by decide +kernel)
    (.cons (.inr ⟨rfl, rfl, by simp [Value.id?]⟩) .nil)
    (hPlain rfl (by simp [Value.Flat, Value.ids, Value.id?]) hKnown)
    (hPlain rfl (by simp [Value.Flat, Value.ids, Value.id?]) hUnknown)
    ⟨⟨by simp [freshSupply, Heap.empty], by simp [freshSupply, Heap.empty]⟩,
      ⟨by simp [freshSupply, Heap.empty], by simp [freshSupply, Heap.empty]⟩,
      fun i hi => absurd hi (hHolds rfl hKnown i), fun i hi => absurd hi (hHolds rfl hUnknown i),
      fun i hi => absurd hi (hHolds rfl hUnknown i), by simp [freshSupply, Heap.empty]⟩
    (guarded_steadyMethod _)

/-- A method that divides by its argument and returns something else. -/
def divisorMethod : Method where
  reference := ⟨⟨"La;"⟩, "divide", [.int], .int⟩
  flags := { static := true }
  locals := 1
  code := [.const 0 (.int 5), .binary .div .int 1 0 (.register 1), .returnValue 0]
  tries := []

/-- The exception that `divisorMethod` may end with is not seen at its ends, and nothing is known of a call
that raises it. -/
theorem not_known_of_refines :
    ¬ ∀ (m : Machine) (callee : Method) (depth : Nat) (as As : List Value) (s s' t t' : Supply)
        (V : Effect) (e : State) (g : Graph),
      callee.validate = .ok () → m.callAt depth callee As s = (.ok (some V), t) →
        Value.RefineAll as As → callee.startWith? as = some e →
        m.run (m.limits.maxDepth - (depth + 1)) callee e s' = (.ok g, t') → g.status = .completed →
          ∃ V', (m.callAt depth callee as s').1 = .ok (some V') := by
  intro hAll
  obtain ⟨V, hV⟩ := hAll bare divisorMethod 0 [.int 0] [.unknown .int] freshSupply freshSupply
    ⟨.empty, 97⟩ ⟨.empty, 98⟩ (.returns (.int 5)) (entryWith (.int 0))
    (calledGraph divisorMethod (entryWith (.int 0))) (by decide +kernel)
    (Prod.ext (by decide +kernel) (by decide +kernel)) (.cons (.inr ⟨rfl, rfl, by simp [Value.id?]⟩) .nil) rfl
    (run_eq_calledGraph (by decide +kernel) (by decide +kernel)) (by decide +kernel)
  have hNone : (bare.callAt 0 divisorMethod [.int 0] freshSupply).1 = .ok none := by decide +kernel
  rw [hNone] at hV
  cases hV

end Machine

end Dalvik
