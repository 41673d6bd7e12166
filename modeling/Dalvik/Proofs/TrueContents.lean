import Dalvik.Proofs.Skirting

/-!
What is known of arrays along a path. A memory is run along the path: the instructions on arrays change it as they say,
and any other one gives its register anything that the state after it allows for. As long as no array is thrown or passed
to a call, and none whose contents have been lost is filled in part, a state is right about the arrays of the memory.
-/

namespace Dalvik

open Run (Frugal)
open Semantics.Context (entering)

namespace Memory

variable {σ τ : Memory} {i : Instruction Address} {pre : State} {o : Outcome}

/-- What an instruction that is not on arrays does with what there is: the register that it assigns is given anything
that a state allows for. -/
structure Varies (σ : Memory) (i : Instruction Address) (post : State) (τ : Memory) : Prop where
  arrays : τ.arrays = σ.arrays
  kept : ∀ q, i.assigned? ≠ some q → τ.registers q = σ.registers q
  given : ∀ q, i.assigned? = some q → τ.HoldsOther post q

/-- An instruction that leaves arrays alone may give its register anything that the state after it allows for. -/
theorem Fits.varies (h : σ.Fits pre) (hSkirts : o.Skirts i pre) (hFlow : ∀ x, o.flow ≠ .raise x)
    (hVaries : σ.Varies i o.post τ) : τ.Fits o.post := by
  refine h.change hVaries.arrays (fun q hSome => ?_) (fun q hNone => ?_) hSkirts.rest
  · have hOther : i.assigned? ≠ some q := fun hAssigned => hSome (hSkirts.assigned hFlow q hAssigned)
    refine ⟨(hSkirts.others q hOther).resolve_right ?_, hVaries.kept q hOther⟩
    rintro ⟨_, d, hUnknown⟩
    exact hSome (State.arrayAt?_of_peek? hUnknown)
  · by_cases hAssigned : i.assigned? = some q
    · exact hVaries.given q hAssigned
    · rcases hSkirts.others q hAssigned with hKept | ⟨hOld, hUnknown⟩
      · exact (h.other q (by rwa [State.arrayAt?, hKept] at hNone)).of_same (hVaries.kept q hAssigned) (.inl hKept)
      · exact (h.other q hOld).of_same (hVaries.kept q hAssigned) (.inr hUnknown)

/-- Where there is no array every memory is as a state knows it that has none either. -/
theorem Fits.start (hPlain : pre.All fun v => v.arrayId? = none) (hRegisters : ∀ r, σ.HoldsOther pre r) :
    σ.Fits pre := by
  have hNone (r : Register) : pre.arrayAt? r = none := by
    cases hPeek : pre.peek? r with
    | none => exact State.arrayAt?_of_none hPeek
    | some v =>
        exact State.arrayAt?_of_peek? hPeek ▸ hPlain.registers v (Semantics.mem_registers_of_peek? hPeek)
  constructor
  case array =>
    intro r id d n es hPeek
    cases (State.arrayAt?_of_peek? hPeek).symm.trans (hNone r)
  case other => exact fun r _ => hRegisters r
  case shared =>
    intro r q i j hi
    cases (hNone r).symm.trans hi
  case rest =>
    rintro v (hv | hv)
    · exact hPlain.result v hv
    · exact hPlain.exception v hv

theorem Fits.entering (h : σ.Fits pre) {x : Value} (hPlain : x.arrayId? = none) : σ.Fits (entering pre x) := by
  refine h.congr (fun _ => .inl rfl) ?_
  rintro v (⟨⟨⟩⟩ | ⟨⟨⟩⟩)
  exact hPlain

end Memory

/-- The memories that a node may be met with on the way from the root. At the start no register holds an array. -/
inductive Graph.Runs (g : Graph) : NodeId → Memory → Prop
  | start {n : Node} {σ : Memory} (hn : g.node? 0 = some n) (hRegisters : ∀ r, σ.HoldsOther n.pre r) : Runs g 0 σ
  | steps {p k : NodeId} {n c : Node} {i : Instruction Address} {σ τ : Memory} (hRuns : Runs g p σ)
      (hn : g.node? p = some n) (hi : g.method.code.at? n.address = some i) (hSteps : σ.Steps g.heap.loads i τ)
      (hChild : k ∈ g.childrenOf p) (hc : g.node? k = some c) (hPre : c.pre = n.post) : Runs g k τ
  | varies {p k : NodeId} {n c : Node} {i : Instruction Address} {σ τ : Memory} (hRuns : Runs g p σ)
      (hn : g.node? p = some n) (hi : g.method.code.at? n.address = some i) (hOther : i.handlesArrays = false)
      (hVaries : σ.Varies i n.post τ) (hChild : k ∈ g.childrenOf p) (hc : g.node? k = some c) (hPre : c.pre = n.post) :
      Runs g k τ
  | throws {p k : NodeId} {n c : Node} {i : Instruction Address} {σ : Memory} {x : Value} (hRuns : Runs g p σ)
      (hn : g.node? p = some n) (hi : g.method.code.at? n.address = some i) (hOther : i.handlesArrays = false)
      (hChild : k ∈ g.childrenOf p) (hc : g.node? k = some c) (hPre : c.pre = entering n.pre x) : Runs g k σ

namespace Semantics.Context

variable {c : Context} {a : Address} {i : Instruction Address} {pre : State} {o : Outcome} {s t : Supply}
  {A : List (Address × State)} {p : Address × State}

/-- What an instruction leads to after an exception is not the state after it. -/
theorem ne_raise_of_successors (hSuccessors : c.successors a pre o = .ok A) (hp : p ∈ A) (hPost : p.2 = o.post)
    (hPlain : o.post.exception = none) (x : Value) : o.flow ≠ .raise x := by
  intro hFlow
  have hEntered : ∃ k ∈ c.method.handlersAt a, ∃ v,
      p = (k.target, { pre with result := none, exception := some v }) := by
    unfold successors flowSuccessors at hSuccessors
    rw [hFlow] at hSuccessors
    obtain rfl := Except.ok.inj hSuccessors
    have hRaised {q : Address × State} (hq : q ∈ route pre x [] (c.method.handlersAt a)) :
        ∃ k ∈ c.method.handlersAt a, ∃ v, q = (k.target, { pre with result := none, exception := some v }) :=
      (mem_route hq).resolve_left (by simp)
    split at hp
    · exact (mem_route hp).elim hRaised id
    · exact hRaised hp
  obtain ⟨_, _, v, rfl⟩ := hEntered
  rw [← hPost] at hPlain
  cases hPlain

/-- Every state that an instruction leads to which leaves arrays alone passes on no array. -/
theorem plain_successors (hSkirts : o.Skirts i pre) (hSuccessors : c.successors a pre o = .ok A) (hp : p ∈ A) (v : Value)
    (hv : p.2.result = some v ∨ p.2.exception = some v) : v.arrayId? = none := by
  have hEnds : Ends (c.successors a pre o)
      (fun A => ∀ p ∈ A, ∀ v, p.2.result = some v ∨ p.2.exception = some v → v.arrayId? = none) (Inside True) :=
    all_successors (P := fun v => v.arrayId? = none)
      (Q := fun u => ∀ v, u.result = some v ∨ u.exception = some v → v.arrayId? = none)
      (by rintro v hPlain u (⟨⟨⟩⟩ | ⟨⟨⟩⟩); exact hPlain) (fun _ => rfl) c a hSkirts.rest
      (fun v hv => hSkirts.raised v (.inl hv)) fun v hv => hSkirts.raised v (.inr hv)
  exact hEnds.of_eq_ok hSuccessors p hp v hv

end Semantics.Context

namespace Graph

variable {g : Graph} {c : Semantics.Context} {maxVisits : Nat} {entry : State} {s t : Supply}
  {log : List Performance} {p k : NodeId} {n : Node}

/-- The values of every state before an instruction keep what is asked of values if those of the entry do. -/
theorem Recording.upheld {ω : Type} {D : Discipline ω} {enough : Prop} (h : g.Recording c maxVisits entry s log t)
    (hFrugal : ∀ a pre, Frugal (c.apply a pre))
    (hApply : ∀ a pre w s, D.Fits w s.heap → pre.All (D.Holds w) →
      D.Upholds enough w (c.apply a pre) s fun w' step => step.All (D.Holds w'))
    (hEntry : ∃ w, D.Fits w s.heap ∧ entry.All (D.Holds w)) {r : Performance} (hn : g.node? k = some n)
    (hr : log[k]? = some r) : ∃ w, D.Fits w r.before.heap ∧ n.pre.All (D.Holds w) := by
  refine h.induct (P := fun heap _ pre => ∃ w, D.Fits w heap ∧ pre.All (D.Holds w)) hFrugal hEntry ?_ hn hr
  rintro p np rp _ _ hRecords ⟨w, hFits, hPre⟩ q hq later hLater
  have hEnds := hApply np.address np.pre w rp.before hFits hPre
  unfold Discipline.Upholds Run.Ends at hEnds
  rw [hRecords.applied] at hEnds
  obtain ⟨w', _, hFits', hStep⟩ := hEnds
  exact ⟨w', D.grow hFits' hLater, hStep.successors q hq⟩

/-- On the way to a node no array gets out of sight, and none whose contents have been lost is filled in part. -/
def KeepsArrays (g : Graph) (k : NodeId) : Prop :=
  ∀ p n i, g.Below p k → g.node? p = some n → g.method.code.at? n.address = some i →
    i.Withholds n.pre n.post ∧ i.FillsWhole n.pre

theorem KeepsArrays.of_child (h : g.KeepsArrays k) (hChild : k ∈ g.childrenOf p) : g.KeepsArrays p :=
  fun q n i hBelow => h q n i (hBelow.tail hChild)

end Graph

namespace Node.Records

variable {g : Graph} {c : Semantics.Context} {n : Node} {r : Performance}

/-- A child is one of the places that the step of its parent leads to. -/
theorem mem_successors (hRecords : n.Records g c r) {p k : NodeId} (hn : g.node? p = some n) {m : Node}
    (hChild : k ∈ g.childrenOf p) (hm : g.node? k = some m) : (m.address, m.pre) ∈ r.step.successors :=
  hRecords.children.subset (Graph.mem_places.mpr ⟨k, (Graph.mem_children hn).mp hChild, m, hm, rfl⟩)

section

variable {L : Ledger} {i : Instruction Address} {σ τ : Memory} (hRecords : n.Records g c r)
  (hi : c.method.code.at? n.address = some i) (hFits : σ.Fits n.pre) (hListed : n.pre.All (L.Lists Value.outline))

include hRecords hi hFits hListed

theorem fits_of_steps {h : Heap} (hBelow : L.Fits Value.outline r.before.heap) (hWhole : i.FillsWhole n.pre)
    (hSteps : σ.Steps h.loads i τ) (hGrows : r.after.heap.Grows h) : τ.Fits n.post := by
  obtain ⟨i', o, hi', hDoes, _, hPost⟩ := Semantics.Context.exists_outcome hRecords.applied
  obtain rfl := Option.some.inj (hi'.symm.trans hi)
  rw [hRecords.post, hPost]
  exact Semantics.Context.execute_fits hFits hBelow hListed hWhole hSteps hDoes hGrows

theorem exists_skirts (hOther : i.handlesArrays = false) (hWithholds : i.Withholds n.pre n.post) :
    ∃ o : Outcome, o.post = n.post ∧ o.Skirts i n.pre ∧ o.post.exception = none ∧
      c.successors n.address n.pre o = .ok r.step.successors := by
  obtain ⟨i', o, hi', hDoes, hSuccessors, hPost⟩ := Semantics.Context.exists_outcome hRecords.applied
  obtain rfl := Option.some.inj (hi'.symm.trans hi)
  have hSame : o.post = n.post := (hRecords.post.trans hPost).symm
  have hObeys : Run.Ends (c.execute n.address i' n.pre { n.pre with result := none, exception := none }) r.before
      (fun o _ => o.Obeys i') fun _ _ => True := Semantics.Context.execute_obeys rfl n.pre n.address i' r.before
  unfold Run.Ends at hObeys
  rw [hDoes] at hObeys
  exact ⟨o, hSame, Semantics.Context.execute_skirts hListed hFits.rest hOther (hSame ▸ hWithholds) hDoes,
    hObeys.plain, hSuccessors⟩

theorem fits_of_varies (hOther : i.handlesArrays = false) (hWithholds : i.Withholds n.pre n.post)
    {p : Address × State} (hp : p ∈ r.step.successors) (hNext : p.2 = n.post) (hVaries : σ.Varies i n.post τ) :
    τ.Fits n.post := by
  obtain ⟨o, hSame, hSkirts, hPlain, hSuccessors⟩ := hRecords.exists_skirts hi hFits hListed hOther hWithholds
  rw [← hSame] at hNext hVaries ⊢
  exact hFits.varies hSkirts (Semantics.Context.ne_raise_of_successors hSuccessors hp hNext hPlain) hVaries

theorem fits_of_throws (hOther : i.handlesArrays = false) (hWithholds : i.Withholds n.pre n.post)
    {p : Address × State} (hp : p ∈ r.step.successors) {x : Value} (hEntered : p.2 = entering n.pre x) :
    σ.Fits (entering n.pre x) := by
  obtain ⟨o, _, hSkirts, _, hSuccessors⟩ := hRecords.exists_skirts hi hFits hListed hOther hWithholds
  have hPlain := Semantics.Context.plain_successors hSkirts hSuccessors hp x
  rw [hEntered] at hPlain
  exact hFits.entering (hPlain (.inr rfl))

end

end Node.Records

namespace Machine

variable {m : Machine} {method : Method} {entry : State} {g : Graph} {k : NodeId} {n : Node} {σ : Memory}

/-- An entry without arrays whose instances count as handed out. -/
theorem exists_ledger (hEntry : ∀ v ∈ entry.held, v.arrayId? = none ∧ ∀ i ∈ v.id?, i < (Heap.after entry).next) :
    ∃ L : Ledger, L.Fits Value.outline (.after entry) ∧ entry.All (L.Lists Value.outline) := by
  refine ⟨fun i => if i < (Heap.after entry).next then some (.int 0) else none,
    ⟨Heap.sound_after entry, fun i v hv => ?_, fun i v t hv ht => by simp [Heap.after] at ht⟩,
    State.all_iff.mpr fun v hv u hu i hi => ?_⟩
  · split at hv
    · assumption
    · cases hv
  · obtain ⟨hPlain, hBelow⟩ := hEntry v hv
    rw [Value.parts, Value.inner_of_arrayId? hPlain] at hu
    obtain rfl := List.mem_singleton.mp hu
    rw [Value.outline_of_arrayId? hPlain]
    exact if_pos (hBelow i hi)

section

variable (h : m.execute method entry = .ok g)
  (hEntry : ∀ v ∈ entry.held, v.arrayId? = none ∧ ∀ i ∈ v.id?, i < (Heap.after entry).next)

include h hEntry

/-- Every node has recorded a step, in a state of which all values are listed. -/
theorem exists_listed (hn : g.node? k = some n) :
    ∃ (r : Performance) (L : Ledger), n.Records g (m.context method 0) r ∧ L.Fits Value.outline r.before.heap ∧
      n.pre.All (L.Lists Value.outline) ∧ r.after.heap.Grows g.heap := by
  obtain ⟨g₀, log, t, rfl, hRecording⟩ := execute_recording h
  have hRewrites : (Discipline.ledger Value.outline).Rewrites := Discipline.rewrites_of_look fun _ _ _ _ _ => rfl
  have hCalls : CallsKeep (m.callAt 0) (.ledger Value.outline) False m.classes :=
    callAt_keeps hRewrites False.elim False.elim 0
  have hFrugal := context_frugal (m := m) method 0
  obtain ⟨r, hr, hRecords⟩ := hRecording.records k n hn
  obtain ⟨L, hBelow, hPre⟩ := hRecording.upheld (D := .ledger Value.outline) hFrugal
    (fun a pre w s => Semantics.Context.apply_upholds (fun i _ => hCalls.callsUphold i) (fun _ _ _ => hRewrites)
      False.elim False.elim) (exists_ledger hEntry) hn hr
  exact ⟨r, L, ⟨hRecords.applied, hRecords.post, hRecords.children, hRecords.complete⟩, hBelow, hPre,
    hRecording.successive.grows_after (hRecording.grows_of_mem hFrugal) (List.mem_of_getElem? hr)⟩

/-- On the way to a node every state knows the memory as it is. -/
theorem fits_of_runs (hKeeps : g.KeepsArrays k) (hRuns : g.Runs k σ) (hn : g.node? k = some n) : σ.Fits n.pre := by
  have hMethod := (execute_consistent h).1
  induction hRuns generalizing n with
  | start hn' hRegisters =>
      obtain rfl := Option.some.inj (hn'.symm.trans hn)
      obtain ⟨g₀, log, t, rfl, hRecording⟩ := execute_recording h
      obtain ⟨n₀, hn₀, _, hEntered, _⟩ := (hRecording.rooted hn).1.first
      obtain rfl := Option.some.inj (hn₀.symm.trans hn)
      exact .start (State.all_iff.mpr fun v hv => (hEntry v (hEntered ▸ hv)).1) hRegisters
  | steps hRuns hn' hi hSteps hChild hc hPre ih =>
      obtain rfl := Option.some.inj (hc.symm.trans hn)
      obtain ⟨r, L, hRecords, hBelow, hListed, hGrows⟩ := exists_listed h hEntry hn'
      have hBefore := hKeeps.of_child hChild
      rw [hPre]
      exact hRecords.fits_of_steps (hMethod ▸ hi) (ih hBefore hn') hListed hBelow (hBefore _ _ _ .refl hn' hi).2
        hSteps hGrows
  | varies hRuns hn' hi hOther hVaries hChild hc hPre ih =>
      obtain rfl := Option.some.inj (hc.symm.trans hn)
      obtain ⟨r, L, hRecords, _, hListed, _⟩ := exists_listed h hEntry hn'
      have hBefore := hKeeps.of_child hChild
      rw [hPre]
      exact hRecords.fits_of_varies (hMethod ▸ hi) (ih hBefore hn') hListed hOther (hBefore _ _ _ .refl hn' hi).1
        (hRecords.mem_successors hn' hChild hc) hPre hVaries
  | throws hRuns hn' hi hOther hChild hc hPre ih =>
      obtain rfl := Option.some.inj (hc.symm.trans hn)
      obtain ⟨r, L, hRecords, _, hListed, _⟩ := exists_listed h hEntry hn'
      have hBefore := hKeeps.of_child hChild
      rw [hPre]
      exact hRecords.fits_of_throws (hMethod ▸ hi) (ih hBefore hn') hListed hOther (hBefore _ _ _ .refl hn' hi).1
        (hRecords.mem_successors hn' hChild hc) hPre

end

/-- What is known of arrays is so. Run a memory along a path from an entry without arrays, on which no array is thrown or
passed to a call and none whose contents have been lost is filled in part. Then every state on the path is right about
the arrays of the memory, whatever everything else is: their lengths, and the elements that it knows. -/
theorem execute_trueOf {m : Machine} {method : Method} {entry : State} {g : Graph} {k : NodeId} {n : Node} {σ : Memory}
    (h : m.execute method entry = .ok g)
    (hEntry : ∀ v ∈ entry.held, v.arrayId? = none ∧ ∀ i ∈ v.id?, i < (Heap.after entry).next)
    (hKeeps : g.KeepsArrays k) (hRuns : g.Runs k σ) (hn : g.node? k = some n) :
    n.pre.TrueOf σ ∧ ∀ i τ, method.code.at? n.address = some i → σ.Steps g.heap.loads i τ → n.post.TrueOf τ := by
  have hFits := fits_of_runs h hEntry hKeeps hRuns hn
  refine ⟨hFits.trueOf, fun i τ hi hSteps => ?_⟩
  obtain ⟨r, L, hRecords, hBelow, hListed, hGrows⟩ := exists_listed h hEntry hn
  have hWhole := (hKeeps k n i .refl hn ((execute_consistent h).1 ▸ hi)).2
  exact (hRecords.fits_of_steps hi hFits hListed hBelow hWhole hSteps hGrows).trueOf

/-- A method that stores its argument at the place that it names in a new array, and then fills the array. -/
def refillingMethod (data : List Literal) : Method where
  reference := ⟨⟨"La;"⟩, "m", [.int], .void⟩
  flags := { static := true }
  locals := 2
  code := [.const 0 (.int 2), .newArray 1 0 (.arrayOf .int), .arrayPut 2 1 2, .fillArray 1 data, .returnVoid]
  tries := []

/-- The graph of that method. -/
def refillingGraph (data : List Literal) : Graph :=
  bareMachine.graphOf (refillingMethod data) (initialState (refillingMethod data))

/-- A node of the graph of that method. -/
def refillingNode (data : List Literal) (k : NodeId) : Node :=
  ((refillingGraph data).node? k).getD ⟨0, .blank 0 0, .blank 0 0, [], [], false⟩

/-- What that method does if its argument is one. -/
theorem runs_refillingMethod (data : List Literal) (hRoom : data.length ≤ 2)
    (hNodes : ∀ k < 5, (refillingGraph data).node? k = some (refillingNode data k))
    (hPath : ∀ k < 4, (refillingGraph data).method.code.at? (refillingNode data k).address =
        (refillingMethod data).code[k]? ∧ k + 1 ∈ (refillingGraph data).childrenOf k ∧
      (refillingNode data (k + 1)).pre = (refillingNode data k).post)
    (hEntry : (refillingNode data 0).pre = initialState (refillingMethod data))
    (hSize : (refillingNode data 0).post.peek? 0 = some (.int 2)) :
    ∃ σ, (refillingGraph data).Runs 4 σ ∧ σ.registers 1 = .array 0 ∧ σ.arrays = [(.arrayOf .int,
      (data.map fun l => ((refillingGraph data).heap.loads l).coerce .int) ++
        [Value.int 0, Value.int 1].drop data.length)] := by
  have hReads (k : Int32) : (Value.int k).ReadsAs k := by
    intro m hm
    simpa [Value.coerce, Value.int32?, Value.ofInt32?] using hm.symm
  have hElement : (Descriptor.arrayOf .int).elementOrObject = .int := by decide +kernel
  have hStep {k : NodeId} (hk : k < 4) {σ τ : Memory} {i : Instruction Address} (hRuns : (refillingGraph data).Runs k σ)
      (hi : (refillingMethod data).code[k]? = some i) (hSteps : σ.Steps (refillingGraph data).heap.loads i τ) :
      (refillingGraph data).Runs (k + 1) τ := by
    obtain ⟨hAt, hChild, hPre⟩ := hPath k hk
    exact .steps hRuns (hNodes k (Nat.lt_succ_of_lt hk)) (hAt.trans hi) hSteps hChild
      (hNodes (k + 1) (Nat.succ_lt_succ hk)) hPre
  have hStart : (refillingGraph data).Runs 0 ⟨fun _ => .other (.int 1), []⟩ := by
    refine .start (hNodes 0 (by decide)) fun r => ⟨_, rfl, fun w hw hKnown => ?_⟩
    rw [hEntry] at hw
    have hMem := Semantics.mem_registers_of_peek? hw
    have hUnknown : ∀ x ∈ (initialState (refillingMethod [])).registers.filterMap id, x.isKnown = false := by
      decide +kernel
    rw [hUnknown w (List.mem_filterMap.mpr ⟨_, hMem, rfl⟩)] at hKnown
    cases hKnown
  have hSized : (refillingGraph data).Runs 1 (Memory.put ⟨fun _ => .other (.int 1), []⟩ 0 (.other (.int 2))) := by
    obtain ⟨hAt, hChild, hPre⟩ := hPath 0 (by decide)
    refine .varies hStart (hNodes 0 (by decide)) hAt rfl ⟨rfl, fun q hq => ?_, fun q hq => ?_⟩ hChild
      (hNodes 1 (by decide)) hPre
    · rw [Memory.registers_put, if_neg (fun hSame => hq (congrArg some hSame.symm))]
    · obtain rfl := Option.some.inj hq
      refine ⟨.int 2, by rw [Memory.registers_put, if_pos rfl], fun w hw => ?_⟩
      obtain rfl := Option.some.inj (hSize.symm.trans hw)
      exact Value.admits_refl _
  have hMade := hStep (by decide) hSized rfl (.newArray rfl (hReads 2) (by decide))
  have hPut := hStep (by decide) hMade rfl (.arrayPut rfl rfl rfl (hReads 1) (by rw [hElement]; decide) rfl)
  have hFilled := hStep (by decide) hPut rfl (.fillArray rfl rfl (by simpa using hRoom))
  have hStored : ((List.replicate 2 (Value.zero .int)).set 1 ((Value.int 1).coerce .int)) = [.int 0, .int 1] := by
    decide +kernel
  refine ⟨_, hFilled, rfl, ?_⟩
  simp only [Memory.write, Memory.make, Memory.put, hElement]
  rw [← hStored]
  rfl

theorem execute_trueOf_refillingMethod :
    ∃ g σ, bareMachine.execute (refillingMethod [.int 5, .int 6]) (initialState (refillingMethod [.int 5, .int 6])) =
        .ok g ∧ g.Runs 4 σ ∧ σ.arrays = [(.arrayOf .int, [.int 5, .int 6])] ∧
      ∃ n, g.node? 4 = some n ∧ n.pre.TrueOf σ ∧
        n.pre.peek? 1 = some (.array 0 (.arrayOf .int) (some 2) (some [.int 5, .int 6])) := by
  have hRun : bareMachine.execute (refillingMethod [.int 5, .int 6])
      (initialState (refillingMethod [.int 5, .int 6])) = .ok (refillingGraph [.int 5, .int 6]) :=
    execute_eq_graphOf (by decide +kernel)
  obtain ⟨σ, hRuns, _, hArrays⟩ := runs_refillingMethod [.int 5, .int 6] (by decide) (by decide +kernel)
    (by decide +kernel) (by decide +kernel) (by decide +kernel)
  have hKeeps : ∀ n ∈ (refillingGraph [.int 5, .int 6]).nodes.toList.filterMap id,
      ∀ i ∈ (refillingMethod [.int 5, .int 6]).code.at? n.address, i.Withholds n.pre n.post ∧ i.FillsWhole n.pre := by
    decide +kernel
  have hNode : (refillingGraph [.int 5, .int 6]).node? 4 = some (refillingNode [.int 5, .int 6] 4) := by
    decide +kernel
  have hMethod := (execute_consistent hRun).1
  refine ⟨_, σ, hRun, hRuns, hArrays.trans (by decide +kernel), _, hNode,
    (execute_trueOf hRun (by decide +kernel) (fun p n i _ hn hi => ?_) hRuns hNode).1, by decide +kernel⟩
  exact hKeeps n (Graph.mem_nodes hn) i (hMethod ▸ hi)

/-- The elements of an array with lost contents that data do not reach are taken for zeros. -/
theorem exists_untrue :
    ¬ ∀ (m : Machine) (method : Method) (entry : State) (g : Graph) (k : NodeId) (n : Node) (σ : Memory),
      m.execute method entry = .ok g →
      (∀ v ∈ entry.held, v.arrayId? = none ∧ ∀ i ∈ v.id?, i < (Heap.after entry).next) →
      (∀ p n i, g.Below p k → g.node? p = some n → g.method.code.at? n.address = some i → i.Withholds n.pre n.post) →
      g.Runs k σ → g.node? k = some n → n.pre.TrueOf σ := by
  intro h
  have hRun : bareMachine.execute (refillingMethod [.int 5]) (initialState (refillingMethod [.int 5])) =
      .ok (refillingGraph [.int 5]) :=
    execute_eq_graphOf (by decide +kernel)
  obtain ⟨σ, hRuns, hRegister, hArrays⟩ := runs_refillingMethod [.int 5] (by decide) (by decide +kernel)
    (by decide +kernel) (by decide +kernel) (by decide +kernel)
  have hWithholds : ∀ n ∈ (refillingGraph [.int 5]).nodes.toList.filterMap id,
      ∀ i ∈ (refillingMethod [.int 5]).code.at? n.address, i.Withholds n.pre n.post := by
    decide +kernel
  have hNode : (refillingGraph [.int 5]).node? 4 = some (refillingNode [.int 5] 4) := by decide +kernel
  have hKnown : (refillingNode [.int 5] 4).pre.peek? 1 =
      some (.array 0 (.arrayOf .int) (some 2) (some [.int 5, .int 0])) := by
    decide +kernel
  have hMethod := (execute_consistent hRun).1
  obtain ⟨p, vs, hPlace, hArray, _, hElements⟩ := h _ _ _ _ 4 _ σ hRun (by decide +kernel)
    (fun p n i _ hn hi => hWithholds n (Graph.mem_nodes hn) i (hMethod ▸ hi)) hRuns hNode 1 _ _ _ _ hKnown
  obtain rfl : p = 0 := Actual.array.inj (hPlace.symm.trans hRegister)
  rw [hArrays] at hArray
  have hActual : vs = [.int 5, .int 1] := by
    rw [← (Prod.mk.inj (Option.some.inj hArray)).2]
    decide +kernel
  rw [hActual] at hElements
  cases hElements _ rfl with
  | cons _ hRest =>
      cases hRest with
      | cons hSecond _ => cases hSecond rfl

end Machine

end Dalvik
