import Dalvik.Proofs.Exchanging

/-!
Replacing single calls and casts. The run of what is left of a method decides every branch as that of the method did,
and returns the same numbers, as long as no string is loaded in place of one that was made.
-/

namespace Dalvik

namespace Semantics.Context

variable {c : Context} {pre post p : State} {a : Address} {i : Instruction Address} {n : Node} {s t : Supply}
  {step : Step}

/-- What only goes on to the next instruction has led there and nowhere else. -/
theorem leads_of_next (hi : c.method.code.at? a = some i)
    (hDoes : Run.Ends (c.execute a i pre pre.resting) s (fun o _ => o = .next p) fun _ _ => True)
    (h : c.apply a pre s = (.ok step, t)) :
    step.post = p ∧ ∃ b, c.method.code.next? a = some b ∧ step.successors = [(b, step.post)] := by
  obtain ⟨j, o, hj, hRun, hSuccessors, hPost⟩ := exists_outcome h
  obtain rfl := Option.some.inj (hj.symm.trans hi)
  have hRun : c.execute a j pre pre.resting s = (.ok o, t) := hRun
  unfold Run.Ends at hDoes
  rw [hRun] at hDoes
  obtain rfl : o = .next p := hDoes
  obtain ⟨b, hNext, hLeads⟩ := successors_next rfl rfl hSuccessors
  exact ⟨hPost, b, hNext, by rw [hLeads, hPost]⟩

theorem mapM_read_cons {r : Register} {args : List Register} {values : List Value}
    (h : (r :: args).mapM pre.read = .ok values) :
    ∃ v rest, values = v :: rest ∧ pre.read r = .ok v := by
  rw [List.mapM_cons] at h
  obtain ⟨v, hv, h⟩ := except_bind_eq_ok.mp h
  obtain ⟨rest, _, h⟩ := except_bind_eq_ok.mp h
  exact ⟨v, rest, (Except.ok.inj h).symm, hv⟩

/-- Looking a class up by a name that is known leaves the class as the result, if it is a known one. -/
theorem invoke_classForName {args : List Register} {r : Register} {name : String} (hArg : args[0]? = some r)
    (hName : Peephole.contents? Value.text? r n = some name)
    (hKnown : c.classes.knows (.ofBinaryName name) = true) :
    Run.Ends (c.invoke .static FrameworkMethod.classForName.reference args n.pre post) s
      (fun o _ => o = .next { post with result := some (.type (.ofBinaryName name)) }) fun _ _ => True := by
  have hFind : FrameworkMethod.find? FrameworkMethod.classForName.reference = some .classForName := by decide
  unfold invoke
  rw [Run.ends_bind, Run.ends_ofExcept]
  cases args with
  | nil => cases hArg
  | cons r' args =>
      obtain rfl := Option.some.inj hArg
      cases hRead : (r' :: args).mapM n.pre.read with
      | error e => trivial
      | ok values =>
          obtain ⟨v, rest, rfl, hv⟩ := mapM_read_cons hRead
          have hText : v.text? = some name := by
            unfold Peephole.contents? at hName
            rwa [hv] at hName
          unfold invokePresent
          rw [ends_ok, if_neg (by simp [hasNullReceiver]), hFind]
          cases v with
          | string id text =>
              obtain rfl := Option.some.inj hText
              have hCall : FrameworkMethod.classForName.call c.classes s.heap (.string id text :: rest) =
                  .ok (.returns (.type (.ofBinaryName text)), s.heap) := by
                change FrameworkMethod.keeping s.heap (if c.classes.knows (.ofBinaryName text) then
                  .returns (.type (.ofBinaryName text)) else .unknown) = _
                rw [if_pos hKnown]
                rfl
              unfold invokeFramework
              rw [Run.ends_bind, Run.ends_onHeap?, hCall]
              rfl
          | _ => cases hText

/-- A cast that cannot fail does nothing. -/
theorem checkCast_of_holds {r : Register} {type : Descriptor} (hHolds : Peephole.castHolds r type n = true)
    (post : State) : Ends (checkCast n.pre post r type) (fun o => o = .next post) fun _ => True := by
  unfold checkCast
  rw [ends_bind]
  cases hRead : n.pre.read r with
  | error e => trivial
  | ok v =>
      obtain ⟨_, rfl⟩ := (State.read_eq_ok_iff ..).mp hRead
      unfold Peephole.castHolds at hHolds
      cases hPeek : n.pre.peek? r with
      | none =>
          rw [hPeek] at hHolds
          cases hHolds
      | some v =>
          rw [hPeek] at hHolds
          have hIs (hKnown : (v.isKnown && decide (v.descriptor = type)) = true) : certainlyIs v type = true := by
            simp_all [certainlyIs]
          cases v with
          | null d => rfl
          | unknown d => cases hHolds
          | uninit d => cases hHolds
          | _ => exact congrArg (Outcome.nextOr post) (if_pos (hIs hHolds))

end Semantics.Context

namespace Value

/-- Whether the value is of a primitive type. -/
def isPrimitive : Value → Bool
  | int _ | long _ | float _ | double _ | boolean _ | char _ | short _ | byte _ => true
  | unknown d => d.isPrimitive
  | _ => false

variable {v w : Value}

theorem rename_of_isPrimitive (h : v.isPrimitive = true) (f : Nat → Nat) : v.rename f = v := by
  cases v <;> first | rfl | cases h

theorem isPrimitive_rename (f : Nat → Nat) : (v.rename f).isPrimitive = v.isPrimitive := by
  cases v <;> rfl

/-- No other value becomes primitive when instances are renamed. -/
theorem eq_of_rename {f : Nat → Nat} (h : w.rename f = v) (hv : v.isPrimitive = true) : w = v := by
  rw [← h, isPrimitive_rename] at hv
  rw [← h, rename_of_isPrimitive hv]

end Value

namespace Graph

/-- Some execution of a return instruction returns a value. -/
def Gives (g : Graph) (v : Value) : Prop := ∃ k n, g.node? k = some n ∧ g.returned? n = some (some v)

theorem gives_iff_any {g : Graph} {v : Value} : g.Gives v ↔ ((List.range g.nodes.size).any fun k =>
    (g.node? k).any fun n => decide (g.returned? n = some (some v))) = true := by
  rw [List.any_eq_true]
  constructor
  · rintro ⟨k, n, hn, hReturned⟩
    refine ⟨k, List.mem_range.mpr (lt_size_of_isLive (isLive_iff.mpr ⟨n, hn⟩)), ?_⟩
    rw [hn, Option.any_some, hReturned]
    exact decide_eq_true rfl
  · rintro ⟨k, _, hAny⟩
    obtain ⟨n, hn, hReturned⟩ := (Option.any_eq_true ..).mp hAny
    exact ⟨k, n, hn, of_decide_eq_true hReturned⟩

instance (g : Graph) (v : Value) : Decidable (g.Gives v) := decidable_of_iff _ gives_iff_any.symm

/-- Runs in which the executions of return instructions take the places of each other return the same numbers. -/
theorem Resembles.gives_iff {g G : Graph} {label : Address → Address}
    {stands : Address → Option (Instruction Address)} {needs : NodeId → Register → Prop}
    (h : g.Resembles G label stands needs)
    (hKept : ∀ K N x, G.node? K = some N → G.returned? N = some x → stands N.address ≠ none) {v : Value}
    (hv : v.isPrimitive = true) : g.Gives v ↔ G.Gives v := by
  constructor
  · rintro ⟨k, n, hn, hReturned⟩
    obtain ⟨f, K, N, hN, _, hSame⟩ := h.forward k n hn
    refine ⟨K, N, hN, ?_⟩
    rw [← hSame.returned, hReturned, Option.map_some, Option.map_some, Value.rename_of_isPrimitive hv]
  · rintro ⟨K, N, hN, hReturned⟩
    obtain ⟨f, k, n, hn, hSame⟩ := h.backward K N hN (hKept K N _ hN hReturned)
    have hBoth := hSame.returned
    rw [hReturned] at hBoth
    obtain ⟨x, hx, hRenamed⟩ := Option.map_eq_some_iff.mp hBoth
    obtain ⟨w, rfl, hw⟩ := Option.map_eq_some_iff.mp hRenamed
    exact ⟨k, n, hn, Value.eq_of_rename hw hv ▸ hx⟩

end Graph

namespace Graph.Recording

open Semantics (Context)

variable {c : Context} {g : Graph} {maxVisits : Nat} {entry : State} {s t : Supply} {log : List Performance}
  {K C : NodeId} {N n : Node} {R : Performance} {b : Address} {u : State}

/-- A complete graph tells where an execution has gone that has led to one place only. -/
theorem goesTo (h : g.Recording c maxVisits entry s log t) (hDone : g.status = .completed)
    (hN : g.node? K = some N) (hR : log[K]? = some R) (hLeads : R.step.successors = [(b, u)]) : g.GoesTo K b := by
  have hMem (x : Address × State) := h.mem_successors_iff hDone hN hR (x := x)
  rw [hLeads] at hMem
  constructor
  · obtain ⟨C, hChild, n, hn, hPlace⟩ := (hMem _).mp (List.mem_singleton_self _)
    exact ⟨C, hChild, addressOf?_eq_some_iff.mpr ⟨n, hn, congrArg Prod.fst hPlace⟩⟩
  · intro C hChild
    obtain ⟨n, hn⟩ := isLive_iff.mp (h.linked.live_of_child hChild).2
    have hPlace := List.mem_singleton.mp ((hMem _).mpr ⟨C, hChild, n, hn, rfl⟩)
    exact addressOf?_eq_some_iff.mpr ⟨n, hn, congrArg Prod.fst hPlace⟩

end Graph.Recording

namespace Peephole

open Semantics (Context)

theorem Planned.fallsThrough {g : Graph} {a : Address} {i : Instruction Address} {plan : Plan}
    (h : Planned g a i plan) : i.fallsThrough = true := by
  cases h <;> rfl

theorem Planned.takesException {g : Graph} {a : Address} {i : Instruction Address} {plan : Plan}
    (h : Planned g a i plan) : i.takesException = false := by
  cases h <;> rfl

/-- What the executions of an instruction have left as their result, if there is a plan for it. -/
def Plan.result? : Plan → Option Value
  | loadClass _ type => some (.type type)
  | _ => none

/-- A complete recorded exploration in which every class is known that is planned to be loaded, and no string is. -/
structure Settled (c : Context) (g : Graph) (maxVisits : Nat) (entry : State) (s t : Supply)
    (log : List Performance) : Prop where
  recording : g.Recording c maxVisits entry s log t
  completed : g.status = .completed
  wellFormed : c.method.WellFormed
  lapse : c.CallsLapse
  known : ∀ a dst type, planAt? g a = some (.loadClass dst type) → c.classes.knows type = true
  stringless : ∀ a receiver text, planAt? g a ≠ some (.loadString receiver text)

namespace Settled

variable {c : Context} {g : Graph} {maxVisits : Nat} {entry : State} {s t u v : Supply} {log : List Performance}
  {K : NodeId} {N : Node} {R : Performance} {a b : Address} {i : Instruction Address} {dst : Register}
  {type : Descriptor} {step : Step} {plan : Plan}

theorem fits (h : Settled c g maxVisits entry s t log) : Fits c.method (planAt? g) :=
  h.recording.sameMethod ▸ fits_planAt? h.stringless

/-- What there is a plan for only goes on to the next instruction, and leaves the class that is planned to be
loaded. -/
theorem leads_of_planned (h : Settled c g maxVisits entry s t log) (hN : g.node? K = some N)
    (hPlan : planAt? g N.address = some plan) (hRun : c.apply N.address N.pre u = (.ok step, v)) :
    step.post = { N.pre with result := plan.result?, exception := none } ∧
      ∃ b, c.method.code.next? N.address = some b ∧ step.successors = [(b, step.post)] := by
  have hMem : N ∈ g.pileNodes N.address :=
    List.mem_filterMap.mpr ⟨K, (h.recording.piled.mem_iff _ _).mpr ⟨N, hN, rfl⟩, hN⟩
  obtain ⟨_, i, hi, hFound⟩ := planAt?_eq_some_iff.mp hPlan
  rw [h.recording.sameMethod] at hi
  refine Context.leads_of_next hi ?_ hRun
  cases planned_of_plan? hFound with
  | loadClass _ hArg hName =>
      exact Context.invoke_classForName hArg (h.recording.piled.eq_of_agreed? hName hN rfl) (h.known _ _ _ hPlan)
  | loadString text _ => exact absurd hPlan (h.stringless _ _ _)
  | dropCast hHolds =>
      exact Run.ends_ofExcept.mpr (Context.checkCast_of_holds (List.all_eq_true.mp hHolds N hMem) _)

/-- What takes the result of a look-up takes the class. -/
theorem result_eq (h : Settled c g maxVisits entry s t log) (hN : g.node? K = some N)
    (hFound : lookup? c.method.code (planAt? g) N.address = some b)
    (hPlan : planAt? g b = some (.loadClass dst type)) : N.pre.result = some (.type type) := by
  obtain ⟨dst', _, _, hTakes, _⟩ := h.fits.of_lookup? hFound
  have hFirst : K ≠ 0 := by
    rintro rfl
    obtain ⟨N₀, hN₀, hStart, _⟩ := (h.recording.rooted hN).1.first
    obtain rfl := Option.some.inj (hN₀.symm.trans hN)
    rw [hStart, lookup?, Code.previous?_zero] at hFound
    cases hFound
  obtain ⟨p, M, R, _, hM, _, hRecords, hPlace⟩ := h.recording.exists_parent hN hFirst
  obtain ⟨i, hi, hHeeds⟩ := Context.heeds_of_apply h.lapse hRecords.applied
  -- control has not been sent there, and it is no handler, so that the look-up has come before
  have hReaches := hHeeds.reaches _ hPlace
  generalize hTo : (N.address, N.pre) = x at hReaches
  cases hReaches with
  | next _ hNext =>
      obtain ⟨rfl, hPre⟩ := Prod.mk.inj hTo
      obtain rfl := Code.next?_injective hNext (lookup?_eq_some_iff.mp hFound).1
      rw [hPre, (h.leads_of_planned hM hPlan hRecords.applied).1]
      rfl
  | target hNamed =>
      obtain ⟨rfl, _⟩ := Prod.mk.inj hTo
      have hNone := h.wellFormed.targets i (Code.mem_of_at? hi) _ hNamed
      rw [hTakes] at hNone
      cases hNone
  | @handler k _ hCovers _ =>
      obtain ⟨hHere, _⟩ := Prod.mk.inj hTo
      obtain ⟨b, hb, _, hMem⟩ := Method.mem_handlersAt.mp hCovers
      obtain ⟨r, hException⟩ := h.wellFormed.exists_moveException (List.mem_flatMap.mpr ⟨b, hb, hMem⟩)
      rw [← hHere, hTakes] at hException
      cases hException

/-- Where a class is taken, the register is there that it is assigned to. -/
theorem lt_registerCount (h : Settled c g maxVisits entry s t log) (hN : g.node? K = some N)
    (hi : c.method.code.at? N.address = some (.moveResult dst)) : dst < N.pre.registerCount := by
  obtain ⟨R, _, hRecords⟩ := h.recording.records K N hN
  obtain ⟨i, o, hi', hDoes, _⟩ := Context.exists_outcome hRecords.applied
  obtain rfl := Option.some.inj (hi'.symm.trans hi)
  obtain ⟨hDone, _⟩ := Prod.mk.inj hDoes
  cases hAssign : N.pre.resting.assign dst (N.pre.result.getD (.unknown .object)) with
  | ok p => exact (State.lt_of_assign hAssign : dst < N.pre.resting.registerCount)
  | error e =>
      change (N.pre.resting.assign dst _).map _ = _ at hDone
      rw [hAssign] at hDone
      cases hDone

theorem exists_addressOf? (h : Settled c g maxVisits entry s t log) (hPlan : planAt? g a = some plan) :
    ∃ k, g.addressOf? k = some a := by
  obtain ⟨hReached, _⟩ := planAt?_eq_some_iff.mp hPlan
  obtain ⟨k, hk⟩ := List.exists_mem_of_ne_nil (g.pile a) (by simpa [Graph.isReached] using hReached)
  exact ⟨k, h.recording.piled.mem_pile_iff_addressOf?.mp hk⟩

/-- What there is a plan for has gone on to the next instruction. -/
theorem goesTo_next (h : Settled c g maxVisits entry s t log) (hN : g.node? K = some N)
    (hPlan : planAt? g N.address = some plan) : ∃ b, c.method.code.next? N.address = some b ∧ g.GoesTo K b := by
  obtain ⟨R, hR, hRecords⟩ := h.recording.records K N hN
  obtain ⟨_, b, hNext, hLeads⟩ := h.leads_of_planned hN hPlan hRecords.applied
  exact ⟨b, hNext, h.recording.goesTo h.completed hN hR hLeads⟩

/-- The plans can be carried out. -/
theorem ready (h : Settled c g maxVisits entry s t log) : Ready g where
  stringless := h.stringless
  casts p hp hPlan := by
    refine ⟨fun k hk => ?_, h.exists_addressOf? hPlan⟩
    obtain ⟨N, hN, hHere⟩ := Graph.addressOf?_eq_some_iff.mp hk
    rw [← hHere] at hPlan ⊢
    rw [h.recording.sameMethod]
    exact h.goesTo_next hN hPlan
  taken p dst type hp hPlan := by
    have hNext := Code.next?_addressAt hp
    obtain ⟨b, hNext', hTakes⟩ := (fits_planAt? h.stringless).result _ dst type hPlan
    obtain rfl := Option.some.inj (hNext'.symm.trans hNext)
    rw [h.recording.sameMethod] at hPlan hNext hTakes
    refine ⟨fun k hk => ?_, ?_⟩
    · obtain ⟨N, hN, hHere⟩ := Graph.addressOf?_eq_some_iff.mp hk
      rw [h.recording.sameMethod] at hHere ⊢
      rw [← hHere] at hTakes ⊢
      obtain ⟨R, hR, hRecords⟩ := h.recording.records k N hN
      obtain ⟨b, _, _, hAfter, hLeads, _⟩ := Context.apply_assigns hTakes rfl rfl hRecords.applied
      exact ⟨b, hAfter, h.recording.goesTo h.completed hN hR hLeads⟩
    · obtain ⟨k, hk⟩ := h.exists_addressOf? hPlan
      obtain ⟨N, hN, hHere⟩ := Graph.addressOf?_eq_some_iff.mp hk
      obtain ⟨b, hAfter, ⟨C, _, hThere⟩, _⟩ := h.goesTo_next hN (hHere ▸ hPlan)
      rw [hHere, hNext] at hAfter
      obtain rfl := Option.some.inj hAfter
      exact ⟨C, h.recording.sameMethod ▸ hThere⟩
  room K N dst type hN hPlan := by
    obtain ⟨R, hR, hRecords⟩ := h.recording.records K N hN
    obtain ⟨hPost, b, hNext, hLeads⟩ := h.leads_of_planned hN hPlan hRecords.applied
    obtain ⟨b', hNext', hTakes⟩ := h.fits.result _ dst type hPlan
    obtain rfl := Option.some.inj (hNext'.symm.trans hNext)
    obtain ⟨C, _, M, hM, hPlace⟩ := (h.recording.mem_successors_iff h.completed hN hR (x := (b', R.step.post))).mp
      (hLeads ▸ List.mem_singleton_self _)
    obtain ⟨rfl, hPre⟩ := Prod.mk.inj hPlace
    have hLess := h.lt_registerCount hM hTakes
    rwa [hPre, hPost] at hLess

/-- What there is a plan for has changed no register. -/
theorem rests (h : Settled c g maxVisits entry s t log) (hN : g.node? K = some N)
    (hPlan : planAt? g N.address = some plan) (hRecords : N.Records g c R) :
    ∃ b, Pruning.Rests c g (fun _ _ => True) K N R.step b ∧
      (executed c.method.code (planAt? g) b).any Instruction.takesResult = false := by
  obtain ⟨_, i, hi, hFound⟩ := planAt?_eq_some_iff.mp hPlan
  rw [h.recording.sameMethod] at hi
  have hPlanned := planned_of_plan? hFound
  obtain ⟨hPost, b, hNext, hLeads⟩ := h.leads_of_planned hN hPlan hRecords.applied
  refine ⟨b, ⟨hLeads, hNext, h.wellFormed.isHandler_eq_false hi hPlanned.takesException,
    h.wellFormed.isHandler_next? hi hPlanned.fallsThrough hNext, fun _ _ _ _ => trivial, fun _ _ => ?_⟩, ?_⟩
  · rw [hPost]
    exact ⟨⟨rfl, rfl⟩, fun _ _ => rfl⟩
  · cases hExecuted : executed c.method.code (planAt? g) b with
    | none => rfl
    | some j =>
        rcases (h.fits.executed_cases hExecuted).2 with ⟨_, _, _, _, _, _, rfl⟩ | ⟨hNone, hj⟩
        · rfl
        · cases hPlanned with
          | loadClass _ _ _ =>
              rw [lookup?_eq_some_iff.mpr ⟨hNext, _, _, hPlan⟩] at hNone
              cases hNone
          | loadString text _ => exact absurd hPlan (h.stringless _ _ _)
          | dropCast _ => exact h.wellFormed.takesResult_next? hi rfl hNext hj

/-- Calls, casts and what takes results aside, instructions are executed as they were. -/
theorem executed_eq (h : Settled c g maxVisits entry s t log) (hi : c.method.code.at? a = some i)
    (hCall : i.isCall = false) (hTakes : i.takesResult = false) (hCast : ∀ r d, i ≠ .checkCast r d) :
    executed c.method.code (planAt? g) a = some i := by
  have hNone : planAt? g a = none := by
    cases hPlan : planAt? g a with
    | none => rfl
    | some plan =>
        obtain ⟨_, j, hj, hFound⟩ := planAt?_eq_some_iff.mp hPlan
        rw [h.recording.sameMethod] at hj
        obtain rfl := Option.some.inj (hj.symm.trans hi)
        cases planned_of_plan? hFound with
        | dropCast _ => exact absurd rfl (hCast _ _)
        | _ => cases hCall
  have hFound := h.fits.lookup?_eq_none (a := a) (by rw [hi, Option.any_some, hTakes])
  rw [executed, hNone, if_neg (by simp), origin_of_eq_none hFound, standing_of_eq_none hNone hFound, hi]

/-- What stands for an instruction is that or loads the class that is taken there. -/
theorem spares (h : Settled c g maxVisits entry s t log) (hN : g.node? K = some N)
    (hi : executed c.method.code (planAt? g) N.address = some i) :
    c.method.code.at? N.address = some i ∨ Pruning.TakesClass c N i := by
  rcases (h.fits.executed_cases hi).2 with ⟨b, dst, type, hFound, hPlan, hTakes, rfl⟩ | ⟨_, hSame⟩
  · exact .inr (.intro hTakes (h.result_eq hN hFound hPlan))
  · exact .inl hSame

/-- Where the method has returned it does so still. -/
theorem executed_of_returned (h : Settled c g maxVisits entry s t log) {x : Option Value}
    (hReturned : g.returned? N = some x) : executed c.method.code (planAt? g) N.address ≠ none := by
  unfold Graph.returned? at hReturned
  rw [h.recording.sameMethod] at hReturned
  cases hi : c.method.code.at? N.address with
  | none =>
      rw [hi] at hReturned
      cases hReturned
  | some i =>
      rw [hi] at hReturned
      cases i with
      | returnVoid => simp [h.executed_eq hi rfl rfl (by simp)]
      | returnValue src => simp [h.executed_eq hi rfl rfl (by simp)]
      | _ => cases hReturned

end Settled

section Perform

variable {m : Machine} {method : Method} {entry : State} {g : Graph}

theorem exists_settled (hWell : method.WellFormed) (hRun : m.execute method entry = .ok g)
    (hDone : g.status = .completed)
    (hKnown : ∀ a dst type, (a, .loadClass dst type) ∈ plans g → m.classes.knows type = true)
    (hStrings : ∀ a receiver text, (a, .loadString receiver text) ∉ plans g) :
    ∃ log t, Settled (m.context method 0) g m.limits.maxVisits entry ⟨.after entry, m.limits.maxNodes⟩ t log := by
  obtain ⟨log, t, hRecording, _⟩ := Machine.execute_paid hRun hDone
  exact ⟨log, t, hRecording, hDone, hWell, Machine.callsLapse_context m method 0,
    fun a dst type hPlan => hKnown a dst type (mem_plans_iff.mpr hPlan),
    fun a receiver text hPlan => hStrings a receiver text (mem_plans_iff.mpr hPlan)⟩

/-- A complete execution tells what is done by what the edits leave of the method. -/
theorem exists_reduced {method' : Method} {label : Address → Address} (hWell : method.WellFormed)
    (hRun : m.execute method entry = .ok g) (hDone : g.status = .completed) {s t : Supply} {log : List Performance}
    (hSettled : Settled (m.context method 0) g m.limits.maxVisits entry s t log)
    (hMoved : method.Moved method' label (standing method.code (planAt? g))) :
    ∃ log t, Pruning.Reduced (m.context method' 0) (m.context method 0) g m.limits.maxVisits entry
      ⟨.after entry, m.limits.maxNodes⟩ t log (label ∘ origin method.code (planAt? g))
      (executed method.code (planAt? g)) (fun _ _ => True) False := by
  have hFits := hSettled.fits
  refine Machine.exists_reduced _ _ hRun hDone (hFits.retains hWell hMoved)
    (fun a i hi hSame => hFits.handlersAt hWell hMoved hi hSame) (fun K N j hN hj => hSettled.spares hN hj)
    (fun b hb hNone => ?_) (fun _ _ _ _ _ _ _ => trivial) (fun _ _ _ _ _ _ _ _ _ => .inl trivial)
    fun K N R hN hRecords hNone => ?_
  · obtain ⟨x, hx, hLater, hSome⟩ := hFits.exists_executed hMoved hb
    exact hSome (hNone x hx hLater)
  · obtain ⟨plan, hPlan⟩ := hFits.exists_plan (hSettled.recording.sameMethod ▸ hSettled.recording.piled.hasAddress hN) hNone
    exact hSettled.rests hN hPlan hRecords

/-- Loading classes in place of look-ups and dropping casts that cannot fail succeeds on the complete graph of a
well-formed method, if the classes are known and no string is to be loaded. What is left can be executed again from
the same entry, completely. Every execution takes the place of one of the original method, with the same contents of
the registers up to the names of instances, and goes to the same places, so that each branch is decided as before; the
same primitive values are returned.

The ranges of handlers have to begin and end at places of the body. Validation does not ask for this, but every method
that is read from a listing is of this kind, and edits keep it so. -/
theorem perform_decides (hWell : method.WellFormed) (hBounded : method.Bounded) (hDirect : entry.Direct)
    (hRun : m.execute method entry = .ok g) (hDone : g.status = .completed)
    (hKnown : ∀ a dst type, (a, .loadClass dst type) ∈ plans g → m.classes.knows type = true)
    (hStrings : ∀ a receiver text, (a, .loadString receiver text) ∉ plans g) (stale : Bool) (counts : Counts) :
    ∃ result r label g', perform m ⟨⟨g, stale⟩, counts⟩ = (.ok result, r) ∧
      m.execute r.draft.graph.method entry = .ok g' ∧ g'.status = .completed ∧
        g'.Resembles g label (executed method.code (planAt? g)) (fun _ _ => True) ∧
          (∀ a c lhs rhs target, method.code.at? a = some (.branch c lhs rhs target) →
            executed method.code (planAt? g) a = some (.branch c lhs rhs target)) ∧
            ∀ v, v.isPrimitive = true → (g'.Gives v ↔ g.Gives v) := by
  obtain ⟨hMethod, _, hConsistent, _⟩ := Machine.execute_consistent hRun
  obtain ⟨log, t, hSettled⟩ := exists_settled hWell hRun hDone hKnown hStrings
  obtain ⟨result, r, hPerform, label, bound, hChanged⟩ :=
    (perform_yields m (r := ⟨⟨g, stale⟩, counts⟩) hConsistent (hMethod.symm ▸ hBounded)
      (by simp [Graph.isComplete, hDone]) hSettled.ready).exists_eq
  have hMoved := hChanged.reworked.moved
  rw [hMethod] at hMoved
  obtain ⟨log', t', hReduced⟩ := exists_reduced hWell hRun hDone hSettled hMoved
  obtain ⟨g', hAgain, hCompleted⟩ :=
    (Machine.execute_reduced hRun hReduced hDirect hChanged.consistent.valid).resolve_right fun h => h.1
  have hResembles := Machine.execute_resembles hReduced hDirect hAgain hCompleted
  exact ⟨result, r, _, g', hPerform, hAgain, hCompleted, hResembles,
    fun a c lhs rhs target hi => hSettled.executed_eq hi rfl rfl (by simp),
    fun v hv => hResembles.gives_iff (fun K N x _ hReturned => hSettled.executed_of_returned hReturned) hv⟩

/-- A method that says whether the class of a name is that of strings. -/
def namingMethod : Method where
  reference := ⟨⟨"La;"⟩, "isString", [], .int⟩
  flags := { static := true }
  locals := 2
  code := [.const 0 (.string "java.lang.String"),
    .invoke .static FrameworkMethod.classForName.reference [0], .moveResult 1, .checkCast 1 .classObject,
    .const 0 (.type .string), .branch .eq 0 (some 1) 16, .const 0 (.int 0), .returnValue 0, .const 0 (.int 1),
    .returnValue 0]
  tries := []

theorem bounded_namingMethod : namingMethod.Bounded := nofun

theorem plans_namingMethod : plans (Machine.bare.graphOf namingMethod (Machine.initialState namingMethod)) =
    [(2, .loadClass 1 .string), (6, .dropCast)] := by
  decide +kernel

theorem perform_decides_namingMethod :
    ∃ result r label g',
      perform Machine.bare ⟨⟨Machine.bare.graphOf namingMethod (Machine.initialState namingMethod), false⟩, .empty⟩ =
        (.ok result, r) ∧
      Machine.bare.execute r.draft.graph.method (Machine.initialState namingMethod) = .ok g' ∧
      g'.status = .completed ∧
      g'.Resembles (Machine.bare.graphOf namingMethod (Machine.initialState namingMethod)) label
        (executed namingMethod.code
          (planAt? (Machine.bare.graphOf namingMethod (Machine.initialState namingMethod)))) (fun _ _ => True) ∧
      (∀ a c lhs rhs target, namingMethod.code.at? a = some (.branch c lhs rhs target) →
        executed namingMethod.code (planAt? (Machine.bare.graphOf namingMethod (Machine.initialState namingMethod))) a =
          some (.branch c lhs rhs target)) ∧
      ∀ v, v.isPrimitive = true →
        (g'.Gives v ↔ (Machine.bare.graphOf namingMethod (Machine.initialState namingMethod)).Gives v) :=
  perform_decides (by decide +kernel) bounded_namingMethod (Constants.direct_initialState namingMethod)
    (Machine.execute_eq_graphOf (by decide +kernel)) (by decide +kernel)
    (fun a dst type hMem => by
      rw [plans_namingMethod] at hMem
      obtain ⟨_, _, rfl⟩ : a = 2 ∧ dst = 1 ∧ type = .string := by simpa using hMem
      decide)
    (fun a receiver text hMem => by simp [plans_namingMethod] at hMem) false .empty

end Perform

/-- A method that says whether a string that it makes of no bytes is the literal without characters. -/
def comparingMethod : Method where
  reference := ⟨⟨"La;"⟩, "same", [], .int⟩
  flags := { static := true }
  locals := 3
  code := [.const 0 (.int 0), .newArray 0 0 ⟨"[B"⟩, .newInstance 1 .string,
    .invoke .direct FrameworkMethod.stringOfBytes.reference [1, 0], .const 2 (.string ""),
    .branch .eq 1 (some 2) 18, .const 0 (.int 0), .returnValue 0, .const 0 (.int 1), .returnValue 0]
  tries := []

theorem bounded_comparingMethod : comparingMethod.Bounded := nofun

/-- The execution of `comparingMethod`. -/
def comparingGraph : Graph := Machine.bare.graphOf comparingMethod (Machine.initialState comparingMethod)

/-- What `comparingMethod` is replaced by. -/
def comparingRevision : Revision := (perform Machine.bare ⟨⟨comparingGraph, false⟩, .empty⟩).2

theorem plans_comparingGraph : plans comparingGraph = [(7, .loadString 1 "")] := by
  decide +kernel

theorem perform_comparingGraph :
    perform Machine.bare ⟨⟨comparingGraph, false⟩, .empty⟩ = (.ok .changed, comparingRevision) := by
  have hSome : (perform Machine.bare ⟨⟨comparingGraph, false⟩, .empty⟩).1.toOption = some .changed := by
    decide +kernel
  unfold comparingRevision
  generalize perform Machine.bare ⟨⟨comparingGraph, false⟩, .empty⟩ = x at hSome
  obtain ⟨_ | result, r⟩ := x
  · cases hSome
  · obtain rfl := Option.some.inj hSome
    rfl

theorem not_gives_comparingGraph : ¬ comparingGraph.Gives (.int 1) := by
  decide +kernel

/-- A literal in place of a string that is made is not another instance than the same literal elsewhere, so that a
branch that compares the two is decided otherwise. -/
theorem exists_perform_gives_other :
    ¬ ∀ (m : Machine) (method : Method) (entry : State) (g : Graph) (result : PassResult) (r : Revision),
      method.WellFormed → method.Bounded → entry.Direct → m.execute method entry = .ok g → g.status = .completed →
        (∀ a dst type, (a, .loadClass dst type) ∈ plans g → m.classes.knows type = true) →
          perform m ⟨⟨g, false⟩, .empty⟩ = (.ok result, r) →
            ∃ g', m.execute r.draft.graph.method entry = .ok g' ∧ g'.status = .completed ∧
              ∀ v, v.isPrimitive = true → (g'.Gives v ↔ g.Gives v) := by
  intro h
  obtain ⟨g', hAgain, _, hSame⟩ := h Machine.bare comparingMethod (Machine.initialState comparingMethod)
    comparingGraph .changed comparingRevision (by decide +kernel) bounded_comparingMethod
    (Constants.direct_initialState comparingMethod) (Machine.execute_eq_graphOf (by decide +kernel))
    (by decide +kernel) (fun a dst type hMem => by simp [plans_comparingGraph] at hMem) perform_comparingGraph
  have hOther : ∃ g', Machine.bare.execute comparingRevision.draft.graph.method
      (Machine.initialState comparingMethod) = .ok g' ∧ g'.Gives (.int 1) :=
    ⟨_, Machine.execute_eq_graphOf (by decide +kernel), by decide +kernel⟩
  obtain ⟨g₁, hOther, hOne⟩ := hOther
  obtain rfl := Except.ok.inj (hAgain.symm.trans hOther)
  exact not_gives_comparingGraph ((hSame (.int 1) rfl).mp hOne)

end Peephole

end Dalvik
