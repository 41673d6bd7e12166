import Dalvik.Proofs.MirroredRuns
import Dalvik.Proofs.Propagation
import Dalvik.Proofs.Pruning

/-!
What the run of a method from which instructions have been removed, and in which known results are loaded, has in
common with the run of the original one: it is complete, and its executions are those of the instructions for which
something stands there, with the same contents of the registers that matter.
-/

namespace Dalvik

open Semantics (Context)

/-- An execution of one graph does what one of another graph does. `label` says where the places of the second
method are in the first, `f` renames the instances of the first run, and `keep` says which registers matter. -/
structure Node.Echoes (g G : Graph) (label : Address → Address) (f : Nat → Nat) (keep : Register → Prop)
    (n N : Node) : Prop where
  injective : Function.Injective f
  address : n.address = label N.address
  insn : g.method.code.at? n.address = (G.method.code.at? N.address).map (Instruction.mapTargets label)
  pre : (n.pre.rename f).Agrees keep N.pre
  post : (n.post.rename f).Agrees keep N.post
  returned : (g.returned? n).map (Option.map (Value.rename f)) = G.returned? N

/-- An execution of one graph takes the place of one of another graph: the registers that matter hold the same before
it and after it, it returns the same, and goes to the same places. -/
structure Node.Resembles (g G : Graph) (label : Address → Address) (f : Nat → Nat) (keep : Register → Prop)
    (k K : NodeId) (n N : Node) : Prop where
  injective : Function.Injective f
  address : n.address = label N.address
  pre : (n.pre.rename f).Agrees keep N.pre
  post : (n.post.rename f).Agrees keep N.post
  returned : (g.returned? n).map (Option.map (Value.rename f)) = G.returned? N
  leads : ∀ a, a ∈ g.leadsTo k ↔ a ∈ (G.leadsTo K).map label

namespace State

variable {Λ : Links} {takes : Bool} {keep : Register → Prop} {s t : State}

/-- States that are alike agree once instances have been renamed. -/
theorem Tallies.agrees (h : s.Tallies Λ takes keep t) {f : Nat → Nat} (hf : Λ.Spans f) :
    (s.rename f).Agrees keep t where
  shape := by
    have hShape := h.sameShape ⟨f, hf⟩
    exact ⟨by simpa [State.rename] using hShape.locals, by simpa [State.rename] using hShape.params⟩
  registers r hr := by
    rw [registers_rename, List.getElem?_map]
    exact h.getElem?_eq hf hr

theorem Agrees.registers_eq (h : s.Agrees (fun _ => True) t) : s.registers = t.registers :=
  List.ext_getElem? fun r => h.registers r trivial

end State

theorem Node.Echoes.weaken {g G : Graph} {label : Address → Address} {f : Nat → Nat}
    {keep keep' : Register → Prop} {n N : Node} (h : n.Echoes g G label f keep N)
    (hKeep : ∀ r, keep' r → keep r) : n.Echoes g G label f keep' N :=
  ⟨h.injective, h.address, h.insn, h.pre.mono hKeep, h.post.mono hKeep, h.returned⟩

/-- The executions of one graph do what those of another one do whose instructions are left. -/
structure Graph.Echoes (g G : Graph) (label : Address → Address) (stands : Address → Option (Instruction Address))
    (needs : NodeId → Register → Prop) : Prop where
  forward : ∀ k n, g.node? k = some n →
    ∃ f K N, G.node? K = some N ∧ stands N.address ≠ none ∧ n.Echoes g G label f (needs K) N
  backward : ∀ K N, G.node? K = some N → stands N.address ≠ none →
    ∃ f k n, g.node? k = some n ∧ n.Echoes g G label f (needs K) N
  reached : ∀ a, a ∈ g.reached ↔ ∃ b ∈ G.reached, stands b ≠ none ∧ a = label b

/-- The executions of one graph take the places of those of another one for whose instructions something stands. -/
structure Graph.Resembles (g G : Graph) (label : Address → Address) (stands : Address → Option (Instruction Address))
    (needs : NodeId → Register → Prop) : Prop where
  forward : ∀ k n, g.node? k = some n →
    ∃ f K N, G.node? K = some N ∧ stands N.address ≠ none ∧ n.Resembles g G label f (needs K) k K N
  backward : ∀ K N, G.node? K = some N → stands N.address ≠ none →
    ∃ f k n, g.node? k = some n ∧ n.Resembles g G label f (needs K) k K N
  reached : ∀ a, a ∈ g.reached ↔ ∃ b ∈ G.reached, stands b ≠ none ∧ a = label b

/-- Where what stands there is the instruction itself, that is what is executed. -/
theorem Graph.Resembles.echoes {g G : Graph} {label : Address → Address}
    {stands : Address → Option (Instruction Address)} {needs : NodeId → Register → Prop}
    (h : g.Resembles G label stands needs)
    (hInsn : ∀ K N, G.node? K = some N → stands N.address ≠ none → g.method.code.at? (label N.address) =
      (G.method.code.at? N.address).map (Instruction.mapTargets label)) : g.Echoes G label stands needs where
  forward k n hn := by
    obtain ⟨f, K, N, hN, hKept, hSame⟩ := h.forward k n hn
    exact ⟨f, K, N, hN, hKept, hSame.injective, hSame.address, hSame.address ▸ hInsn K N hN hKept, hSame.pre,
      hSame.post, hSame.returned⟩
  backward K N hN hKept := by
    obtain ⟨f, k, n, hn, hSame⟩ := h.backward K N hN hKept
    exact ⟨f, k, n, hn, hSame.injective, hSame.address, hSame.address ▸ hInsn K N hN hKept, hSame.pre, hSame.post,
      hSame.returned⟩
  reached := h.reached

namespace Pruning.Reduced

variable {c c' : Context} {G g : Graph} {maxVisits maxVisits' : Nat} {entry entry' : State}
  {s t s' t' : Supply} {log log' : List Performance} {label : Address → Address}
  {stands : Address → Option (Instruction Address)} {needs : NodeId → Register → Prop} {mayFail : Prop}
  {K k : NodeId} {N n : Node} {R r : Performance} {Λ : Links} {i : Instruction Address}

/-- What an instruction returns it has read. -/
theorem returned_eq (h : Reduced c c' G maxVisits entry s t log label stands needs mayFail)
    (hN : G.node? K = some N) (hi : stands N.address = some i) (hMethod : g.method = c.method)
    (hPlace : n.address = label N.address) {f : Nat → Nat} (hPost : (n.post.rename f).Agrees (needs K) N.post) :
    (g.returned? n).map (Option.map (Value.rename f)) = G.returned? N := by
  have hNew := h.insn hN hi
  have hReads := h.reads K N i hN hi
  unfold Graph.returned?
  rw [hMethod, hPlace, hNew, h.recording.sameMethod]
  rcases h.spares K N i hN hi with hOld | ⟨hOld, _⟩
  · rw [hOld]
    cases i with
    | returnVoid => rfl
    | returnValue src =>
        have hRead := hPost.read_eq (hReads src (.head _))
        rw [State.read_rename] at hRead
        dsimp only [Instruction.mapTargets]
        rw [← hRead]
        cases n.post.read src <;> rfl
    | _ => rfl
  · rw [hOld]
    rfl

/-- An execution that takes the place of one for which something stands there does what that does. -/
theorem exists_resembles (h : Reduced c c' G maxVisits entry s t log label stands needs mayFail)
    (hg : g.Recording c maxVisits' entry' s' log' t') (hLeft : ∀ r ∈ log', r.after.budget ≠ 0)
    (hDone : g.status = .completed) (hn : g.node? k = some n) (hr : log'[k]? = some r)
    (hJoins : Joins c' G log label stands needs r.before.heap n.address n.pre K Λ N R)
    (hi : stands N.address = some i) : ∃ f, n.Resembles g G label f (needs K) k K N := by
  obtain ⟨r', hr', hRecords⟩ := hg.records k n hn
  obtain rfl := Option.some.inj (hr'.symm.trans hr)
  obtain ⟨Λ', hΛ, hPost, hMatched⟩ :=
    h.follows_of_left hJoins hi hRecords.applied (hLeft r' (List.mem_of_getElem? hr))
  obtain ⟨R', hR', hRecorded⟩ := h.recording.records K N hJoins.node
  obtain rfl := Option.some.inj (hR'.symm.trans hJoins.performed)
  obtain ⟨f, hf⟩ := hΛ.bond.exists_spans
  rw [← hRecords.post, ← hRecorded.post] at hPost
  have hAfter := hPost.agrees hf
  refine ⟨f, hf.injective, hJoins.place, (hJoins.tallies.grow hΛ.grows).agrees hf, hAfter,
    h.returned_eq hJoins.node hi hg.sameMethod hJoins.place hAfter, fun a => ?_⟩
  refine hg.mem_leadsTo_iff hDone hn hr h.recording h.completed hJoins.node hR' (fun p hp => ?_) (fun q hq => ?_) a
  · obtain ⟨q, hq, hPlace, _⟩ := hMatched.forward p hp
    exact ⟨q, hq, hPlace⟩
  · obtain ⟨p, hp, hPlace, _⟩ := hMatched.backward q hq
    exact ⟨p, hp, hPlace⟩

section

variable (h : Reduced c c' G maxVisits entry s t log label stands needs mayFail)
  (hg : g.Recording c maxVisits' entry' s' log' t') (hFrugal : ∀ a pre, Run.Frugal (c.apply a pre))
  (hLeft : ∀ r ∈ log', r.after.budget ≠ 0) (hDone : g.status = .completed)
  (hEntry : c'.method.code ≠ [] → Joined c' G log label stands needs s'.heap 0 entry' 0)

include h hg hFrugal hLeft hDone hEntry

/-- Every execution of the run does what one of the graph does. -/
theorem exists_resembled_of_node (hn : g.node? k = some n) :
    ∃ f K N, G.node? K = some N ∧ stands N.address ≠ none ∧ n.Resembles g G label f (needs K) k K N := by
  have hCode : c'.method.code ≠ [] := fun hEmpty => (hg.rooted hn).2 (h.retains.eq_nil hEmpty)
  obtain ⟨r, K, hr, ⟨Λ, N, R, hJoins⟩, N', hN', hKept⟩ :=
    h.tells.exists_mate_of_node h.recording hg hFrugal hLeft (hEntry hCode) hn
  obtain rfl := Option.some.inj (hJoins.node.symm.trans hN')
  obtain ⟨i, hi⟩ := Option.ne_none_iff_exists'.mp hKept
  obtain ⟨f, hSame⟩ := h.exists_resembles hg hLeft hDone hn hr hJoins hi
  exact ⟨f, K, N, hN', hKept, hSame⟩

/-- Every execution of the graph for which something stands there is one of the run. -/
theorem exists_node_of_kept (hN : G.node? K = some N) (hKept : stands N.address ≠ none) :
    ∃ f k n, g.node? k = some n ∧ n.Resembles g G label f (needs K) k K N := by
  obtain ⟨i, hi⟩ := Option.ne_none_iff_exists'.mp hKept
  have hCode : c.method.code ≠ [] := by
    have hNew := h.insn hN hi
    intro hEmpty
    rw [hEmpty] at hNew
    cases hNew
  obtain ⟨k, n, r, hn, hr, Λ, N', R, hJoins⟩ :=
    h.tells.exists_joined_of_node h.recording hg hFrugal hLeft hDone (hEntry (h.recording.rooted hN).2) hCode hN
  obtain rfl := Option.some.inj (hJoins.node.symm.trans hN)
  obtain ⟨f, hSame⟩ := h.exists_resembles hg hLeft hDone hn hr hJoins hi
  exact ⟨f, k, n, hn, hSame⟩

theorem resembles : g.Resembles G label stands needs where
  forward _ _ hn := h.exists_resembled_of_node hg hFrugal hLeft hDone hEntry hn
  backward _ _ hN hKept := h.exists_node_of_kept hg hFrugal hLeft hDone hEntry hN hKept
  reached a := by
    rw [hg.piled.mem_reached]
    constructor
    · rintro ⟨k, n, hn, rfl⟩
      obtain ⟨f, K, N, hN, hKept, hSame⟩ := h.exists_resembled_of_node hg hFrugal hLeft hDone hEntry hn
      exact ⟨N.address, (h.recording.piled.mem_reached).mpr ⟨K, N, hN, rfl⟩, hKept, hSame.address⟩
    · rintro ⟨b, hb, hKept, rfl⟩
      obtain ⟨K, N, hN, rfl⟩ := (h.recording.piled.mem_reached).mp hb
      obtain ⟨f, k, n, hn, hSame⟩ := h.exists_node_of_kept hg hFrugal hLeft hDone hEntry hN hKept
      exact ⟨k, n, hn, hSame.address⟩

end

/-- What the executions of the original method have cost is what is missing of their budget. -/
theorem sum_cost (h : Reduced c c' G maxVisits entry s t log label stands needs mayFail) :
    ((List.range G.nodes.size).map (cost log)).sum ≤ s.budget := by
  have hCosts : (List.range G.nodes.size).map (cost log) = log.map Performance.cost := by
    refine List.ext_getElem? fun K => ?_
    rw [List.getElem?_map, List.getElem?_map, ← h.recording.length]
    by_cases hBound : K < log.length
    · rw [List.getElem?_range hBound, List.getElem?_eq_getElem hBound]
      simp [cost, List.getElem?_eq_getElem hBound]
    · rw [List.getElem?_eq_none (by simpa using hBound), List.getElem?_eq_none (by simpa using hBound)]
      rfl
  have hTotal := h.recording.successive.total h.paid
  rw [hCosts]
  omega

end Pruning.Reduced

namespace Machine

open Pruning

variable {m : Machine} {method method' : Method} {entry : State} {G g : Graph}
  {label : Address → Address} {stands : Address → Option (Instruction Address)}
  {needs : NodeId → Register → Prop} {mayFail : Prop}

/-- A complete execution of a method tells what is done by what edits have made of it. -/
theorem exists_reduced (needs : NodeId → Register → Prop) (mayFail : Prop)
    (hRun : m.execute method entry = .ok G) (hDone : G.status = .completed)
    (hRetains : method.Retains method' label stands)
    (hHandlers : ∀ a i, method.code.at? a = some i → stands a = some i →
      method'.handlersAt (label a) = (method.handlersAt a).map (Handler.retarget label))
    (hSpares : ∀ K N j, G.node? K = some N → stands N.address = some j →
      method.code.at? N.address = some j ∨ TakesClass (m.context method 0) N j)
    (hEnds : ∀ b, method.code.HasAddress b →
      (∀ x, method.code.HasAddress x → b ≤ x → stands x = none) → mayFail)
    (hReads : ∀ K N i, G.node? K = some N → stands N.address = some i → ∀ r ∈ i.reads, needs K r)
    (hPasses : ∀ K N i C, G.node? K = some N → stands N.address = some i → C ∈ G.childrenOf K →
      ∀ r, needs C r → i.Passes (needs K) r)
    (hGone : ∀ K N R, G.node? K = some N → N.Records G (m.context method 0) R → stands N.address = none →
      ∃ b, Rests (m.context method 0) G needs K N R.step b ∧ (stands b).any Instruction.takesResult = false) :
    ∃ log t, Reduced (m.context method' 0) (m.context method 0) G m.limits.maxVisits entry
      ⟨.after entry, m.limits.maxNodes⟩ t log label stands needs mayFail := by
  obtain ⟨log, t, hRecording, _, hPaid⟩ := execute_paid hRun hDone
  refine ⟨log, t, hRecording, hDone, m.context_steady method 0, hPaid, m.callsMirror_context method 0, rfl,
    rfl, hRetains, hHandlers, hSpares, hEnds, hReads, hPasses, fun K N R hN hR hNone => ?_⟩
  obtain ⟨R', hR', hRecords⟩ := hRecording.records K N hN
  obtain rfl := Option.some.inj (hR'.symm.trans hR)
  exact hGone K N R' hN hRecords hNone

/-- A complete execution of a method tells what is left of it does. -/
theorem exists_pruned (needs : NodeId → Register → Prop) (mayFail : Prop)
    (hRun : m.execute method entry = .ok G) (hDone : G.status = .completed)
    (hThinned : method.Thinned method' label stands)
    (hSpares : ∀ a j, stands a = some j → method.code.at? a = some j)
    (hEnds : ∀ b, method.code.HasAddress b →
      (∀ x, method.code.HasAddress x → b ≤ x → stands x = none) → mayFail)
    (hReads : ∀ K N i, G.node? K = some N → stands N.address = some i → ∀ r ∈ i.reads, needs K r)
    (hPasses : ∀ K N i C, G.node? K = some N → stands N.address = some i → C ∈ G.childrenOf K →
      ∀ r, needs C r → i.Passes (needs K) r)
    (hGone : ∀ K N R, G.node? K = some N → N.Records G (m.context method 0) R → stands N.address = none →
      ∃ b, Idles (m.context method 0) G needs K N R.step b) :
    ∃ log t, Pruned (m.context method' 0) (m.context method 0) G m.limits.maxVisits entry
      ⟨.after entry, m.limits.maxNodes⟩ t log label stands needs mayFail := by
  obtain ⟨log, t, hReduced⟩ := exists_reduced needs mayFail hRun hDone hThinned.retains
    (fun a i hi hStands => hThinned.handlers a i (Code.hasAddress_of_at? hi) hStands)
    (fun K N j _ hj => .inl (hSpares _ j hj)) hEnds hReads hPasses fun K N R hN hRecords hNone => by
      obtain ⟨b, hIdles⟩ := hGone K N R hN hRecords hNone
      refine ⟨b, hIdles.toRests, ?_⟩
      cases hj : stands b with
      | none => rfl
      | some j => exact hIdles.takes j (hSpares b j hj)
  exact ⟨log, t, hReduced, hSpares⟩

variable {t : Supply} {log : List Performance}

/-- The run of what edits have made of a method is complete, unless it fails. -/
theorem execute_reduced (hRun : m.execute method entry = .ok G)
    (h : Reduced (m.context method' 0) (m.context method 0) G m.limits.maxVisits entry
      ⟨.after entry, m.limits.maxNodes⟩ t log label stands needs mayFail) (hDirect : entry.Direct)
    (hValid : method'.validate = .ok ()) :
    (∃ g, m.execute method' entry = .ok g ∧ g.status = .completed) ∨
      mayFail ∧ ∃ e, m.execute method' entry = .error e :=
  execute_told hRun h.tells h.sum_cost
    (fun hCode => h.joined_entry hDirect rfl fun hEmpty => hCode (h.retains.eq_nil hEmpty)) hValid

theorem execute_pruned (hRun : m.execute method entry = .ok G)
    (h : Pruned (m.context method' 0) (m.context method 0) G m.limits.maxVisits entry
      ⟨.after entry, m.limits.maxNodes⟩ t log label stands needs mayFail) (hDirect : entry.Direct)
    (hValid : method'.validate = .ok ()) :
    (∃ g, m.execute method' entry = .ok g ∧ g.status = .completed) ∨
      mayFail ∧ ∃ e, m.execute method' entry = .error e :=
  execute_reduced hRun h.toReduced hDirect hValid

/-- A complete execution of what edits have made of a method does what the original one has done. -/
theorem execute_resembles (h : Reduced (m.context method' 0) (m.context method 0) G m.limits.maxVisits entry
      ⟨.after entry, m.limits.maxNodes⟩ t log label stands needs mayFail) (hDirect : entry.Direct)
    (hAgain : m.execute method' entry = .ok g) (hDone : g.status = .completed) :
    g.Resembles G label stands needs := by
  obtain ⟨log', t', hg, _, hPaid⟩ := execute_paid hAgain hDone
  exact h.resembles hg (fun a pre => (m.context_steady method' 0 a pre).frugal) (fun r hr => (hPaid r hr).left) hDone
    (h.joined_entry hDirect rfl)

/-- A complete execution of what is left of a method does what the original one has done. -/
theorem execute_echoes (h : Pruned (m.context method' 0) (m.context method 0) G m.limits.maxVisits entry
      ⟨.after entry, m.limits.maxNodes⟩ t log label stands needs mayFail) (hDirect : entry.Direct)
    (hAgain : m.execute method' entry = .ok g) (hDone : g.status = .completed) :
    g.Echoes G label stands needs := by
  refine (execute_resembles h.toReduced hDirect hAgain hDone).echoes fun K N hN hKept => ?_
  obtain ⟨i, hi⟩ := Option.ne_none_iff_exists'.mp hKept
  rw [(execute_consistent hAgain).1, h.recording.sameMethod]
  exact (h.insn hN hi).trans (congrArg (Option.map _) (h.same _ i hi)).symm

end Machine

end Dalvik
