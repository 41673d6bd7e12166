import Dalvik.Proofs.Proceeding
import Dalvik.Proofs.Propagation

/-!
Constant propagation leaves itself nothing to do. On the complete graph of an execution all its plans are carried out,
and the graph that they leave has none: an instruction that is still there has the executions that it had, in the same
states, and these have gone on to the next instruction if and only if they had before.
-/

namespace Dalvik

namespace Method

variable {m m' m'' : Method} {label : Address → Address} {stands : Address → Option (Instruction Address)}
  {bound p : Nat}

/-- A method has come from another one by edits that kept the last instruction, one after another, of which the first
was behind all others. Nothing is said of its handlers. -/
structure Resifted (m m' : Method) (label : Address → Address) (stands : Address → Option (Instruction Address))
    (bound : Nat) : Prop extends m.LeavesBefore m' label stands bound where
  ranked : ∃ rank, Ranked m.code m'.code label stands rank

/-- Control does not go on to a handler. -/
def HandlersApart (m : Method) : Prop :=
  ∀ a i b, m.code.at? a = some i → i.fallsThrough = true → m.code.next? a = some b → m.isHandler b = false

theorem WellFormed.handlersApart (h : m.WellFormed) : m.HandlersApart := fun _ _ _ => h.isHandler_next?

namespace Resifted

theorem refl (m : Method) : m.Resifted m id m.code.at? m.code.length :=
  ⟨.refl m, _, ranked_refl m.code⟩

theorem insn (h : m.Resifted m' label stands bound) {a : Address} {j : Instruction Address}
    (ha : m.code.HasAddress a) (hj : stands a = some j) : m'.code.at? (label a) = some (j.mapTargets label) := by
  obtain ⟨rank, hRanked⟩ := h.ranked
  obtain ⟨n, hn, rfl⟩ := ha
  rw [hRanked.place n (Nat.le_of_lt hn)]
  exact Code.at?_addressAt (hRanked.kept n hn j hj).2

theorem next? (h : m.Resifted m' label stands bound) {a : Address} {j : Instruction Address}
    (ha : m.code.HasAddress a) (hj : stands a = some j) : m'.code.next? (label a) = (m.code.next? a).map label := by
  obtain ⟨rank, hRanked⟩ := h.ranked
  exact hRanked.next? ha hj

theorem injective (h : m.Resifted m' label stands bound) {a b : Address} {i j : Instruction Address}
    (ha : m.code.HasAddress a) (hb : m.code.HasAddress b) (hi : stands a = some i) (hj : stands b = some j)
    (hSame : label a = label b) : a = b := by
  obtain ⟨rank, hRanked⟩ := h.ranked
  exact hRanked.sifted.injective ha hb hi hj hSame

theorem label_le (h : m.Resifted m' label stands bound) {x y : Address} (hx : m.code.HasPlace x)
    (hy : m.code.HasPlace y) (hLess : x ≤ y) : label x ≤ label y := by
  obtain ⟨rank, hRanked⟩ := h.ranked
  exact hRanked.sifted.label_le hx hy hLess

theorem label_lt (h : m.Resifted m' label stands bound) {x y : Address} {j : Instruction Address}
    (hx : m.code.HasAddress x) (hj : stands x = some j) (hy : m.code.HasPlace y) (hLess : x < y) :
    label x < label y := by
  obtain ⟨rank, hRanked⟩ := h.ranked
  exact hRanked.sifted.label_lt hx hj hy hLess

theorem bind_exchanged (h : m.Resifted m' label stands bound) (hp : p < bound) (hBound : p < m.code.length)
    (new : Option (Instruction Address)) {a : Address} (ha : m.code.HasAddress a) :
    ((stands a).bind fun _ => m'.code.exchanged p (new.map (Instruction.mapTargets label)) (label a)) =
      (Function.update stands (m.code.addressAt p) new a).map (Instruction.mapTargets label) :=
  h.toLeavesBefore.bind_exchanged (fun _ _ ha hj => h.insn ha hj) h.injective hp hBound new ha

/-- The next edit is before all others. `new` is what it puts in place of the instruction. -/
theorem step (h : m.Resifted m' label stands bound) (hp : p < bound) (hBound : p < m.code.length) {code : Code}
    {retarget : Bool} (new : Option (Instruction Address)) {rank : Nat → Nat}
    (hRanked : Ranked m'.code m''.code (m'.splice p 1 code retarget).2.label
      (m'.code.exchanged p (new.map (Instruction.mapTargets label))) rank)
    (hMethod : m'' = (m'.splice p 1 code retarget).1) :
    m.Resifted m'' ((m'.splice p 1 code retarget).2.label ∘ label)
      (Function.update stands (m.code.addressAt p) new) p := by
  obtain ⟨rank', hOld⟩ := h.ranked
  exact ⟨h.toLeavesBefore.step hp hBound new hMethod, _,
    hOld.trans hRanked fun a ha => h.bind_exchanged hp hBound new ha⟩

end Resifted

end Method

namespace Graph

variable {g g' : Graph} {label : Address → Address} {stands : Address → Option (Instruction Address)}
  {a b : Address} {i : Instruction Address} {k : NodeId} {n n' : Node}

theorem isAt_iff : g.isAt a k = true ↔ g.addressOf? k = some a := by
  unfold isAt addressOf?
  cases g.node? k <;> simp

theorem Piled.isReached_iff {code : Code} (hg : g.Piled code) :
    g.isReached a = true ↔ ∃ k, g.addressOf? k = some a := by
  rw [isReached, Bool.not_eq_true', List.isEmpty_eq_false_iff_exists_mem]
  exact exists_congr fun k => hg.mem_pile_iff_addressOf?

section Carried

variable (h : g.Carried g' label stands) (hg : g.Piled g.method.code) (hg' : g'.Piled g'.method.code)
  (hSole : ∀ b j, g.method.code.HasAddress b → stands b = some j → label b = label a → b = a)
  (hi : stands a = some i)

include h hg hg' hSole hi

/-- What holds of the executions of an instruction that is still there holds of those that it had. -/
theorem Carried.forall_pileNodes_iff {P Q : Node → Prop}
    (hSame : ∀ k n n', g.node? k = some n → g'.node? k = some n' → n.address = a → n'.pre = n.pre →
      n'.post = n.post → (Q n' ↔ P n)) :
    (∀ n' ∈ g'.pileNodes (label a), Q n') ↔ ∀ n ∈ g.pileNodes a, P n := by
  simp only [hg.mem_pileNodes, hg'.mem_pileNodes]
  constructor
  · rintro hAll n ⟨k, hn, rfl⟩
    obtain ⟨n', hn', hAddress, hPre, hPost⟩ := h.exists_node hn hi
    exact (hSame k n n' hn hn' rfl hPre hPost).mp (hAll n' ⟨k, hn', hAddress⟩)
  · rintro hAll n' ⟨k, hn', hAddress⟩
    obtain ⟨n, j, hn, hj⟩ := h.exists_origin hn'
    obtain ⟨n₁, hn₁, hThere, hPre, hPost⟩ := h.exists_node hn hj
    obtain rfl := Option.some.inj (hn₁.symm.trans hn')
    have hHere := hSole _ j (hg.hasAddress hn) hj (hThere.symm.trans hAddress)
    exact (hSame k n n₁ hn hn' hHere hPre hPost).mpr (hAll n ⟨k, hn, hHere⟩)

/-- The executions of an instruction that is still there agree on what they agreed on. -/
theorem Carried.agreed?_eq {α : Type} [DecidableEq α] {f : Node → Option α}
    (hf : ∀ n n', n'.pre = n.pre → n'.post = n.post → f n' = f n) :
    g'.agreed? (label a) f = g.agreed? a f := by
  have hNone := h.forall_pileNodes_iff hg hg' hSole hi (P := fun _ => False) (Q := fun _ => False)
    fun _ _ _ _ _ _ _ _ => Iff.rfl
  refine Option.ext fun x => ?_
  rw [agreed?_eq_some_iff, agreed?_eq_some_iff, Ne, Ne, List.eq_nil_iff_forall_not_mem,
    List.eq_nil_iff_forall_not_mem]
  exact and_congr (not_congr hNone) (h.forall_pileNodes_iff hg hg' hSole hi
    fun _ n n' _ _ _ hPre hPost => by rw [hf n n' hPre hPost])

end Carried

end Graph

namespace Semantics.Context

/-- An instruction that goes on leads to the next one and to handlers. -/
theorem next_or_handler {c : Context} {a next : Address} {pre : State} {o : Outcome} {A : List (Address × State)}
    (hFlow : o.flow = .next) (hNext : c.next a = .ok next) (h : c.successors a pre o = .ok A)
    {p : Address × State} (hp : p ∈ A) : p.1 = next ∨ ∃ k ∈ c.method.handlersAt a, p.1 = k.target := by
  unfold successors flowSuccessors at h
  rw [hFlow, hNext] at h
  obtain rfl := Except.ok.inj h
  dsimp only at hp
  split at hp
  · rcases mem_route hp with hOn | ⟨k, hk, v, rfl⟩
    · exact .inl (congrArg Prod.fst (List.mem_singleton.mp hOn))
    · exact .inr ⟨k, hk, rfl⟩
  · exact .inl (congrArg Prod.fst (List.mem_singleton.mp hp))

end Semantics.Context

namespace Constants

open Semantics (Context)

variable {g g' : Graph} {label : Address → Address} {stands : Address → Option (Instruction Address)}
  {bound p : Nat} {a b next target : Address} {i j : Instruction Address} {k : NodeId} {n : Node} {plan : Plan}
  {kind : Category} {pending : List (Address × Plan × Category)} {r r' : Revision}

theorem wentOn_iff (hn : g.node? k = some n) : wentOn g next n = true ↔ g.GoesTo k next := by
  have hMem (c : NodeId) : c ∈ g.childrenOf k ↔ c ∈ n.children := Graph.mem_children hn
  rw [wentOn, Bool.and_eq_true, Bool.not_eq_true', List.isEmpty_eq_false_iff_exists_mem, List.all_eq_true]
  simp only [Graph.isAt_iff, ← hMem]
  exact ⟨fun ⟨⟨c, hc⟩, hAll⟩ => ⟨⟨c, hc, hAll c hc⟩, hAll⟩, fun ⟨⟨c, hc, _⟩, hAll⟩ => ⟨⟨c, hc⟩, hAll⟩⟩

/-- Plans have been carried out one after another, every one of them, and counted. -/
inductive CarriesOut : (Address → Address) → List (Address × Plan × Category) → Revision → Revision → Prop
  | done {label : Address → Address} {r : Revision} : CarriesOut label [] r r
  | next {label : Address → Address} {a : Address} {plan : Plan} {kind : Category}
      {pending : List (Address × Plan × Category)} {r r' r'' : Revision} {moved : Relocation}
      (hEdit : Pass.edit (carryOut a (plan.retarget label)) r = (.ok (some moved), r'))
      (hRest : CarriesOut (moved.label ∘ label) pending { r' with counts := r'.counts.increment kind } r'') :
      CarriesOut label ((a, plan, kind) :: pending) r r''

theorem CarriesOut.carryOutAll_eq (h : CarriesOut label pending r r') :
    carryOutAll label pending r = (.ok !pending.isEmpty, r') := by
  induction h with
  | done => rfl
  | next hEdit hRest ih =>
      rw [carryOutAll, stateful_bind_apply, hEdit]
      dsimp only
      rw [stateful_bind_apply]
      dsimp only [Pass.count]
      rw [stateful_bind_apply, ih]
      rfl

/-- Every execution of an instruction that is decided has gone where it is decided to go, and nowhere else. -/
def Decisive (g : Graph) : Prop :=
  ∀ k a i next target, g.addressOf? k = some a → g.method.code.at? a = some i →
    g.method.code.next? a = some next → Decides g a next i target → g.GoesTo k target

/-- What a complete graph tells of the instructions that constant propagation looks at: one that is decided has gone
where it is decided to go, and one that only computes has gone on or to a handler. -/
structure Attests (g : Graph) : Prop where
  decided : Decisive g
  computed : ∀ k a i next b, g.addressOf? k = some a → g.method.code.at? a = some i →
    g.method.code.next? a = some next → computes i = true → g.Reaches k b →
      b = next ∨ g.method.isHandler b = true

theorem exists_writes_of_computes (h : computes i = true) : ∃ dst, i.writes? = some dst := by
  cases i <;> first | exact ⟨_, rfl⟩ | cases h

section Recording

variable {c : Context} {maxVisits : Nat} {entry : State} {s t : Supply} {log : List Performance}

/-- In a complete graph an execution has gone to the places that its step leads to. -/
theorem reaches_iff (h : g.Recording c maxVisits entry s log t) (hDone : g.status = .completed)
    (hn : g.node? k = some n) {R : Performance} (hR : log[k]? = some R) :
    g.Reaches k b ↔ ∃ q ∈ R.step.successors, q.1 = b := by
  simp only [h.mem_successors_iff hDone hn hR, Graph.Reaches, Graph.addressOf?_eq_some_iff]
  constructor
  · rintro ⟨C, hC, m, hm, rfl⟩
    exact ⟨_, ⟨C, hC, m, hm, rfl⟩, rfl⟩
  · rintro ⟨_, ⟨C, hC, m, hm, rfl⟩, rfl⟩
    exact ⟨C, hC, m, hm, rfl⟩

theorem attests_of_recording (h : g.Recording c maxVisits entry s log t) (hDone : g.status = .completed) :
    Attests g where
  decided k a i next target hk hi hNext hDecides := by
    obtain ⟨n, hn, ha⟩ := Graph.addressOf?_eq_some_iff.mp hk
    obtain ⟨R, hR, hRecords⟩ := h.records k n hn
    rw [h.sameMethod] at hi hNext
    have hStep := hDecides.apply_eq h.piled hn ha hi (Context.next_eq_ok_iff.mpr hNext) R.before
    rw [← ha, hRecords.applied] at hStep
    have hReaches (x : Address) : g.Reaches k x ↔ x = target := by
      rw [reaches_iff h hDone hn hR, Except.ok.inj (Prod.mk.inj hStep).1]
      simp [eq_comm]
    exact h.linked.goesTo_iff.mpr ⟨(hReaches target).mpr rfl, fun x hx => (hReaches x).mp hx⟩
  computed k a i next b hk hi hNext hComputes hReaches := by
    obtain ⟨n, hn, rfl⟩ := Graph.addressOf?_eq_some_iff.mp hk
    obtain ⟨R, hR, hRecords⟩ := h.records k n hn
    obtain ⟨q, hq, rfl⟩ := (reaches_iff h hDone hn hR).mp hReaches
    obtain ⟨i', o, hi', hDoes, hSuccessors, _⟩ := Context.exists_outcome hRecords.applied
    rw [h.sameMethod] at hi hNext ⊢
    obtain rfl := Option.some.inj (hi'.symm.trans hi)
    obtain ⟨dst, hDst⟩ := exists_writes_of_computes hComputes
    have hPlace : q.1 = next ∨ ∃ k ∈ c.method.handlersAt n.address, q.1 = k.target := by
      rcases (Context.execute_computes hComputes hDst hDoes).2 with ⟨x, hRaise⟩ | ⟨hFlow, _⟩
      · exact .inr (Context.exists_handler_of_raise hRaise hSuccessors hq)
      · exact Context.next_or_handler hFlow (Context.next_eq_ok_iff.mpr hNext) hSuccessors hq
    refine hPlace.imp_right fun ⟨k, hk, hTarget⟩ => ?_
    rw [hTarget]
    exact Context.isHandler_of_mem hk

end Recording

/-- What is planned for an instruction of a graph. -/
def planAt? (g : Graph) (a : Address) : Option (Plan × Category) := g.plannedAt? (plan? g) a

theorem planAt?_eq_some_iff {x : Plan × Category} : planAt? g a = some x ↔
    g.isReached a = true ∧ ∃ i, g.method.code.at? a = some i ∧ plan? g a i = some x :=
  Graph.plannedAt?_eq_some_iff

theorem mem_plans_iff {x : Plan × Category} : (a, x) ∈ plans g ↔ planAt? g a = some x := Graph.mem_planned_iff

/-- What stands for the instruction at an address once everything that is planned has been carried out. -/
def standing (g : Graph) (a : Address) : Option (Instruction Address) :=
  match planAt? g a with
  | some x => x.1.insn?
  | none => g.method.code.at? a

/-- A graph has come from another one, and its method from that of the other one, while all plans for the instructions
from a position on were carried out. -/
structure Folded (g g' : Graph) (label : Address → Address) (stands : Address → Option (Instruction Address))
    (bound : Nat) : Prop extends g.method.Resifted g'.method label stands bound where
  consistent : g'.Consistent
  carried : g.Carried g' label stands
  steers : g.Steers g' label
  marks : g.Marks g'
  heap : g'.heap = g.heap
  status : g'.status = g.status
  settled : ∀ q < g.method.code.length, bound ≤ q →
    stands (g.method.code.addressAt q) = standing g (g.method.code.addressAt q)

namespace Folded

theorem refl (hg : g.Consistent) : Folded g g id g.method.code.at? g.method.code.length where
  toResifted := .refl g.method
  consistent := hg
  carried := .refl hg.piled
  steers := .refl g
  marks := .refl g
  heap := rfl
  status := rfl
  settled _ hq hBound := absurd hq (Nat.not_lt_of_le hBound)

/-- Where nothing is planned nothing is left to be done. -/
theorem lower (h : Folded g g' label stands bound) (hp : p ≤ bound)
    (hNone : ∀ q, p ≤ q → q < bound → planAt? g (g.method.code.addressAt q) = none) :
    Folded g g' label stands p := by
  refine ⟨⟨⟨h.edited.mono hp, fun q hq => h.before q (Nat.le_trans hq hp), fun q hq =>
    h.untouched q (Nat.lt_of_lt_of_le hq hp)⟩, h.ranked⟩, h.consistent, h.carried, h.steers, h.marks,
    h.heap, h.status, fun q hq hAfter => ?_⟩
  rcases Nat.lt_or_ge q bound with hBefore | hBound
  · rw [h.untouched q hBefore, standing, hNone q hAfter hBefore, List.getElem?_eq_getElem hq]
    exact (Code.at?_addressAt (List.getElem?_eq_getElem hq)).symm
  · exact h.settled q hq hBound

/-- What is planned for the instruction before all that has been changed so far is carried out. -/
theorem step (h : Folded g g' label stands (p + 1)) (hg : g.Consistent) (hp : p < g.method.code.length)
    (hPlan : planAt? g (g.method.code.addressAt p) = some (plan, kind)) {g'' : Graph} {new : Code} {retarget : Bool}
    {rank : Nat → Nat} (hNew : g''.Consistent) (hMethod : g''.method = (g'.method.splice p 1 new retarget).1)
    (hRanked : Method.Ranked g'.method.code g''.method.code (g'.method.splice p 1 new retarget).2.label
      (g'.method.code.exchanged p (plan.insn?.map (Instruction.mapTargets label))) rank)
    (hCarried : g'.Carried g'' (g'.method.splice p 1 new retarget).2.label
      (g'.method.code.exchanged p (plan.insn?.map (Instruction.mapTargets label))))
    (hSteers : g'.Steers g'' (g'.method.splice p 1 new retarget).2.label) (hMarks : g'.Marks g'')
    (hHeap : g''.heap = g'.heap) (hStatus : g''.status = g'.status) :
    Folded g g'' ((g'.method.splice p 1 new retarget).2.label ∘ label)
      (Function.update stands (g.method.code.addressAt p) plan.insn?) p where
  toResifted := h.toResifted.step (Nat.lt_succ_self p) hp _ hRanked hMethod
  consistent := hNew
  carried := h.carried.trans hCarried hg.piled fun a ha =>
    h.toResifted.bind_exchanged (Nat.lt_succ_self p) hp plan.insn? ha
  steers := h.steers.trans hSteers fun k hk => by
    obtain ⟨n'', hn''⟩ := Graph.isLive_iff.mp hk
    obtain ⟨n', _, hn', _⟩ := hCarried.exists_origin hn''
    exact Graph.isLive_iff.mpr ⟨n', hn'⟩
  marks := h.marks.trans hMarks
  heap := hHeap.trans h.heap
  status := hStatus.trans h.status
  settled q hq hBound := by
    rcases Nat.lt_or_eq_of_le hBound with hAfter | rfl
    · have hOther : g.method.code.addressAt q ≠ g.method.code.addressAt p :=
        Nat.ne_of_gt (Code.addressAt_lt hAfter (Nat.le_of_lt hq))
      rw [Function.update_of_ne hOther]
      exact h.settled q hq hAfter
    · rw [Function.update_self, standing, hPlan]

theorem persists (h : Folded g g' label stands bound) (hg : g.Consistent) : g.Persists g' label stands where
  next a b j hj hNext := by
    rw [h.toResifted.next? (Code.hasAddress_of_next? hNext).1 hj, hNext]
    rfl
  injective a b i j ha hb hi hj hSame := h.toResifted.injective ha hb hi hj hSame
  origin := h.carried.origin hg.piled
  kept _ _ _ hk hj := h.carried.addressOf?_eq hk hj
  bridges := h.steers.bridges hg.linked h.consistent.linked

/-- Nothing else has come to be where what stands for an instruction is. -/
theorem sole (h : Folded g g' label stands bound) (ha : g.method.code.HasAddress a) (hj : stands a = some j)
    (b : Address) (j' : Instruction Address) (hb : g.method.code.HasAddress b) (hj' : stands b = some j')
    (hSame : label b = label a) : b = a :=
  h.toResifted.injective hb ha hj' hj hSame

/-- What has only gone on to the next instruction still has where nothing has been changed yet. -/
theorem passes (h : Folded g g' label stands bound) (hg : g.Consistent) (hBound : bound ≤ g.method.code.length)
    (hp : p < bound) (hPasses : g.Passes p) : g'.Passes p := by
  refine ((h.persists hg).spares hBound (fun q hq => ?_) fun q hq => h.place (Nat.le_of_lt hq)).passes hp hPasses
  exact ⟨_, (h.untouched q hq).trans (List.getElem?_eq_getElem (Nat.lt_of_lt_of_le hq hBound))⟩

variable {d : Draft}

/-- A plan that puts an instruction in place of another one is carried out. -/
theorem carryOut_replace (h : Folded g d.graph label stands (p + 1)) (hg : g.Consistent)
    (hPlan : planAt? g (g.method.code.addressAt p) = some (plan, kind)) (hi : g.method.code[p]? = some i)
    (hSuits : Suits plan i) {new : Instruction Address}
    (hNew : plan.insn?.map (Instruction.mapTargets label) = some new) :
    ∃ moved d' stands', carryOut (g.method.code.addressAt p) (plan.retarget label) d = (.ok (some moved), d') ∧
      Folded g d'.graph (moved.label ∘ label) stands' p := by
  have hBound : p < d.graph.method.code.length :=
    (List.getElem?_eq_some_iff.mp (h.edited.found (Nat.lt_succ_self p) hi).2).1
  obtain ⟨moved, d', hDone, hLabel, hGraph, hMethod, hConsistent⟩ :=
    carryOut_replaces h.consistent h.edited (Nat.lt_succ_self p) hi hSuits hNew
  have hMoves := Method.replacement_moves hBound (List.cons_ne_nil new [])
  have hRanked := Method.ranked_replaced hBound new
  have hCarried := Graph.carried_replaced h.consistent.piled hBound new
  have hSteers := Graph.steers_replaced h.consistent.piled hBound new
  rw [← hMethod, ← hNew] at hRanked
  rw [← hGraph, ← hNew] at hCarried
  rw [← hGraph] at hSteers
  refine ⟨moved, d', _, hDone, hLabel ▸ h.step hg (List.getElem?_eq_some_iff.mp hi).1 hPlan hConsistent hMethod
    hRanked hCarried hSteers ?_ ?_ ?_⟩
  · rw [hGraph]
    exact Graph.marks_replaced h.consistent.piled hBound new
  · rw [hGraph]
    exact Graph.heap_relocate h.consistent.piled hMoves fun _ _ _ => Code.isSome_replacing
  · rw [hGraph]
    exact Graph.status_relocate h.consistent.piled hMoves fun _ _ _ => Code.isSome_replacing

/-- A plan to remove what has only gone on to the next instruction is carried out: it is not refused. -/
theorem carryOut_drop (h : Folded g d.graph label stands (p + 1)) (hg : g.Consistent)
    (hPlan : planAt? g (g.method.code.addressAt p) = some (.drop, kind)) (hi : g.method.code[p]? = some i)
    (hSuits : Suits .drop i) (hPasses : g.Passes p) :
    ∃ moved d' stands', carryOut (g.method.code.addressAt p) .drop d = (.ok (some moved), d') ∧
      Folded g d'.graph (moved.label ∘ label) stands' p := by
  obtain ⟨hAddress, hNow⟩ := h.edited.found (Nat.lt_succ_self p) hi
  have hFirst : p < g.method.code.length := (List.getElem?_eq_some_iff.mp hi).1
  have hBound : p < d.graph.method.code.length := (List.getElem?_eq_some_iff.mp hNow).1
  have hStill := h.passes hg hFirst (Nat.lt_succ_self p) hPasses
  have hDone : carryOut (g.method.code.addressAt p) .drop d =
      (.ok (some (d.graph.method.splice p 1 [] false).2), { d with graph := d.graph.removeAt p }) := by
    rw [hAddress, Constants.carryOut_drop, Edit.remove_of_ok (Code.indexOf?_addressAt hBound)
      (hStill.checkRemoval h.consistent hBound)]
  have hLeads := carryOut_leads h.consistent h.edited (Nat.lt_succ_self p) hi hSuits
  unfold Leads at hLeads
  rw [show Plan.drop.retarget label = .drop from rfl, hDone] at hLeads
  have hMethod := (Graph.removeAt_method h.consistent.piled hBound).1
  have hRanked := Method.ranked_without (hStill.lt hBound)
  rw [← hMethod] at hRanked
  exact ⟨_, _, _, hDone, h.step hg hFirst hPlan hLeads.1.consistent hMethod hRanked
    (Graph.carried_removeAt h.consistent.piled hBound)
    (Graph.steers_removeAt h.consistent.piled hBound h.consistent.linked hStill.on)
    (Graph.marks_removeAt h.consistent.piled hBound)
    (Graph.heap_removeAt h.consistent.piled hBound) (Graph.status_removeAt h.consistent.piled hBound)⟩

end Folded

/-- A branch that is decided to go on has only gone on. -/
theorem Decisive.passes (h : Decisive g) (hg : g.Piled g.method.code)
    (hPlan : planAt? g (g.method.code.addressAt p) = some (.drop, kind)) : g.Passes p := by
  obtain ⟨hReached, i, hi, hFound⟩ := planAt?_eq_some_iff.mp hPlan
  obtain ⟨next, hNext, ⟨target, hDecides, hDrop⟩ | ⟨_, _, _, _, _, hLoad⟩⟩ := plan?_cases hFound
  · have hSame : target = next := by
      by_contra hOther
      rw [goTo, if_neg hOther] at hDrop
      cases hDrop
    exact ⟨fun k hk => ⟨next, hNext, hSame ▸ h k _ i next target hk hi hNext hDecides⟩,
      hg.isReached_iff.mp hReached⟩
  · cases hLoad

namespace Folded

variable {d : Draft}

/-- Whatever is planned is carried out. -/
theorem carryOut_planned (h : Folded g d.graph label stands (p + 1)) (hg : g.Consistent) (hDecisive : Decisive g)
    (hp : p < g.method.code.length) (hPlan : planAt? g (g.method.code.addressAt p) = some (plan, kind)) :
    ∃ moved d' stands', carryOut (g.method.code.addressAt p) (plan.retarget label) d = (.ok (some moved), d') ∧
      Folded g d'.graph (moved.label ∘ label) stands' p := by
  have hi := List.getElem?_eq_getElem hp
  obtain ⟨_, i, hThere, hFound⟩ := planAt?_eq_some_iff.mp hPlan
  obtain rfl := Option.some.inj ((Code.at?_addressAt hi).symm.trans hThere)
  have hSuits := suits_of_plan? hFound
  cases plan with
  | load dst l => exact h.carryOut_replace hg hPlan hi hSuits rfl
  | jump t => exact h.carryOut_replace hg hPlan hi hSuits rfl
  | drop => exact h.carryOut_drop hg hPlan hi hSuits (hDecisive.passes hg.piled hPlan)

/-- All plans are carried out, from the end of the method to its start. -/
theorem carriesOut (hg : g.Consistent) (hDecisive : Decisive g) (h : Folded g r.draft.graph label stands bound)
    (hBound : bound ≤ g.method.code.length) (hOrder : pending.Pairwise fun x y => y.1 < x.1)
    (hPending : ∀ x ∈ pending, planAt? g x.1 = some x.2 ∧ ∃ p < bound, x.1 = g.method.code.addressAt p)
    (hAll : ∀ p < bound, ∀ x, planAt? g (g.method.code.addressAt p) = some x →
      (g.method.code.addressAt p, x) ∈ pending) :
    ∃ r' label' stands', CarriesOut label pending r r' ∧ Folded g r'.draft.graph label' stands' 0 := by
  induction pending generalizing r label stands bound with
  | nil =>
      refine ⟨r, label, stands, .done, h.lower (Nat.zero_le bound) fun q _ hq => ?_⟩
      by_contra hSome
      obtain ⟨x, hx⟩ := Option.ne_none_iff_exists'.mp hSome
      cases hAll q hq x hx
  | cons x pending ih =>
      obtain ⟨hFirst, hTail⟩ := List.pairwise_cons.mp hOrder
      obtain ⟨hPlan, p, hp, hAddress⟩ := hPending x (.head _)
      obtain ⟨a, plan, kind⟩ := x
      obtain rfl : a = g.method.code.addressAt p := hAddress
      have hLess {q : Nat} (hq : q < bound) :
          g.method.code.addressAt q < g.method.code.addressAt p ↔ q < p :=
        Code.addressAt_lt_iff (Nat.le_of_lt (Nat.lt_of_lt_of_le hq hBound))
          (Nat.le_of_lt (Nat.lt_of_lt_of_le hp hBound))
      -- nothing is planned between this plan and what has been changed so far
      have hHere : Folded g r.draft.graph label stands (p + 1) := by
        refine h.lower hp fun q hAfter hq => ?_
        by_contra hSome
        obtain ⟨y, hy⟩ := Option.ne_none_iff_exists'.mp hSome
        rcases List.mem_cons.mp (hAll q hq y hy) with hHead | hRest
        · have hMore := Code.addressAt_lt hAfter (Nat.le_of_lt (Nat.lt_of_lt_of_le hq hBound))
          exact absurd (congrArg Prod.fst hHead) (Nat.ne_of_gt hMore)
        · exact absurd ((hLess hq).mp (hFirst _ hRest)) (Nat.lt_asymm hAfter)
      obtain ⟨moved, d', stands', hDone, hNext⟩ :=
        hHere.carryOut_planned hg hDecisive (Nat.lt_of_lt_of_le hp hBound) hPlan
      have hEdit : Pass.edit (carryOut (g.method.code.addressAt p) (plan.retarget label)) r =
          (.ok (some moved), { r with draft := d' }) := by
        unfold Pass.edit
        rw [hDone]
      obtain ⟨r', label', stands'', hRest, hFolded⟩ :=
        ih (r := ⟨d', r.counts.increment kind⟩) hNext (Nat.le_of_lt (Nat.lt_of_lt_of_le hp hBound)) hTail
          (fun y hy => by
            obtain ⟨hThere, q, hq, hPlace⟩ := hPending y (.tail _ hy)
            have hBefore := hFirst y hy
            rw [hPlace] at hBefore
            exact ⟨hThere, q, (hLess hq).mp hBefore, hPlace⟩)
          fun q hq y hy => (List.mem_cons.mp (hAll q (Nat.lt_trans hq hp) y hy)).resolve_left fun hHead =>
            Nat.ne_of_lt ((hLess (Nat.lt_trans hq hp)).mpr hq) (congrArg Prod.fst hHead)
      exact ⟨r', label', stands'', .next hEdit hRest, hFolded⟩

/-- Whatever is planned for a graph is carried out. -/
theorem carriesOut_plans (hg : r.draft.graph.Consistent) (hDecisive : Decisive r.draft.graph) :
    ∃ r' label stands, CarriesOut id (plans r.draft.graph).reverse r r' ∧
      Folded r.draft.graph r'.draft.graph label stands 0 := by
  refine carriesOut hg hDecisive (.refl hg) (Nat.le_refl _) (Graph.pairwise_planned _ _) (fun x hx => ?_)
    fun p _ x hx => List.mem_reverse.mpr (mem_plans_iff.mpr hx)
  have hPlan := mem_plans_iff.mp (List.mem_reverse.mp hx)
  obtain ⟨p, _, hp, hAddress, _⟩ := Graph.exists_position_of_plannedAt? hPlan
  exact ⟨hPlan, p, hp, hAddress⟩

end Folded

/-- What has been put in place of something is neither decided nor computed. -/
theorem plan?_insn? (hNew : plan.insn? = some j) : plan? g a (j.mapTargets label) = none := by
  cases plan with
  | load dst l =>
      obtain rfl := Option.some.inj hNew
      cases hNext : g.method.code.next? a <;> simp [plan?, Instruction.mapTargets, computes, hNext]
  | jump t =>
      obtain rfl := Option.some.inj hNew
      cases hNext : g.method.code.next? a <;> simp [plan?, Instruction.mapTargets, computes, hNext]
  | drop => cases hNew

section Settled

variable (h : Folded g g' label stands 0) (hg : g.Consistent) (hAttests : Attests g)
  (hApart : g.method.HandlersApart)

include h hApart

/-- What is left of a handler is not where control goes on to from what is left of an instruction. What is before the
handler does not go on to it, and so it has been kept and stands between the two. -/
theorem Folded.label_ne (hj : stands a = some j) (hNext : g.method.code.next? a = some next)
    (hb : g.method.code.HasAddress b) (hHandler : g.method.isHandler b = true) (hOther : b ≠ next) :
    label b ≠ label next := by
  obtain ⟨n, hn, hLess, rfl⟩ := Code.next?_eq_some_iff.mp hNext
  obtain ⟨hBound, rfl⟩ := Code.indexOf?_eq_some_iff.mp hn
  obtain ⟨q, hq, rfl⟩ := hb
  have hHere := Code.hasAddress_addressAt hBound
  have hThere := (Code.hasAddress_addressAt hLess).hasPlace
  rcases Nat.lt_trichotomy q (n + 1) with hBefore | rfl | hAfter
  · have hFirst := h.toResifted.label_le (Code.hasAddress_addressAt hq).hasPlace hHere.hasPlace
      ((Code.addressAt_le_iff (Nat.le_of_lt hq) (Nat.le_of_lt hBound)).mpr (Nat.le_of_lt_succ hBefore))
    exact Nat.ne_of_lt (Nat.lt_of_le_of_lt hFirst (h.toResifted.label_lt hHere hj hThere
      (Code.addressAt_lt (Nat.lt_succ_self n) (Nat.le_of_lt hLess))))
  · exact absurd rfl hOther
  · obtain ⟨e, rfl⟩ : ∃ e, q = e + 1 := ⟨q - 1, by omega⟩
    have he : e < g.method.code.length := Nat.lt_of_succ_lt hq
    have hInsn := Code.at?_addressAt (List.getElem?_eq_getElem he)
    have hNone : planAt? g (g.method.code.addressAt e) = none := by
      by_contra hSome
      obtain ⟨x, hx⟩ := Option.ne_none_iff_exists'.mp hSome
      obtain ⟨_, i, hi, hPlan⟩ := planAt?_eq_some_iff.mp hx
      have hNot := hApart _ i _ hi (suits_of_plan? hPlan).falls (Code.next?_addressAt hq)
      rw [hHandler] at hNot
      cases hNot
    have hKept : stands (g.method.code.addressAt e) = some g.method.code[e] := by
      rw [h.settled e he (Nat.zero_le e), standing, hNone]
      exact hInsn
    have hFirst := h.toResifted.label_le hThere (Code.hasAddress_addressAt he).hasPlace
      ((Code.addressAt_le_iff (Nat.le_of_lt hLess) (Nat.le_of_lt he)).mpr (Nat.le_of_lt_succ hAfter))
    exact Nat.ne_of_gt (Nat.lt_of_le_of_lt hFirst (h.toResifted.label_lt (Code.hasAddress_addressAt he) hKept
      (Code.hasAddress_addressAt hq).hasPlace (Code.addressAt_lt (Nat.lt_succ_self e) (Nat.le_of_lt hq))))

include hg hAttests

/-- What an instruction that is kept can be replaced by is what it could be replaced by before. -/
theorem Folded.constant?_eq (hi : g.method.code.at? a = some i) (hj : stands a = some j)
    (hNext : g.method.code.next? a = some next) (hComputes : computes i = true) (dst : Register) :
    constant? g' (label a) (label next) dst = constant? g a next dst := by
  have hSole := h.sole (Code.hasAddress_of_at? hi) hj
  have hWent : (g'.pileNodes (label a)).all (wentOn g' (label next)) = (g.pileNodes a).all (wentOn g next) := by
    rw [Bool.eq_iff_iff, List.all_eq_true, List.all_eq_true]
    refine h.carried.forall_pileNodes_iff hg.piled h.consistent.piled hSole hj fun k n n' hn hn' ha _ _ => ?_
    rw [wentOn_iff hn, wentOn_iff hn']
    refine h.steers.goesTo_iff hg.linked h.consistent.linked (Graph.isLive_iff.mpr ⟨n', hn'⟩) fun x hx hSame => ?_
    by_contra hOther
    have hk := Graph.addressOf?_eq_some_iff.mpr ⟨n, hn, ha⟩
    have hHandler := (hAttests.computed k a i next x hk hi hNext hComputes hx).resolve_left hOther
    obtain ⟨C, _, hC⟩ := hx
    exact h.label_ne hApart hj hNext (hg.piled.hasAddress_addressOf? hC) hHandler hOther hSame
  have hConsensus : g'.consensus? (label a) dst = g.consensus? a dst :=
    h.carried.agreed?_eq hg.piled h.consistent.piled hSole hj fun n n' _ hPost => by rw [hPost]
  rw [constant?, constant?, hWent, hConsensus, h.heap]

/-- For an instruction that is kept nothing is planned unless something was planned for it before. -/
theorem Folded.isSome_plan? (hi : g.method.code.at? a = some i) (hj : stands a = some i) :
    (plan? g' (label a) (i.mapTargets label)).isSome = (plan? g a i).isSome := by
  have hNext := h.toResifted.next? (Code.hasAddress_of_at? hi) hj
  cases hThere : g.method.code.next? a with
  | none => simp [plan?, hNext, hThere]
  | some next =>
      have hAgreed {α : Type} [DecidableEq α] {f : Node → Option α}
          (hf : ∀ n n', n'.pre = n.pre → n'.post = n.post → f n' = f n) :
          g'.agreed? (label a) f = g.agreed? a f :=
        h.carried.agreed?_eq hg.piled h.consistent.piled (h.sole (Code.hasAddress_of_at? hi) hj) hj hf
      cases i with
      | branch c lhs rhs target =>
          have hOutcome := hAgreed (f := outcome? c lhs rhs) fun n n' hPre _ => by rw [outcome?, outcome?, hPre]
          simp [plan?, hNext, hThere, Instruction.mapTargets, hOutcome, Option.isSome_bind]
      | switch src cases =>
          have hKey := hAgreed (f := key? src) fun n n' hPre _ => by rw [key?, key?, hPre]
          simp [plan?, hNext, hThere, Instruction.mapTargets, hKey, Option.isSome_bind]
      | _ =>
          have hConstant := h.constant?_eq hg hAttests hApart hi hj hThere
          simp [plan?, hNext, hThere, Instruction.mapTargets, computes, Instruction.writes?, Option.isSome_bind]
            <;> rw [hConstant rfl]

/-- When all plans have been carried out, there are none. -/
theorem Folded.plans_eq_nil : plans g' = [] := by
  refine List.eq_nil_iff_forall_not_mem.mpr fun x hx => ?_
  obtain ⟨hReached', i', hi', hPlan'⟩ := planAt?_eq_some_iff.mp (mem_plans_iff.mp hx)
  obtain ⟨k, hk⟩ := h.consistent.piled.isReached_iff.mp hReached'
  obtain ⟨a, j, ha, hj, hAddress⟩ := h.carried.addressOf?_origin hk
  obtain ⟨q, hq, rfl⟩ := hg.piled.hasAddress_addressOf? ha
  have hReached := hg.piled.isReached_iff.mpr ⟨k, ha⟩
  obtain rfl : j.mapTargets label = i' := by
    have hInsn := h.toResifted.insn (Code.hasAddress_addressAt hq) hj
    rw [hAddress, hi'] at hInsn
    exact (Option.some.inj hInsn).symm
  have hStands := h.settled q hq (Nat.zero_le q)
  rw [hj, standing] at hStands
  cases hPlanned : planAt? g (g.method.code.addressAt q) with
  | some planned =>
      rw [hPlanned] at hStands
      rw [plan?_insn? hStands.symm] at hPlan'
      cases hPlan'
  | none =>
      rw [hPlanned] at hStands
      have hSame := h.isSome_plan? hg hAttests hApart hStands.symm hj
      rw [hAddress, hPlan'] at hSame
      obtain ⟨y, hy⟩ := Option.isSome_iff_exists.mp hSame.symm
      rw [planAt?_eq_some_iff.mpr ⟨hReached, j, hStands.symm, hy⟩] at hPlanned
      cases hPlanned

end Settled

/-- Constant propagation that is carried out on a complete graph says whether there was something to be done. -/
theorem CarriesOut.perform_eq (hDone : r.draft.graph.status = .completed)
    (h : CarriesOut id (plans r.draft.graph).reverse r r') :
    perform r = (.ok (if (plans r.draft.graph).isEmpty then .unchanged else .changed), r') := by
  have hGraph : Pass.graph r = (.ok r.draft.graph, r) := rfl
  have hComplete : r.draft.graph.isComplete = true := decide_eq_true hDone
  rw [perform, stateful_bind_apply, hGraph]
  dsimp only
  rw [hComplete, if_neg (by simp), stateful_bind_apply, h.carryOutAll_eq, List.isEmpty_reverse]
  cases (plans r.draft.graph).isEmpty <;> rfl

/-- Constant propagation is idempotent. On the complete graph of an execution it succeeds, and it carries out and counts
all that it has planned: no plan is refused because control would be left without a place to go to. In what it leaves
nothing is planned, so that a second time it changes nothing, neither the method nor the graph nor what is counted.

Of what makes a method well-formed only two things are needed: that it is valid, without which it is not executed, and
that control does not go on to a handler. -/
theorem perform_idempotent {m : Machine} {method : Method} {entry : State} (hApart : method.HandlersApart)
    (hRun : m.execute method entry = .ok g) (hDone : g.status = .completed) (stale : Bool) (counts : Counts) :
    ∃ r, CarriesOut id (plans g).reverse ⟨⟨g, stale⟩, counts⟩ r ∧
      perform ⟨⟨g, stale⟩, counts⟩ = (.ok (if (plans g).isEmpty then .unchanged else .changed), r) ∧
      plans r.draft.graph = [] ∧ perform r = (.ok .unchanged, r) := by
  obtain ⟨hMethod, _, hConsistent, _⟩ := Machine.execute_consistent hRun
  obtain ⟨log, t, hRecording, _⟩ := Machine.execute_funded hRun
  have hAttests : Attests g := attests_of_recording hRecording hDone
  obtain ⟨r, label, stands, hCarries, hFolded⟩ :=
    Folded.carriesOut_plans (r := ⟨⟨g, stale⟩, counts⟩) hConsistent hAttests.decided
  have hNone := hFolded.plans_eq_nil hConsistent hAttests (hMethod ▸ hApart)
  have hAgain : CarriesOut id (plans r.draft.graph).reverse r r := by
    rw [hNone]
    exact .done
  refine ⟨r, hCarries, hCarries.perform_eq hDone, hNone, ?_⟩
  rw [hAgain.perform_eq (hFolded.status.trans hDone), hNone]
  rfl

theorem perform_idempotent_foldingMethod :
    ∃ r, CarriesOut id (plans (Machine.bare.graphOf foldingMethod (Machine.initialState foldingMethod))).reverse
        ⟨⟨Machine.bare.graphOf foldingMethod (Machine.initialState foldingMethod), false⟩, .empty⟩ r ∧
      perform ⟨⟨Machine.bare.graphOf foldingMethod (Machine.initialState foldingMethod), false⟩, .empty⟩ =
        (.ok .changed, r) ∧
      plans r.draft.graph = [] ∧ perform r = (.ok .unchanged, r) := by
  have hRun : Machine.bare.execute foldingMethod (Machine.initialState foldingMethod) =
      .ok (Machine.bare.graphOf foldingMethod (Machine.initialState foldingMethod)) :=
    Machine.execute_eq_graphOf (by decide +kernel)
  have hDone : (Machine.bare.graphOf foldingMethod (Machine.initialState foldingMethod)).status = .completed := by
    decide +kernel
  have hPlans : (plans (Machine.bare.graphOf foldingMethod (Machine.initialState foldingMethod))).isEmpty = false := by
    decide +kernel
  obtain ⟨r, hCarries, hPerform, hAgain⟩ :=
    perform_idempotent (by decide +kernel : foldingMethod.WellFormed).handlersApart hRun hDone false .empty
  rw [hPlans] at hPerform
  exact ⟨r, hCarries, hPerform, hAgain⟩

end Constants

end Dalvik
