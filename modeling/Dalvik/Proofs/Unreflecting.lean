import Dalvik.Proofs.Allotment
import Dalvik.Proofs.Convergence
import Dalvik.Proofs.WidenedRuns

/-!
What calling directly what is called by reflection makes of a method. Direct calls take the place of reflective ones, from
the last one to the first one, and all else that was there before is only moved, with its parameters renumbered.
-/

namespace Dalvik

@[simp] theorem Pass.concludes_edit {α : Type} {e : Edit α} {r : Revision} {Q : α → Revision → Prop}
    {E : EditError → Prop} :
    Concludes (edit e) r Q E ↔ Concludes e r.draft (fun v draft => Q v { r with draft }) E := by
  unfold Concludes edit
  rcases e r.draft with ⟨_ | _, _⟩ <;> rfl

@[simp] theorem Pass.concludes_graph {r : Revision} {Q : Graph → Revision → Prop} {E : EditError → Prop} :
    Concludes graph r Q E ↔ Q r.draft.graph r := Iff.rfl

@[simp] theorem Pass.concludes_count {kind : Category} {r : Revision} {Q : Unit → Revision → Prop}
    {E : EditError → Prop} :
    Concludes (count kind) r Q E ↔ Q () { r with counts := r.counts.increment kind } := Iff.rfl

namespace Unreflection

open Method (shiftRegister)

variable {found : List Site} {s : Site} {c : Call} {calls : List Call} {σ τ : Register → Register}
  {label : Address → Address} {code b : Code} {i : Instruction Address} {n p : Nat}

/-- What becomes of the instruction at a position of a body. The calls are made direct, and what is moved from the result
of one that returns nothing is null. Everything else is only moved, with its registers renumbered. -/
inductive Becomes (code : Code) (calls : List Call) (σ : Register → Register) (label : Address → Address) :
    Nat → Instruction Address → Code → Prop
  | call {c : Call} {n : Nat} {handle receiver argv : Register} {args : List Register} (hc : c ∈ calls)
      (hAt : c.site.address = code.addressAt n) :
      Becomes code calls σ label n (.invoke .virtual reflectiveCall (handle :: receiver :: argv :: args))
        (lower c.site (σ receiver) (σ argv) c.scratch)
  | null {c : Call} {n : Nat} {dst : Register} (hc : c ∈ calls) (hAt : c.site.address = code.addressAt n)
      (hVoid : c.site.target.ret.isVoid = true) :
      Becomes code calls σ label (n + 1) (.moveResult dst) [.const (σ dst) .null]
  | kept {n : Nat} {i : Instruction Address} (hCalls : ∀ c ∈ calls, c.site.address ≠ code.addressAt n)
      (hResults : ∀ c ∈ calls, c.site.target.ret.isVoid = true → ∀ p, n = p + 1 → c.site.address = code.addressAt p →
        ∀ dst, i ≠ .moveResult dst) :
      Becomes code calls σ label n i [(i.mapRegisters σ).mapTargets label]

namespace Becomes

theorem mapRegisters (h : Becomes code calls σ label n i b) (hOwn : ∀ c ∈ calls, ∀ r, c.Owns r → τ r = r) :
    Becomes code calls (τ ∘ σ) label n i (b.map (Instruction.mapRegisters τ)) := by
  cases h with
  | call hc hAt =>
      rw [lower_mapRegisters (hOwn _ hc)]
      exact .call hc hAt
  | null hc hAt hVoid => exact .null hc hAt hVoid
  | kept hCalls hResults =>
      rw [List.map_singleton, Instruction.mapRegisters_mapTargets, Instruction.mapRegisters_mapRegisters]
      exact .kept hCalls hResults

theorem mapTargets (h : Becomes code calls σ label n i b) (f : Address → Address) :
    Becomes code calls σ (f ∘ label) n i (b.map (Instruction.mapTargets f)) := by
  cases h with
  | call hc hAt =>
      rw [lower_mapTargets]
      exact .call hc hAt
  | null hc hAt hVoid => exact .null hc hAt hVoid
  | kept hCalls hResults =>
      rw [List.map_singleton, Instruction.mapTargets_mapTargets]
      exact .kept hCalls hResults

/-- One more call changes nothing elsewhere. -/
theorem cons (h : Becomes code calls σ label n i b) (hAt : c.site.address = code.addressAt p) (hp : p < code.length)
    (hn : n < code.length) (hOther : n ≠ p)
    (hResult : c.site.target.ret.isVoid = true → n = p + 1 → ∀ dst, i ≠ .moveResult dst) :
    Becomes code (c :: calls) σ label n i b := by
  have hPlace {q : Nat} (hq : q < code.length) (hSame : c.site.address = code.addressAt q) : q = p :=
    Code.addressAt_injective (Nat.le_of_lt hq) (Nat.le_of_lt hp) (hSame.symm.trans hAt)
  cases h with
  | call hc hAt => exact .call (.tail _ hc) hAt
  | null hc hAt hVoid => exact .null (.tail _ hc) hAt hVoid
  | kept hCalls hResults =>
      refine .kept (List.forall_mem_cons.mpr ⟨fun hSame => hOther (hPlace hn hSame), hCalls⟩)
        (List.forall_mem_cons.mpr ⟨?_, hResults⟩)
      rintro hVoid q rfl hSame
      exact hResult hVoid (congrArg (· + 1) (hPlace (Nat.lt_of_succ_lt hn) hSame))

/-- What is before all calls is kept. -/
theorem eq_of_before (h : Becomes code calls σ label n i b) (hn : n < code.length)
    (hBefore : ∀ c ∈ calls, code.addressAt n < c.site.address) : b = [(i.mapRegisters σ).mapTargets label] := by
  cases h with
  | call hc hAt => exact absurd hAt (Nat.ne_of_gt (hBefore _ hc))
  | @null c p dst hc hAt hVoid =>
      have hLess := Code.addressAt_lt (Nat.lt_succ_self p) (Nat.le_of_lt hn)
      exact absurd (hBefore c hc) (Nat.not_lt_of_le (hAt ▸ Nat.le_of_lt hLess))
  | kept _ _ => rfl

/-- What is directly after an instruction before all calls begins with a result just if it was one. -/
theorem result_of_before (h : Becomes code calls σ label (p + 1) i b)
    (hBefore : ∀ c ∈ calls, code.addressAt p < c.site.address) :
    (∃ dst, i = .moveResult dst ∧ b = [.moveResult (σ dst)]) ∨
      (∀ dst, i ≠ .moveResult dst) ∧ ∃ j rest, b = j :: rest ∧ ∀ dst, j ≠ .moveResult dst := by
  cases h with
  | call hc hAt => exact .inr ⟨by simp, lower_eq_cons _ _ _ _⟩
  | null hc hAt hVoid => exact absurd hAt (Nat.ne_of_gt (hBefore _ hc))
  | kept hCalls hResults =>
      cases i with
      | moveResult dst => exact .inl ⟨dst, rfl, rfl⟩
      | binary op type dst lhs rhs =>
          refine .inr ⟨by simp, _, [], rfl, ?_⟩
          cases rhs <;> simp [Instruction.mapRegisters, Instruction.mapTargets]
      | _ => exact .inr ⟨by simp, _, [], rfl, by simp [Instruction.mapRegisters, Instruction.mapTargets]⟩

end Becomes

/-- A method has come from another one by making the reflective calls at some sites direct. -/
structure Unreflected (m : Method) (found : List Site) (m' : Method) (label : Address → Address) (block : Nat → Code) :
    Prop where
  reference : m'.reference = m.reference
  flags : m'.flags = m.flags
  locals : m'.locals = m.locals + freshCount found
  expanded : m.Expanded m' label block
  becomes : ∀ n i, m.code[n]? = some i →
    Becomes m.code (allot m.locals found) (shiftRegister m.locals (freshCount found)) label n i (block n)

/-- A method is about to be one in which calls are direct: only the call at a position is still to be replaced, before
which nothing has been expanded. -/
structure Readied (m m' : Method) (calls : List Call) (σ : Register → Register) (p : Nat) (label : Address → Address)
    (block : Nat → Code) : Prop where
  expanded : m.Expanded m' label block
  before : ∀ n ≤ p, ∀ i, m.code[n]? = some i → block n = [(i.mapRegisters σ).mapTargets label]
  others : ∀ n i, m.code[n]? = some i → n ≠ p → Becomes m.code calls σ label n i (block n)

variable {m m' m'' : Method} {block : Nat → Code}

theorem Unreflected.refl (m : Method) : Unreflected m [] m id fun n => m.code[n]?.toList where
  reference := rfl
  flags := rfl
  locals := rfl
  expanded := .refl m
  becomes n i hi := by
    have hSame : [(i.mapRegisters (shiftRegister m.locals 0)).mapTargets id] = [i] := by
      rw [Method.shiftRegister_zero, Instruction.mapRegisters_id, Instruction.mapTargets_id]
    rw [hi, Option.toList_some, ← hSame]
    exact .kept (List.forall_mem_nil _) (List.forall_mem_nil _)

/-- There are as many parameters as before. -/
theorem Unreflected.registerCount (h : Unreflected m found m' label block) :
    m'.registerCount = m.registerCount + freshCount found := by
  rw [Method.registerCount, Method.paramCount, Method.paramTypes, h.locals, h.reference, h.flags]
  exact Nat.add_right_comm _ _ _

/-- More local registers renumber the parameters once more, and leave the fresh registers of the calls alone. -/
theorem Unreflected.addLocals (h : Unreflected m found m' label block) (count : Nat) (hi : m.code[n]? = some i) :
    Becomes m.code (allot m.locals found) (shiftRegister m.locals (freshCount found + count)) label n i
      ((block n).map (Instruction.mapRegisters (shiftRegister m'.locals count))) := by
  rw [← Method.shiftRegister_comp, ← h.locals]
  refine (h.becomes n i hi).mapRegisters fun c hc r hr => Method.shiftRegister_of_lt ?_
  rw [h.locals]
  exact Nat.lt_of_lt_of_le hr.2 (allot_within hc).2

namespace Readied

variable (h : Readied m m' calls σ p label block)

include h

theorem unexpanded : m.code.Unexpanded block (p + 1) := fun n hn i hi =>
  ⟨_, h.before n (Nat.le_of_lt_succ hn) i hi, by rw [Instruction.size_mapTargets, Instruction.size_mapRegisters]⟩

theorem addressAt (hp : p < m.code.length) : m'.code.addressAt p = m.code.addressAt p :=
  h.expanded.addressAt (h.unexpanded.mono (Nat.le_succ p)) (Nat.le_of_lt hp)

theorem getElem? (hi : m.code[p]? = some i) : m'.code[p]? = some ((i.mapRegisters σ).mapTargets label) :=
  h.expanded.getElem? (h.unexpanded.mono (Nat.le_succ p)) (List.getElem?_eq_some_iff.mp hi).1 (h.before p (Nat.le_refl p) i hi)

end Readied

section

variable (hExpanded : m.Expanded m' label block)
  (hBecomes : ∀ n i, m.code[n]? = some i → Becomes m.code calls σ label n i (block n)) (hp : p < m.code.length)
  (hBefore : ∀ c ∈ calls, m.code.addressAt p < c.site.address)

include hBecomes hp hBefore

/-- Nothing has been expanded up to a position before all calls. -/
theorem eq_of_le (hn : n ≤ p) (hi : m.code[n]? = some i) : block n = [(i.mapRegisters σ).mapTargets label] := by
  have hLess := (List.getElem?_eq_some_iff.mp hi).1
  have hPlace := (Code.addressAt_le_iff (Nat.le_of_lt hLess) (Nat.le_of_lt hp)).mpr hn
  exact (hBecomes n i hi).eq_of_before hLess fun c' hc' => Nat.lt_of_le_of_lt hPlace (hBefore c' hc')

theorem unexpanded_of_before : m.code.Unexpanded block (p + 1) := fun n hn i hi =>
  ⟨_, eq_of_le hBecomes hp hBefore (Nat.le_of_lt_succ hn) hi, by
    rw [Instruction.size_mapTargets, Instruction.size_mapRegisters]⟩

include hExpanded

/-- A result directly after a position before all calls is still there, and no other one. -/
theorem moveResult_iff {dst : Register} :
    m'.code[p + 1]? = some (.moveResult dst) ↔ ∃ old, m.code[p + 1]? = some (.moveResult old) ∧ σ old = dst := by
  have hSingle := unexpanded_of_before hBecomes hp hBefore
  constructor
  · intro hDst
    have hNext : p + 1 < m.code.length := by
      refine Nat.lt_of_le_of_ne hp fun hLast => ?_
      have hLess := (List.getElem?_eq_some_iff.mp hDst).1
      rw [hExpanded.code, ← hLast, hSingle.length_blocks hp] at hLess
      exact Nat.lt_irrefl _ hLess
    have hi := List.getElem?_eq_getElem hNext
    rcases (hBecomes _ _ hi).result_of_before hBefore with ⟨old, hOld, hBlock⟩ | ⟨_, j, rest, hBlock, hNot⟩
    · have hNow := (hExpanded.getElem? hSingle hNext hBlock).symm.trans hDst
      exact ⟨old, hOld ▸ hi, Instruction.moveResult.inj (Option.some.inj hNow)⟩
    · have hNow := (hExpanded.getElem? hSingle hNext hBlock).symm.trans hDst
      exact absurd (Option.some.inj hNow) (hNot dst)
  · rintro ⟨old, hOld, rfl⟩
    have hNext := (List.getElem?_eq_some_iff.mp hOld).1
    rcases (hBecomes _ _ hOld).result_of_before hBefore with ⟨_, hSame, hBlock⟩ | ⟨hNot, _⟩
    · obtain rfl := Instruction.moveResult.inj hSame
      exact hExpanded.getElem? hSingle hNext hBlock
    · exact absurd rfl (hNot old)

/-- The call at a position before all others is still to be replaced, with nothing to be done about its result. -/
theorem readied_of_becomes (hAt : c.site.address = m.code.addressAt p)
    (hResult : c.site.target.ret.isVoid = true → ∀ dst, m.code[p + 1]? ≠ some (.moveResult dst)) :
    Readied m m' (c :: calls) σ p label block where
  expanded := hExpanded
  before n hn i hi := eq_of_le hBecomes hp hBefore hn hi
  others n i hi hOther := by
    refine (hBecomes n i hi).cons hAt hp (List.getElem?_eq_some_iff.mp hi).1 hOther ?_
    rintro hVoid rfl dst rfl
    exact hResult hVoid dst hi

/-- The call at a position before all others is still to be replaced, and what has been moved from its result is null. -/
theorem readied_of_null (hAt : c.site.address = m.code.addressAt p) (hVoid : c.site.target.ret.isVoid = true)
    {dst : Register} (hDst : m.code[p + 1]? = some (.moveResult dst)) :
    ∃ label block, Readied m (m'.splice (p + 1) 1 [.const (σ dst) .null] true).1 (c :: calls) σ p label block := by
  have hNext := (List.getElem?_eq_some_iff.mp hDst).1
  have hSingle : m.code.Unexpanded block (p + 1 + 1) := by
    intro n hn i hi
    rcases Nat.lt_succ_iff_lt_or_eq.mp hn with hStart | rfl
    · exact unexpanded_of_before hBecomes hp hBefore n hStart i hi
    · obtain rfl := Option.some.inj (hDst.symm.trans hi)
      rcases (hBecomes _ _ hDst).result_of_before hBefore with ⟨old, _, hBlock⟩ | ⟨hNot, _⟩
      · exact ⟨_, hBlock, rfl⟩
      · exact absurd rfl (hNot dst)
  refine ⟨_, _, hExpanded.splice hSingle hNext _, fun n hn i hi => ?_, fun n i hi hOther => ?_⟩
  · rw [Function.update_of_ne (by omega), eq_of_le hBecomes hp hBefore hn hi, List.map_singleton,
      Instruction.mapTargets_mapTargets]
  · by_cases hHere : n = p + 1
    · obtain rfl := hHere
      obtain rfl := Option.some.inj (hDst.symm.trans hi)
      rw [Function.update_self]
      exact .null (.head _) hAt hVoid
    · rw [Function.update_of_ne hHere]
      exact ((hBecomes n i hi).mapTargets _).cons hAt hp (List.getElem?_eq_some_iff.mp hi).1 hOther
        fun _ hNext => absurd hNext hHere

/-- Only the call is still to be replaced after what is done about its result. -/
theorem readied_of_nulled (hAt : c.site.address = m.code.addressAt p) (hNulled : Nulled c.site m' p m'') :
    ∃ label block, Readied m m'' (c :: calls) σ p label block := by
  cases hNulled with
  | null hVoid hDst =>
      obtain ⟨old, hOld, rfl⟩ := (moveResult_iff hExpanded hBecomes hp hBefore).mp hDst
      exact readied_of_null hExpanded hBecomes hp hBefore hAt hVoid hOld
  | same hNone =>
      refine ⟨label, block, readied_of_becomes hExpanded hBecomes hp hBefore hAt fun hVoid dst hDst => ?_⟩
      exact hNone hVoid _ ((moveResult_iff hExpanded hBecomes hp hBefore).mpr ⟨dst, hDst, rfl⟩)

end

/-- The call that is still to be replaced is made direct. -/
theorem Readied.lower (h : Readied m m' (c :: calls) σ p label block) (hAt : c.site.address = m.code.addressAt p)
    {handle receiver argv : Register} {args : List Register}
    (hi : m.code[p]? = some (.invoke .virtual reflectiveCall (handle :: receiver :: argv :: args))) :
    ∃ label block, m.Expanded (m'.splice p 1 (lower c.site (σ receiver) (σ argv) c.scratch) true).1 label block ∧
      ∀ n i, m.code[n]? = some i → Becomes m.code (c :: calls) σ label n i (block n) := by
  refine ⟨_, _, h.expanded.splice h.unexpanded (List.getElem?_eq_some_iff.mp hi).1 _, fun n j hj => ?_⟩
  by_cases hHere : n = p
  · obtain rfl := hHere
    obtain rfl := Option.some.inj (hi.symm.trans hj)
    rw [Function.update_self, lower_mapTargets]
    exact .call (.head _) hAt
  · rw [Function.update_of_ne hHere]
    exact (h.others n j hj hHere).mapTargets _

theorem Nulled.frame (h : Nulled s m p m') :
    m'.reference = m.reference ∧ m'.flags = m.flags ∧ m'.locals = m.locals := by
  cases h <;> exact ⟨rfl, rfl, rfl⟩

namespace Unreflected

/-- More local registers renumber the parameters once more. The first instructions are where they have been. -/
theorem found_addLocals (h : Unreflected m found m' label block) (hi : m.code[p]? = some i)
    (hBefore : ∀ c ∈ allot m.locals found, m.code.addressAt p < c.site.address) (count : Nat) :
    m'.code.addressAt p = m.code.addressAt p ∧ (m'.addLocals count).code[p]? =
      some ((i.mapRegisters (shiftRegister m.locals (freshCount found + count))).mapTargets label) := by
  have hp := (List.getElem?_eq_some_iff.mp hi).1
  have hExpanded := h.expanded.addLocals count
  have hBecomes (n : Nat) (i : Instruction Address) (hi : m.code[n]? = some i) := h.addLocals count hi
  have hSingle := (unexpanded_of_before hBecomes hp hBefore).mono (Nat.le_succ p)
  refine ⟨?_, hExpanded.getElem? hSingle hp (eq_of_le hBecomes hp hBefore (Nat.le_refl p) hi)⟩
  rw [← Method.addLocals_addressAt p]
  exact hExpanded.addressAt hSingle (Nat.le_of_lt hp)

/-- The call of one more site, before all others, has been carried out. -/
theorem carriedOut {handle receiver argv : Register} {args : List Register} (h : Unreflected m found m' label block)
    (hAt : s.address = m.code.addressAt p)
    (hi : m.code[p]? = some (.invoke .virtual reflectiveCall (handle :: receiver :: argv :: args)))
    (hBefore : ∀ s' ∈ found, s.address < s'.address) (hOut : CarriedOut s m' m'') :
    ∃ label block, Unreflected m (s :: found) m'' label block := by
  have hp := (List.getElem?_eq_some_iff.mp hi).1
  rw [hAt, ← forall_mem_allot m.locals] at hBefore
  obtain ⟨hPlace, hNow⟩ := h.found_addLocals hi hBefore s.registerCount
  have hBecomes (n : Nat) (i : Instruction Address) (hi : m.code[n]? = some i) := h.addLocals s.registerCount hi
  rw [← freshCount_cons] at hNow hBecomes
  have hLocals : (m'.addLocals s.registerCount).locals = m.locals + freshCount (s :: found) := by
    rw [freshCount_cons, ← Nat.add_assoc, ← h.locals]
    rfl
  obtain @⟨q, kind, called, first, second, third, rest, m₁, _, hHere, hCall, hNulled⟩ := hOut
  obtain rfl : q = p := by
    have hSame : (m'.addLocals s.registerCount).code.addressAt q = (m'.addLocals s.registerCount).code.addressAt p := by
      rw [Method.addLocals_addressAt, Method.addLocals_addressAt, ← hHere, hAt, hPlace]
    exact Code.addressAt_injective (Nat.le_of_lt (List.getElem?_eq_some_iff.mp hCall).1)
      (Nat.le_of_lt (List.getElem?_eq_some_iff.mp hNow).1) hSame
  have hArgs := Option.some.inj (hCall.symm.trans hNow)
  simp only [Instruction.mapRegisters, Instruction.mapTargets, List.map_cons, Instruction.invoke.injEq,
    List.cons.injEq] at hArgs
  obtain ⟨_, _, _, rfl, rfl, _⟩ := hArgs
  obtain ⟨label, block, hReady⟩ := readied_of_nulled (c := ⟨s, m.locals + freshCount found⟩)
    (h.expanded.addLocals s.registerCount) hBecomes hp hBefore hAt hNulled
  obtain ⟨label, block, hExpanded, hBecomes⟩ := hReady.lower hAt hi
  rw [← h.locals] at hExpanded
  obtain ⟨hReference, hFlags, hSame⟩ := hNulled.frame
  exact ⟨label, block, hReference.trans h.reference, hFlags.trans h.flags, hSame.trans hLocals, hExpanded, hBecomes⟩

end Unreflected

/-- A site is at a reflective call of a body. -/
def Site.Calls (s : Site) (code : Code) : Prop :=
  ∃ p handle receiver argv args, s.address = code.addressAt p ∧
    code[p]? = some (.invoke .virtual reflectiveCall (handle :: receiver :: argv :: args))

theorem calls_of_mem_sites {cs : Classes} {g : Graph} (hs : s ∈ sites cs g) : s.Calls g.method.code := by
  obtain ⟨⟨a, i⟩, hLocated, hSite⟩ := List.mem_filterMap.mp hs
  obtain ⟨p, hp, hi⟩ := Code.at?_eq_some_iff.mp (Code.mem_located_iff.mp hLocated)
  split at hSite
  · obtain ⟨rfl, ⟨handle, receiver, argv, args, rfl⟩, _⟩ := site?_eq_some hSite
    exact ⟨p, handle, receiver, argv, args, (Code.indexOf?_eq_some_iff.mp hp).2.symm, hi⟩
  · cases hSite

/-- An edit of a graph fails because there are no numbers for more registers. Where the states have the registers of the
method, that is so only if those and `count` more are too many. -/
def Overflows (g : Graph) (count : Nat) (e : EditError) : Prop :=
  e = .overflow ∧ (g.Shaped → Register.limit ≤ g.method.registerCount + count)

/-- The call of a site is carried out, or there are no numbers for its fresh registers. -/
theorem carryOut_concludes {d : Draft} (hd : d.graph.Consistent) (hAt : s.address = d.graph.method.code.addressAt p)
    {kind : InvokeKind} {called : MethodReference} {handle receiver argv : Register} {args : List Register}
    (hi : (d.graph.method.addLocals s.registerCount).code[p]? =
      some (.invoke kind called (handle :: receiver :: argv :: args))) :
    Concludes (carryOut s) d (fun _ d' => d.graph.Keeps d'.graph ∧ CarriedOut s d.graph.method d'.graph.method)
      (Overflows d.graph s.registerCount) := by
  cases hRoom : d.graph.hasRoom s.registerCount with
  | true => exact ((carryOut_yields hRoom hAt hi).concludes.and_leads (carryOut_leads hd s)).imp fun _ _ h => h.symm
  | false =>
      rw [Concludes, carryOut_of_full hRoom]
      refine ⟨rfl, fun hShaped => Nat.le_of_not_lt fun hLess => ?_⟩
      rw [Graph.hasRoom_of_shaped hShaped (Method.hasRoom_of_lt hd.valid hLess)] at hRoom
      cases hRoom

/-- The calls are carried out from the last one to the first one, until there are no numbers for the fresh registers of
one. -/
theorem carryOutAll_concludes {todo : List Site} {r : Revision} (hr : r.draft.graph.Consistent)
    (hTodo : ∀ s ∈ todo, s.Calls m.code) (hOrder : todo.Pairwise fun s s' => s'.address < s.address)
    (hBefore : ∀ s ∈ todo, ∀ s' ∈ found, s.address < s'.address)
    (h : Unreflected m found r.draft.graph.method label block) :
    Concludes (todo.forM fun s => do
        Pass.edit (carryOut s)
        Pass.count .unreflection) r
      (fun _ r' => ∃ label block, Unreflected m (todo.reverse ++ found) r'.draft.graph.method label block)
      (Overflows r.draft.graph (freshCount todo)) := by
  induction todo generalizing found r label block with
  | nil => exact ⟨label, block, h⟩
  | cons s todo ih =>
      obtain ⟨hFirst, hRest⟩ := List.pairwise_cons.mp hOrder
      obtain ⟨p, handle, receiver, argv, args, hAt, hi⟩ := hTodo s (.head _)
      change Concludes ((do
        Pass.edit (carryOut s)
        Pass.count .unreflection) >>= fun _ => todo.forM fun s => do
          Pass.edit (carryOut s)
          Pass.count .unreflection) r _ _
      rw [concludes_bind, concludes_bind, Pass.concludes_edit]
      have hCalls := hBefore s (.head _)
      rw [hAt, ← forall_mem_allot m.locals] at hCalls
      obtain ⟨hPlace, hInsn⟩ := h.found_addLocals hi hCalls s.registerCount
      refine ((carryOut_concludes hr (hAt.trans hPlace.symm) hInsn).weaken fun e he => ?_).imp fun _ d' hBoth => ?_
      · refine ⟨he.1, fun hShaped => Nat.le_trans (he.2 hShaped) ?_⟩
        rw [freshCount_cons]
        omega
      · obtain ⟨hKeeps, hOut⟩ := hBoth
        obtain ⟨label', block', hNow⟩ := h.carriedOut hAt hi (hBefore s (.head _)) hOut
        rw [Pass.concludes_count, List.reverse_cons, List.append_assoc]
        refine (ih hKeeps.consistent (fun s' hs' => hTodo s' (.tail _ hs')) hRest (fun s' hs' => ?_) hNow).weaken
          fun e he => ⟨he.1, fun hShaped => ?_⟩
        · exact List.forall_mem_cons.mpr ⟨hFirst s' hs', hBefore s' (.tail _ hs')⟩
        · have hFull := he.2 (hKeeps.shaped hShaped)
          rw [hNow.registerCount, freshCount_cons] at hFull
          rw [h.registerCount, freshCount_cons]
          omega

theorem freshCount_reverse (found : List Site) : freshCount found.reverse = freshCount found := by
  rw [freshCount, List.map_reverse, List.sum_reverse, freshCount]

theorem perform_cases (cs : Classes) {r : Revision} (hr : r.draft.graph.Consistent)
    (hComplete : r.draft.graph.isComplete = true) :
    Concludes (perform cs) r
      (fun now r' => (now ≠ .stale → r' = r) ∧ ∃ label block,
        Unreflected r.draft.graph.method (sites cs r.draft.graph) r'.draft.graph.method label block)
      (Overflows r.draft.graph (freshCount (sites cs r.draft.graph))) := by
  rw [perform, concludes_bind, Pass.concludes_graph, if_pos hComplete]
  dsimp only
  split
  · rename_i hEmpty
    rw [List.isEmpty_iff.mp hEmpty]
    exact ⟨fun _ => rfl, _, _, .refl _⟩
  · rw [concludes_bind]
    have hOrder : (sites cs r.draft.graph).reverse.Pairwise fun s s' => s'.address < s.address := by
      refine pairwise_located _ Site.address _ fun p s hs => ?_
      split at hs
      · exact (site?_eq_some hs).1
      · cases hs
    have hAll := carryOutAll_concludes hr (fun s hs => calls_of_mem_sites (List.mem_reverse.mp hs)) hOrder
      (fun _ _ => List.forall_mem_nil _) (.refl _)
    rw [freshCount_reverse] at hAll
    refine hAll.imp fun _ r' h => ?_
    rw [List.reverse_reverse, List.append_nil] at h
    exact ⟨fun hFresh => absurd rfl hFresh, h⟩

/-- Calling directly what is called by reflection disturbs nothing else. For a graph of a completed execution that fits its
method, as that of every execution does (`Machine.execute_consistent`), and as long as all registers can be numbered, it
succeeds and leaves such a graph, in which the calls at the sites are direct ones with fresh registers of their own, what
has been moved from the result of one that returns nothing is null, and everything else is as before, but for the new places
and the new numbers of the parameters. -/
theorem perform_unreflects (cs : Classes) (r : Revision) (hr : r.draft.graph.Consistent)
    (hShaped : r.draft.graph.Shaped) (hComplete : r.draft.graph.isComplete = true)
    (hCount : r.draft.graph.method.registerCount + freshCount (sites cs r.draft.graph) < Register.limit) :
    let m := r.draft.graph.method
    let found := sites cs r.draft.graph
    ∃ result r' label block, perform cs r = (.ok result, r') ∧
      r'.draft.graph.Consistent ∧ r'.draft.graph.method.validate = .ok () ∧ r'.draft.graph.Shaped ∧
      Unreflected m found r'.draft.graph.method label block ∧
      (allot m.locals found).Pairwise (fun c c' => ∀ r, ¬(c.Owns r ∧ c'.Owns r)) ∧
      ∀ c ∈ allot m.locals found,
        c.Fresh m.code (shiftRegister m.locals (freshCount found)) r'.draft.graph.method.locals := by
  have hCases := (perform_cases cs hr hComplete).and_leads (perform_leads cs hr)
  obtain ⟨result, r', hRun, ⟨_, label, block, hUnreflected⟩, hKeeps⟩ :=
    (hCases.yields fun _ he => Nat.not_lt_of_le (he.2 hShaped) hCount).exists_eq
  refine ⟨result, r', label, block, hRun, hKeeps.consistent, hKeeps.consistent.valid, hKeeps.shaped hShaped, hUnreflected,
    allot_apart _ _, fun c hc => ?_⟩
  rw [hUnreflected.locals]
  exact fresh_of_mem_allot hc _

/-- A method that is called on an object with a number. -/
def twiceMethod : Method where
  reference := ⟨⟨"La;"⟩, "twice", [.int], .int⟩
  flags := { pub := true }
  locals := 0
  code := [.returnValue 1]
  tries := []

/-- A method that calls two others by reflection. The first one returns nothing. -/
def relayingMethod : Method where
  reference := ⟨⟨"Lb;"⟩, "relay", [.object], .object⟩
  flags := { static := true }
  locals := 5
  code := [.const 0 (.type ⟨"La;"⟩), .const 1 (.string "chosen"), .const 2 (.int 0),
    .newArray 3 2 (.arrayOf .classObject),
    .invoke .virtual FrameworkMethod.classDeclaredMethod.reference [0, 1, 3], .moveResult 4,
    .invoke .virtual reflectiveCall [4, 5, 3], .moveResult 2,
    .const 1 (.string "twice"), .const 2 (.int 1), .newArray 3 2 (.arrayOf .classObject),
    .const 4 (.type .int), .const 2 (.int 0), .arrayPut 4 3 2,
    .invoke .virtual FrameworkMethod.classDeclaredMethod.reference [0, 1, 3], .moveResult 4,
    .invoke .virtual reflectiveCall [4, 5, 3], .moveResult 4, .returnValue 4]
  tries := []

def relayingMachine : Machine := ⟨⟨[⟨⟨"La;"⟩, [Optimization.chosenMethod, twiceMethod]⟩]⟩, ⟨40, 5, 2⟩⟩

/-- Both calls are made direct. Three fresh registers after the locals are for the last one, two more for the first one. -/
theorem perform_unreflects_relayingMethod :
    let g := relayingMachine.graphOf relayingMethod (Machine.initialState relayingMethod)
    g.Consistent ∧ g.Shaped ∧ g.isComplete = true ∧
      g.method.registerCount + freshCount (sites relayingMachine.classes g) < Register.limit ∧
      (allot 5 (sites relayingMachine.classes g)).map (fun c => (c.site.target.name, c.scratch)) =
        [("chosen", 8), ("twice", 5)] ∧
      ∃ result r' label block, perform relayingMachine.classes ⟨⟨g, false⟩, .empty⟩ = (.ok result, r') ∧
        r'.draft.graph.method.validate = .ok () ∧ r'.draft.graph.Shaped ∧
        Unreflected relayingMethod (sites relayingMachine.classes g) r'.draft.graph.method label block := by
  have hExecuted : relayingMachine.execute relayingMethod (Machine.initialState relayingMethod) =
      .ok (relayingMachine.graphOf relayingMethod (Machine.initialState relayingMethod)) :=
    Machine.execute_eq_graphOf (by decide +kernel)
  have hComplete : (relayingMachine.graphOf relayingMethod (Machine.initialState relayingMethod)).isComplete = true := by
    decide +kernel
  have hAllot : (allot 5 (sites relayingMachine.classes
      (relayingMachine.graphOf relayingMethod (Machine.initialState relayingMethod)))).map
        (fun c => (c.site.target.name, c.scratch)) = [("chosen", 8), ("twice", 5)] := by
    decide +kernel
  have hCount : (relayingMachine.graphOf relayingMethod (Machine.initialState relayingMethod)).method.registerCount +
      freshCount (sites relayingMachine.classes
        (relayingMachine.graphOf relayingMethod (Machine.initialState relayingMethod))) < Register.limit := by
    decide +kernel
  dsimp only
  generalize relayingMachine.graphOf relayingMethod (Machine.initialState relayingMethod) = g at *
  obtain ⟨hMethod, _, hConsistent, hShaped⟩ := Machine.execute_consistent hExecuted
  obtain ⟨result, r', label, block, hRun, _, hValid, hStates, hUnreflected, _⟩ :=
    perform_unreflects relayingMachine.classes ⟨⟨g, false⟩, .empty⟩ hConsistent (hShaped ⟨rfl, rfl⟩) hComplete hCount
  exact ⟨hConsistent, hShaped ⟨rfl, rfl⟩, hComplete, hCount, hAllot, result, r', label, block, hRun, hValid, hStates,
    hMethod ▸ hUnreflected⟩

/-- The reflective calls of a method that all but exhausts the registers are not made direct: there are no numbers for the
fresh ones of the last call, and the program ends. -/
theorem not_unreflected_of_full :
    ¬ ∀ (m : Machine) (method : Method) (entry : State) (g : Graph), method.validate = .ok () → entry.Fits method →
      method.registerCount < Register.limit → m.execute method entry = .ok g → g.isComplete = true →
        ∃ result r', perform m.classes ⟨⟨g, false⟩, .empty⟩ = (.ok result, r') ∧
          r'.draft.graph.method.validate = .ok () ∧ r'.draft.graph.Shaped := by
  intro h
  have hValid : relayingMethod.validate = .ok () := by decide +kernel
  have hFits : (Machine.initialState relayingMethod).Fits relayingMethod := ⟨rfl, rfl⟩
  have hExecuted : relayingMachine.execute relayingMethod (Machine.initialState relayingMethod) =
      .ok (relayingMachine.graphOf relayingMethod (Machine.initialState relayingMethod)) :=
    Machine.execute_eq_graphOf (by decide +kernel)
  have hWide := Machine.execute_widened relayingMachine hValid hFits 0xfff9
  rw [hExecuted] at hWide
  obtain ⟨result, r', hRun, _⟩ := h relayingMachine (relayingMethod.addLocals 0xfff9) _ _
    (Method.validate_addLocals hValid) (hFits.insertLocals _) (by decide) hWide (by decide +kernel)
  have hFull : (perform relayingMachine.classes ⟨⟨(((relayingMachine.graphOf relayingMethod
      (Machine.initialState relayingMethod)).withMethod (relayingMethod.addLocals 0xfff9)).insertLocals 0xfff9), false⟩,
        .empty⟩).1 = .error .overflow := by
    decide +kernel
  rw [hRun] at hFull
  cases hFull

end Unreflection

end Dalvik
