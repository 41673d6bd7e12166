import Dalvik.Proofs.Substituting

/-!
Carrying out the plans to load classes and to drop casts. Nothing is refused, as what is removed has only gone on to
the next instruction, and a class can be loaded wherever its register is.
-/

namespace Dalvik

namespace Peephole

/-- What is known of the executions that are planned for. Casts that cannot fail and what takes the result of a
look-up have only gone on to the next instruction, and the register that a class is loaded into is there. -/
structure Ready (g : Graph) : Prop where
  stringless : ∀ a receiver text, planAt? g a ≠ some (.loadString receiver text)
  casts : ∀ p < g.method.code.length, planAt? g (g.method.code.addressAt p) = some .dropCast → g.Passes p
  taken : ∀ p dst type, p + 1 < g.method.code.length →
    planAt? g (g.method.code.addressAt p) = some (.loadClass dst type) → g.Passes (p + 1)
  room : ∀ k n dst type, g.node? k = some n → planAt? g n.address = some (.loadClass dst type) →
    dst < n.pre.registerCount

/-- A graph has come from another one, and its method from that of the other one, while some of the plans `σ` for
instructions from a position on were carried out. -/
structure Changed (g g' : Graph) (σ : Address → Option Plan) (label : Address → Address) (bound : Nat) : Prop where
  consistent : g'.Consistent
  inside : bound ≤ g.method.code.length
  reworked : g.method.Reworked g'.method label (standing g.method.code σ) bound
  spares : g.Spares g' bound
  planned : ∀ a plan, σ a = some plan → planAt? g a = some plan ∧ g.method.code.addressAt bound ≤ a

section Changed

variable {g : Graph} {d : Draft} {σ : Address → Option Plan} {label : Address → Address} {bound p : Nat}
  {i : Instruction Address} {plan : Plan} {dst : Register} {type : Descriptor} (machine : Machine)

theorem Changed.refl (hg : g.Consistent) (hBounded : g.method.Bounded) :
    Changed g g (fun _ => none) id g.method.code.length where
  consistent := hg
  inside := Nat.le_refl _
  reworked := by
    have hSame : standing g.method.code (fun _ => none) = g.method.code.at? := by
      funext a
      refine standing_of_eq_none rfl ?_
      cases hFound : lookup? g.method.code (fun _ => none) a with
      | none => rfl
      | some b =>
          obtain ⟨_, _, _, hPlan⟩ := lookup?_eq_some_iff.mp hFound
          cases hPlan
    rw [hSame]
    exact .refl hBounded
  spares := .refl g _
  planned _ _ h := nomatch h

/-- Nothing has been done before the place of the last edit. -/
theorem Changed.eq_none (h : Changed g d.graph σ label bound) (hp : p < bound) :
    σ (g.method.code.addressAt p) = none := by
  cases hPlan : σ (g.method.code.addressAt p) with
  | none => rfl
  | some plan => exact absurd (Code.addressAt_lt hp h.inside) (Nat.not_lt.mpr (h.planned _ _ hPlan).2)

/-- What has been carried out with one more plan. -/
theorem Changed.planned_update (h : Changed g d.graph σ label bound) (hp : p ≤ bound)
    (hPlan : planAt? g (g.method.code.addressAt p) = some plan) (a : Address) (plan' : Plan)
    (hUpdated : Function.update σ (g.method.code.addressAt p) (some plan) a = some plan') :
    planAt? g a = some plan' ∧ g.method.code.addressAt p ≤ a := by
  by_cases hHere : a = g.method.code.addressAt p
  · rw [hHere, Function.update_self] at hUpdated
    rw [hHere, hPlan]
    exact ⟨hUpdated, Nat.le_refl _⟩
  · rw [Function.update_of_ne hHere] at hUpdated
    obtain ⟨hOwn, hAbove⟩ := h.planned a plan' hUpdated
    refine ⟨hOwn, Nat.le_trans ?_ hAbove⟩
    exact (Code.addressAt_le_iff (Nat.le_trans hp h.inside) h.inside).mpr hp

/-- An instruction that is there no longer is removed, as far as what is before it goes. -/
theorem remove_reworked (hd : d.graph.Consistent) {m : Method} {stands : Address → Option (Instruction Address)}
    (hRework : m.Reworked d.graph.method label stands bound) (hp : p < bound) (hi : m.code[p]? = some i)
    (hFalls : i.fallsThrough = true) (hPasses : d.graph.Passes p) :
    Yields (Edit.remove (m.code.addressAt p)) d fun _ d' => d'.graph.Consistent ∧ d.graph.Spares d'.graph p ∧
      ∃ label', m.Reworked d'.graph.method label' (Function.update stands (m.code.addressAt p) none) p := by
  obtain ⟨hAddress, hNow⟩ := hRework.edited.found hp hi
  have hBound := (List.getElem?_eq_some_iff.mp hNow).1
  have hDone := Edit.remove_yields hd hRework.moved.bounded hNow (by simpa using hFalls) hPasses
  rw [← hAddress] at hDone
  refine hDone.imp fun _ d' h => ?_
  obtain ⟨hConsistent, hMethod, hSpares⟩ := h
  refine ⟨hConsistent, hSpares, _, hRework.step hp (List.getElem?_eq_some_iff.mp hi).1 none ?_ hMethod⟩
  rw [hMethod]
  exact Method.moved_without hRework.moved.bounded (hPasses.lt hBound)

/-- A class is loaded in place of an instruction. -/
theorem load_reworked (hd : d.graph.Consistent) {m : Method} {stands : Address → Option (Instruction Address)}
    (hRework : m.Reworked d.graph.method label stands bound) (hp : p < bound) (hi : m.code[p]? = some i)
    (hFalls : i.fallsThrough = true) {b : Address} (hNext : m.code.next? (m.code.addressAt p) = some b)
    (hDst : dst < m.registerCount)
    (hRoom : ∀ k n, d.graph.node? k = some n → n.address = d.graph.method.code.addressAt p →
      dst < n.pre.registerCount) :
    Yields (load machine (m.code.addressAt p) dst (.type type)) d fun _ d' =>
      d'.graph.Consistent ∧ d.graph.Spares d'.graph p ∧ ∃ label', m.Reworked d'.graph.method label'
        (Function.update stands (m.code.addressAt p) (some (.const dst (.type type)))) p := by
  obtain ⟨hAddress, hNow⟩ := hRework.edited.found hp hi
  have hOld := (List.getElem?_eq_some_iff.mp hi).1
  have hBound := (List.getElem?_eq_some_iff.mp hNow).1
  have hAdmits := Method.admits_const (hRework.edited.registers ▸ hDst) (.type type)
  have hReplaced := Edit.replace_spares hd hRework.moved.bounded hNow (by simpa using hFalls) hAdmits
  rw [← hAddress] at hReplaced
  rw [load, yields_bind]
  refine hReplaced.imp fun _ d' h => ?_
  obtain ⟨hConsistent, hMethod, hSpares⟩ := h
  have hReworked := hRework.step hp hOld (some (.const dst (.type type)))
    (by rw [hMethod]; exact Method.moved_replaced hRework.moved.bounded hBound _) hMethod
  -- the load is where the instruction was, and what followed that follows it
  have hInsn := hReworked.moved.insn _ _ (Code.hasAddress_addressAt hOld) (Function.update_self ..)
  have hAfter := hReworked.moved.next _ _ (Code.hasAddress_addressAt hOld) (Function.update_self ..)
  rw [hReworked.before p (Nat.le_refl p)] at hInsn hAfter
  rw [hNext] at hAfter
  refine (Edit.refresh_yields hConsistent hInsn hAfter fun k n' hn' hHere => ?_).imp fun _ d'' hAgain => ?_
  · have hPlace := hReworked.edited.address p (Nat.le_refl p)
    obtain ⟨n, hn, hThere, hPre⟩ := hSpares.pre p (Nat.lt_succ_self p) k n' hn' (hHere.trans hPlace.symm)
    rw [hPre]
    exact hRoom k n hn hThere
  · exact ⟨hAgain.consistent hConsistent,
      (hSpares.mono (Nat.le_succ p)).trans (hAgain.spares hConsistent hReworked.edited.length), _,
      hAgain.method ▸ hReworked⟩

/-- A cast that cannot fail is removed. -/
theorem dropCast_yields (hReady : Ready g) (h : Changed g d.graph σ label bound) (hp : p < bound)
    (hi : g.method.code[p]? = some i) (hSuits : Suits g.method p .dropCast i)
    (hPlan : planAt? g (g.method.code.addressAt p) = some .dropCast) :
    Yields (carryOut machine (g.method.code.addressAt p) .dropCast) d fun _ d' =>
      ∃ label', Changed g d'.graph (Function.update σ (g.method.code.addressAt p) (some .dropCast)) label' p := by
  have hBound := (List.getElem?_eq_some_iff.mp hi).1
  have hPasses := h.spares.passes hp (hReady.casts p hBound hPlan)
  rw [carryOut, yields_bind]
  refine (remove_reworked h.consistent h.reworked hp hi hSuits.falls hPasses).imp fun _ d' hDone => ?_
  obtain ⟨hConsistent, hSpares, label', hReworked⟩ := hDone
  rw [← standing_dropCast (h.eq_none hp)] at hReworked
  exact ⟨label', hConsistent, Nat.le_of_lt hBound, hReworked, (h.spares.mono (Nat.le_of_lt hp)).trans hSpares,
    h.planned_update (Nat.le_of_lt hp) hPlan⟩

/-- What takes the result of a look-up is removed, and the class is loaded in place of the look-up. -/
theorem loadClass_yields (hValid : g.method.validate = .ok ()) (hReady : Ready g)
    (h : Changed g d.graph σ label bound) (hLast : ∀ dst, g.method.code[bound]? ≠ some (.moveResult dst))
    (hp : p < bound) (hi : g.method.code[p]? = some i) (hSuits : Suits g.method p (.loadClass dst type) i)
    (hPlan : planAt? g (g.method.code.addressAt p) = some (.loadClass dst type)) :
    Yields (carryOut machine (g.method.code.addressAt p) (.loadClass dst type)) d fun _ d' => ∃ label',
      Changed g d'.graph (Function.update σ (g.method.code.addressAt p) (some (.loadClass dst type))) label' p := by
  have hResult := hSuits.loadClass dst type rfl
  have hMore : p + 1 < bound := by
    refine Nat.lt_of_le_of_ne hp fun hSame => ?_
    exact hLast dst (hSame ▸ hResult)
  have hBound := (List.getElem?_eq_some_iff.mp hResult).1
  have hPasses := h.spares.passes hMore (hReady.taken p dst type hBound hPlan)
  have hNext : d.graph.method.code.next? (g.method.code.addressAt p) = some (g.method.code.addressAt (p + 1)) := by
    obtain ⟨hAddress, _⟩ := h.reworked.edited.found hp hi
    obtain ⟨hAddressMore, hThere⟩ := h.reworked.edited.found hMore hResult
    rw [hAddress, hAddressMore]
    exact Code.next?_addressAt (List.getElem?_eq_some_iff.mp hThere).1
  have hDst : dst < g.method.registerCount :=
    ((Method.validate_eq_ok_iff.mp hValid).1 _ (List.mem_of_getElem? hResult)).registers dst
      (by simp [Instruction.writes?])
  rw [carryOut, yields_bind]
  refine yields_of_eq (v := d.graph.method) (t := d) rfl ?_
  rw [hNext]
  dsimp only
  rw [yields_bind]
  -- the later of the two edits comes first, so that the earlier place is where it was
  refine (remove_reworked h.consistent h.reworked hMore hResult rfl hPasses).imp fun _ d' hDone => ?_
  obtain ⟨hConsistent, hSpares, label', hReworked⟩ := hDone
  have hBetween := (h.spares.mono (Nat.le_of_lt hMore)).trans hSpares
  refine (load_reworked machine hConsistent hReworked (Nat.lt_succ_self p) hi hSuits.falls
    (Code.next?_addressAt hBound) hDst fun k n' hn' hHere => ?_).imp fun _ d'' hDone => ?_
  · obtain ⟨n, hn, hThere, hPre⟩ := hBetween.pre p (Nat.lt_succ_self p) k n' hn' hHere
    rw [hPre]
    exact hReady.room k n dst type hn (hThere ▸ hPlan)
  · obtain ⟨hConsistent', hSpares', label'', hReworked'⟩ := hDone
    rw [← standing_loadClass (h.eq_none hMore) (Code.next?_addressAt hBound)] at hReworked'
    exact ⟨label'', hConsistent', Nat.le_of_lt (Nat.lt_of_succ_lt hBound), hReworked',
      (hBetween.mono (Nat.le_succ p)).trans hSpares', h.planned_update (Nat.le_of_lt hp) hPlan⟩

/-- A plan is carried out at the place of its instruction and, to load a class, at that of the result. -/
theorem carryOut_yields (hValid : g.method.validate = .ok ()) (hReady : Ready g)
    (h : Changed g d.graph σ label bound) (hLast : ∀ dst, g.method.code[bound]? ≠ some (.moveResult dst))
    (hp : p < bound) (hi : g.method.code[p]? = some i) (hSuits : Suits g.method p plan i)
    (hPlan : planAt? g (g.method.code.addressAt p) = some plan) :
    Yields (carryOut machine (g.method.code.addressAt p) plan) d fun _ d' =>
      ∃ label', Changed g d'.graph (Function.update σ (g.method.code.addressAt p) (some plan)) label' p := by
  cases plan with
  | loadString receiver text => exact absurd hPlan (hReady.stringless _ receiver text)
  | dropCast => exact dropCast_yields machine hReady h hp hi hSuits hPlan
  | loadClass dst type => exact loadClass_yields machine hValid hReady h hLast hp hi hSuits hPlan

/-- The plans that are left to be carried out are those for what is before the last edit. -/
structure Pending (g : Graph) (rest : List (Address × Plan)) (σ : Address → Option Plan) (bound : Nat) : Prop where
  order : rest.Pairwise fun x y => y.1 < x.1
  planned : ∀ a plan, planAt? g a = some plan ↔ σ a = some plan ∨ (a, plan) ∈ rest
  before : ∀ x ∈ rest, x.1 < g.method.code.addressAt bound
  last : ∀ dst, g.method.code[bound]? ≠ some (.moveResult dst)

/-- Plans are carried out from the end of the method to its start. -/
theorem carryOutAll_yields {rest : List (Address × Plan)} {r : Revision} (hValid : g.method.validate = .ok ())
    (hReady : Ready g) (h : Changed g r.draft.graph σ label bound) (hRest : Pending g rest σ bound) :
    Yields (rest.forM fun x => do
      Pass.edit (carryOut machine x.1 x.2)
      Pass.count x.2.category) r fun _ r' => ∃ label' bound', Changed g r'.draft.graph (planAt? g) label' bound' := by
  induction rest generalizing r σ label bound with
  | nil =>
      have hAll : planAt? g = σ := by
        funext a
        exact Option.ext fun plan => (hRest.planned a plan).trans (or_iff_left (List.not_mem_nil))
      exact ⟨label, bound, hAll ▸ h⟩
  | cons x rest ih =>
      obtain ⟨a, plan⟩ := x
      obtain ⟨hFirst, hTail⟩ := List.pairwise_cons.mp hRest.order
      have hPlan := (hRest.planned a plan).mpr (.inr (.head _))
      obtain ⟨p, i, rfl, hi, hSuits⟩ := exists_suits hPlan
      have hBound := (List.getElem?_eq_some_iff.mp hi).1
      have hp := (Code.addressAt_lt_iff (Nat.le_of_lt hBound) h.inside).mp (hRest.before _ (.head _))
      obtain ⟨_, d', hDone, label', hNow⟩ :=
        (carryOut_yields machine hValid hReady h hRest.last hp hi hSuits hPlan).exists_eq
      have hEdit : Pass.edit (carryOut machine (g.method.code.addressAt p) plan) r =
          (.ok (), { r with draft := d' }) := by
        unfold Pass.edit
        rw [hDone]
      change Yields ((do
        Pass.edit (carryOut machine (g.method.code.addressAt p) plan)
        Pass.count plan.category) >>= fun _ => rest.forM _) r _
      rw [yields_bind, yields_bind]
      refine yields_of_eq hEdit (yields_of_eq rfl ?_)
      refine ih (σ := Function.update σ (g.method.code.addressAt p) (some plan)) hNow
        ⟨hTail, fun a plan' => ?_, hFirst, fun dst hSame => ?_⟩
      · by_cases hHere : a = g.method.code.addressAt p
        · subst hHere
          have hNot : (g.method.code.addressAt p, plan') ∉ rest := fun hMem =>
            absurd (hFirst _ hMem) (Nat.lt_irrefl _)
          rw [Function.update_self, hPlan, or_iff_left hNot]
        · rw [Function.update_of_ne hHere, hRest.planned]
          simp [hHere]
      · exact hSuits.takesNoResult dst (Option.some.inj (hi.symm.trans hSame))

/-- What is replaced succeeds, and leaves a graph that is changed by all plans. -/
theorem perform_yields {r : Revision} (hr : r.draft.graph.Consistent) (hBounded : r.draft.graph.method.Bounded)
    (hComplete : r.draft.graph.isComplete = true) (hReady : Ready r.draft.graph) :
    Yields (perform machine) r fun _ r' =>
      ∃ label bound, Changed r.draft.graph r'.draft.graph (planAt? r.draft.graph) label bound := by
  rw [perform, yields_bind]
  refine yields_of_eq (v := r.draft.graph) (t := r) rfl ?_
  rw [if_pos hComplete, yields_bind]
  have hPending : Pending r.draft.graph (plans r.draft.graph).reverse (fun _ => none)
      r.draft.graph.method.code.length := by
    refine ⟨Graph.pairwise_planned _ _, fun a plan => ?_, fun x hx => ?_, by simp⟩
    · rw [List.mem_reverse, mem_plans_iff]
      simp
    · obtain ⟨p, i, hAddress, hi, _⟩ := exists_suits (mem_plans_iff.mp (List.mem_reverse.mp hx))
      rw [hAddress]
      exact Code.addressAt_lt (List.getElem?_eq_some_iff.mp hi).1 (Nat.le_refl _)
  exact (carryOutAll_yields machine hr.valid hReady (.refl hr hBounded) hPending).imp fun _ _ h => h

end Changed

end Peephole

end Dalvik
