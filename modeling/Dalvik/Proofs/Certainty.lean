import Dalvik.Proofs.Covering
import Dalvik.Proofs.Idempotence
import Dalvik.Proofs.Clearing
import Dalvik.Proofs.Peephole

/-!
Executions that have gone where they were certain to go. What decides that is the instruction and the state before it,
which edits leave alone, so that it stays so for what edits leave of a graph, as long as only what has gone on to the
next instruction is removed.
-/

namespace Dalvik

namespace Node

/-- Whether an instruction is certain to go on to the next one in the state before an execution. -/
def isBoundOn (n : Node) : Instruction Address → Bool
  | .checkCast r type => Peephole.castHolds r type n
  | i => !i.hasSideEffect && !i.mayThrow

variable {n n' : Node} {i : Instruction Address} {label : Address → Address}

theorem isBoundOn_mapTargets (hPre : n'.pre = n.pre) : n'.isBoundOn (i.mapTargets label) = n.isBoundOn i := by
  cases i with
  | checkCast r type => simp only [Instruction.mapTargets, isBoundOn, Peephole.castHolds, hPre]
  | _ => rfl

theorem isBoundOn_congr (hPre : n'.pre = n.pre) : n'.isBoundOn i = n.isBoundOn i := by
  have hSame : n'.isBoundOn (i.mapTargets id) = n.isBoundOn i := isBoundOn_mapTargets hPre
  rwa [Instruction.mapTargets_id] at hSame

end Node

namespace Constants

variable {n n' : Node} {i : Instruction Address} {next target : Address} {label : Address → Address}

/-- Where a jump is certain to lead moves along with the places that it names. -/
theorem BoundFor.exists_mapTargets (h : BoundFor n' (label next) (i.mapTargets label) target)
    (hPre : n'.pre = n.pre) : ∃ t, BoundFor n next i t ∧ label t = target := by
  cases i with
  | goto t =>
      cases h with
      | goto _ => exact ⟨t, .goto t, rfl⟩
  | branch c lhs rhs t =>
      cases h with
      | @branch _ _ _ _ taken hTaken =>
          rw [outcome?, hPre] at hTaken
          refine ⟨_, .branch hTaken, ?_⟩
          cases taken <;> rfl
  | switch src cases =>
      cases h with
      | switch hKey =>
          rw [key?, hPre] at hKey
          exact ⟨_, .switch hKey, (Semantics.switchTarget_map cases next _).symm⟩
  | _ => cases h

end Constants

namespace Semantics.Context

variable {c : Context} {a : Address} {i : Instruction Address} {n : Node} {s t : Supply} {step : Step}

/-- What is certain to go on to the next instruction leads there and nowhere else. -/
theorem leads_of_isBoundOn (hi : c.method.code.at? a = some i) (hBound : n.isBoundOn i = true)
    (h : c.apply a n.pre s = (.ok step, t)) :
    ∃ b, c.method.code.next? a = some b ∧ step.successors = [(b, step.post)] := by
  have hQuiet (h' : (!i.hasSideEffect && !i.mayThrow) = true) :
      ∃ b, c.method.code.next? a = some b ∧ step.successors = [(b, step.post)] := by
    rw [Bool.and_eq_true, Bool.not_eq_true', Bool.not_eq_true'] at h'
    obtain ⟨b, hNext, hLeads, _⟩ := apply_quiet hi h'.1 h'.2 h
    exact ⟨b, hNext, hLeads⟩
  cases i with
  | checkCast r type =>
      exact (leads_of_next hi (Run.ends_ofExcept.mpr (checkCast_of_holds hBound _)) h).2
  | _ => exact hQuiet hBound

end Semantics.Context

namespace Method

/-- The last instruction takes no result. -/
def TakesWithin (m : Method) : Prop :=
  ∀ p, (m.code[p]?).any Instruction.takesResult = true → p + 1 < m.code.length

variable {m : Method} {p : Nat} {i : Instruction Address}

theorem fallsThrough_of_takesResult (h : i.takesResult = true) : i.fallsThrough = true := by
  cases i <;> first | rfl | cases h

theorem Closed.takesWithin (h : m.Closed) : m.TakesWithin := by
  intro p hTakes
  obtain ⟨i, hi, hTakes⟩ := (Option.any_eq_true ..).mp hTakes
  exact h.lt_of_fallsThrough hi (fallsThrough_of_takesResult hTakes)

theorem takesWithin_of_getLast? (h : ∀ i, m.code.getLast? = some i → i.takesResult = false) : m.TakesWithin := by
  intro p hTakes
  obtain ⟨i, hi, hTakes⟩ := (Option.any_eq_true ..).mp hTakes
  refine Nat.lt_of_le_of_ne (List.getElem?_eq_some_iff.mp hi).1 fun hLast => ?_
  have hEnd := h i (by rw [List.getLast?_eq_getElem?, ← hLast]; exact hi)
  rw [hTakes] at hEnd
  cases hEnd

namespace Sifted

variable {code code' : Code} {label : Address → Address} {stands : Address → Option (Instruction Address)}
  {rank : Nat → Nat}

/-- What there is at a position of the new body has been kept. -/
theorem exists_kept (h : Sifted code code' label stands rank) {q : Nat} (hq : q < code'.length) :
    ∃ p < code.length, ∃ j, stands (code.addressAt p) = some j ∧ rank p = q := by
  have hBelow (n : Nat) (hn : n ≤ code.length) (hLess : q < rank n) :
      ∃ p < n, ∃ j, stands (code.addressAt p) = some j ∧ rank p = q := by
    induction n with
    | zero => exact absurd (h.first ▸ hLess) (Nat.not_lt_zero q)
    | succ n ih =>
        have hUpTo (h' : q < rank n) : ∃ p < n + 1, ∃ j, stands (code.addressAt p) = some j ∧ rank p = q := by
          obtain ⟨p, hp, hKept⟩ := ih (Nat.le_of_succ_le hn) h'
          exact ⟨p, Nat.lt_succ_of_lt hp, hKept⟩
        cases hj : stands (code.addressAt n) with
        | none => exact hUpTo (h.gone n hn hj ▸ hLess)
        | some j =>
            rcases Nat.lt_succ_iff_lt_or_eq.mp ((h.kept n hn j hj).1 ▸ hLess) with hBefore | hHere
            · exact hUpTo hBefore
            · exact ⟨n, Nat.lt_succ_self n, j, hj, hHere.symm⟩
  exact hBelow code.length (Nat.le_refl _) (h.last.symm ▸ hq)

/-- The last instruction takes no result if something has been kept behind everything that takes one. -/
theorem takesWithin (h : Sifted code code' label stands rank)
    (hLast : ∀ p < code.length, ∀ j, stands (code.addressAt p) = some j → j.takesResult = true →
      ∃ q, p < q ∧ q < code.length ∧ stands (code.addressAt q) ≠ none) {q : Nat}
    (hTakes : (code'[q]?).any Instruction.takesResult = true) : q + 1 < code'.length := by
  obtain ⟨i, hi, hTakes⟩ := (Option.any_eq_true ..).mp hTakes
  obtain ⟨p, hp, j, hj, rfl⟩ := h.exists_kept (List.getElem?_eq_some_iff.mp hi).1
  obtain ⟨hRank, hThere⟩ := h.kept p hp j hj
  obtain rfl := Option.some.inj (hThere.symm.trans hi)
  obtain ⟨q, hLess, hq, hSome⟩ := hLast p hp j hj (by cases j <;> first | rfl | cases hTakes)
  obtain ⟨j', hj'⟩ := Option.ne_none_iff_exists'.mp hSome
  exact hRank ▸ Nat.lt_of_le_of_lt (h.mono hLess (Nat.le_of_lt hq)) (h.lt_of_kept hq hj')

/-- What follows something that is kept is what is left of what followed it. -/
theorem exists_next? (h : Sifted code code' label stands rank) {a b : Address} {j : Instruction Address}
    (ha : code.HasAddress a) (hj : stands a = some j) (hNext : code'.next? (label a) = some b) :
    ∃ next, code.next? a = some next ∧ label next = b := by
  obtain ⟨n, hn, rfl⟩ := ha
  have hRank := (h.kept n hn j hj).1
  rw [h.place n (Nat.le_of_lt hn)] at hNext
  obtain ⟨r, hr, hLess, rfl⟩ := Code.next?_eq_some_iff.mp hNext
  obtain rfl := Option.some.inj ((Code.indexOf?_addressAt (h.lt_of_kept hn hj)).symm.trans hr)
  rcases Nat.lt_or_eq_of_le (Nat.succ_le_of_lt hn) with hMore | hEnd
  · exact ⟨_, Code.next?_addressAt hMore, by rw [h.place _ hn, hRank]⟩
  · rw [← hRank, ← Nat.succ_eq_add_one, hEnd, h.last] at hLess
    exact absurd hLess (Nat.lt_irrefl _)

end Sifted

/-- The last instruction takes no result where only those take one that did before, as it has been kept. -/
theorem Ranked.takesWithin {m' : Method} {label : Address → Address} {stands : Address → Option (Instruction Address)}
    {rank : Nat → Nat} (h : Ranked m.code m'.code label stands rank) (hTakes : m.TakesWithin)
    (hStands : ∀ p < m.code.length, ∀ j, stands (m.code.addressAt p) = some j → j.takesResult = true →
      (m.code[p]?).any Instruction.takesResult = true) : m'.TakesWithin := by
  refine fun q hq => h.sifted.takesWithin (fun p hp j hj hThere => ?_) hq
  have hMore := hTakes p (hStands p hp j hj hThere)
  refine ⟨m.code.length - 1, by omega, by omega, fun hNone => ?_⟩
  have hLast := (h.gone _ (by omega) hNone).1
  omega

/-- The last instruction takes no result after one has been exchanged for another one that takes none, or for none. -/
theorem Ranked.takesWithin_exchanged {m' : Method} {label : Address → Address} {new : Option (Instruction Address)}
    {rank : Nat → Nat} (h : Ranked m.code m'.code label (m.code.exchanged p new) rank) (hp : p < m.code.length)
    (hNew : new.any Instruction.takesResult = false) (hTakes : m.TakesWithin) : m'.TakesWithin := by
  refine h.takesWithin hTakes fun q hq j hj hThere => ?_
  by_cases hHere : q = p
  · rw [hHere, Code.exchanged_here] at hj
    rw [hj, Option.any_some, hThere] at hNew
    cases hNew
  · rw [Code.exchanged_addressAt hp hq hHere] at hj
    rw [hj, Option.any_some, hThere]

end Method

namespace Graph

/-- An execution of the instruction at an address has gone on to the next one, and nowhere else. -/
def StepsOn (g : Graph) (k : NodeId) (a : Address) : Prop :=
  ∃ b, g.method.code.next? a = some b ∧ g.GoesTo k b

/-- An execution has gone where an instruction in its place is certain to go. -/
structure Follows (g : Graph) (k : NodeId) (n : Node) (i : Instruction Address) : Prop where
  on : n.isBoundOn i = true → g.StepsOn k n.address
  jumps : ∀ next target, g.method.code.next? n.address = some next → Constants.BoundFor n next i target →
    g.GoesTo k target

/-- All paths have been explored to their ends, and all executions have gone where they were certain to go. -/
structure Guided (g : Graph) : Prop where
  whole : ∀ k n, g.node? k = some n → n.truncated = false
  follows : ∀ k n i, g.node? k = some n → g.method.code.at? n.address = some i → g.Follows k n i

/-- A graph has come from another one by edits. What led to executions that are gone leads to where these led. -/
structure Revised (g g' : Graph) (label : Address → Address) (stands : Address → Option (Instruction Address)) :
    Prop where
  sifted : ∃ rank, Method.Sifted g.method.code g'.method.code label stands rank
  carried : g.Carried g' label stands
  steers : g.Steers g' label
  marks : g.Marks g'

variable {g g' g'' : Graph} {label label' : Address → Address}
  {stands stands' stands'' : Address → Option (Instruction Address)} {a b : Address} {i j : Instruction Address}
  {k : NodeId} {n n' : Node} {p : Nat}

namespace Recording

variable {c : Semantics.Context} {maxVisits : Nat} {entry : State} {s t : Supply} {log : List Performance}

/-- In the complete graph of an execution everything has gone where it was certain to go. -/
theorem guided (h : g.Recording c maxVisits entry s log t) (hDone : g.status = .completed) : g.Guided where
  whole := h.unmarked hDone
  follows k n i hn hi := by
    obtain ⟨R, hR, hRecords⟩ := h.records k n hn
    rw [h.sameMethod] at hi
    constructor
    · intro hBound
      obtain ⟨b, hNext, hLeads⟩ := Semantics.Context.leads_of_isBoundOn hi hBound hRecords.applied
      exact ⟨b, h.sameMethod ▸ hNext, h.goesTo hDone hn hR hLeads⟩
    · intro next target hNext hBound
      rw [h.sameMethod] at hNext
      have hStep := hBound.apply_eq hi (Semantics.Context.next_eq_ok_iff.mpr hNext) R.before
      rw [hRecords.applied] at hStep
      exact h.goesTo hDone hn hR (congrArg Step.successors (Except.ok.inj (Prod.mk.inj hStep).1))

end Recording

theorem Guided.decisive (h : g.Guided) (hg : g.Piled g.method.code) : Constants.Decisive g := by
  intro k a i next target hk hi hNext hDecides
  obtain ⟨n, hn, rfl⟩ := addressOf?_eq_some_iff.mp hk
  exact (h.follows k n i hn hi).jumps next target hNext (hDecides.boundFor hg hn rfl)

namespace Revised

theorem refl (hg : g.Piled g.method.code) : g.Revised g id g.method.code.at? :=
  ⟨⟨_, Method.sifted_refl _⟩, .refl hg, .refl g, .refl g⟩

theorem trans (h : g.Revised g' label stands) (h' : g'.Revised g'' label' stands') (hg : g.Piled g.method.code)
    (hStands : ∀ a, g.method.code.HasAddress a →
      ((stands a).bind fun _ => stands' (label a)) = (stands'' a).map (Instruction.mapTargets label)) :
    g.Revised g'' (label' ∘ label) stands'' where
  sifted := by
    obtain ⟨rank, hSifted⟩ := h.sifted
    obtain ⟨rank', hSifted'⟩ := h'.sifted
    exact ⟨_, hSifted.trans hSifted' hStands⟩
  carried := h.carried.trans h'.carried hg hStands
  steers := h.steers.trans h'.steers fun k hk => by
    obtain ⟨n'', hn''⟩ := isLive_iff.mp hk
    obtain ⟨n', _, hn', _⟩ := h'.carried.exists_origin hn''
    exact isLive_iff.mpr ⟨n', hn'⟩
  marks := h.marks.trans h'.marks

/-- An execution that is left is one of what stands for its instruction. -/
theorem exists_insn (h : g.Revised g' label stands) (hg : g.Piled g.method.code) (hn' : g'.node? k = some n')
    (hi' : g'.method.code.at? n'.address = some i) :
    ∃ n j, g.node? k = some n ∧ stands n.address = some j ∧ n'.address = label n.address ∧ i = j.mapTargets label := by
  obtain ⟨rank, hSifted⟩ := h.sifted
  obtain ⟨n, j, hn, hj⟩ := h.carried.exists_origin hn'
  obtain ⟨n₁, hn₁, hAddress, _⟩ := h.carried.exists_node hn hj
  obtain rfl := Option.some.inj (hn₁.symm.trans hn')
  rw [hAddress, hSifted.at?_label (hg.hasAddress hn) hj] at hi'
  exact ⟨n, j, hn, hj, hAddress, (Option.some.inj hi').symm⟩

section

variable (h : g.Revised g' label stands) (hg : g.Piled g.method.code) (hLinked : g.Linked) (hLinked' : g'.Linked)

include h hg hLinked hLinked'

/-- What has gone on to the next instruction has still done so. -/
theorem stepsOn (hk : g.addressOf? k = some a) (hj : stands a = some j) (hOn : g.StepsOn k a) :
    g'.StepsOn k (label a) := by
  obtain ⟨rank, hSifted⟩ := h.sifted
  obtain ⟨b, hNext, hGoes⟩ := hOn
  obtain ⟨n', hn', _⟩ := addressOf?_eq_some_iff.mp (h.carried.addressOf?_eq hk hj)
  have hStill := h.steers.bridges hLinked hLinked' k b (isLive_iff.mpr ⟨n', hn'⟩) hGoes
  refine ⟨label b, (hSifted.next hj hNext).resolve_right fun ⟨_, hGone⟩ => ?_, hStill⟩
  -- what it has gone on to is still there, and has not been before it
  obtain ⟨C, _, hC⟩ := hStill.reaches
  obtain ⟨x, i, hx, hi, hSame⟩ := h.carried.addressOf?_origin hC
  have hThere := hg.hasAddress_addressOf? hx
  obtain ⟨ha, hb, hLess⟩ := Code.hasAddress_of_next? hNext
  rcases Nat.lt_or_ge x b with hBefore | hAfter
  · have hFirst : x ≤ a := by
      by_contra hMore
      obtain ⟨p, hp, rfl⟩ := ha
      obtain ⟨q, hq, rfl⟩ := hThere
      obtain ⟨r, hr, hLater, rfl⟩ := Code.next?_eq_some_iff.mp hNext
      obtain rfl := Option.some.inj ((Code.indexOf?_addressAt hp).symm.trans hr)
      rw [Nat.not_le, Code.addressAt_lt_iff (Nat.le_of_lt hp) (Nat.le_of_lt hq)] at hMore
      rw [Code.addressAt_lt_iff (Nat.le_of_lt hq) (Nat.le_of_lt hLater)] at hBefore
      omega
    have hOrder := hSifted.label_le hThere.hasPlace ha.hasPlace hFirst
    have hStrict := hSifted.label_lt ha hj hb.hasPlace hLess
    exact Nat.not_le_of_lt hStrict (hSame ▸ hOrder)
  · rw [hGone x hThere hAfter] at hi
    cases hi

/-- An execution that is left has gone where what stands for its instruction is certain to go. -/
theorem follows (hn : g.node? k = some n) (hj : stands n.address = some j) (hn' : g'.node? k = some n')
    (hFollows : g.Follows k n j) : g'.Follows k n' (j.mapTargets label) := by
  obtain ⟨rank, hSifted⟩ := h.sifted
  have hk := addressOf?_eq_some_iff.mpr ⟨n, hn, rfl⟩
  obtain ⟨n₁, hn₁, hAddress, hPre, _⟩ := h.carried.exists_node hn hj
  obtain rfl := Option.some.inj (hn₁.symm.trans hn')
  constructor
  · intro hBound
    rw [Node.isBoundOn_mapTargets hPre] at hBound
    exact hAddress ▸ h.stepsOn hg hLinked hLinked' hk hj (hFollows.on hBound)
  · intro next' target' hNext' hBound
    rw [hAddress] at hNext'
    obtain ⟨next, hNext, rfl⟩ := hSifted.exists_next? (hg.hasAddress hn) hj hNext'
    obtain ⟨target, hOld, rfl⟩ := hBound.exists_mapTargets hPre
    exact h.steers.bridges hLinked hLinked' k target (isLive_iff.mpr ⟨_, hn'⟩)
      (hFollows.jumps next target hNext hOld)

/-- All executions that are left have gone where they were certain to go if this holds of what stands for their
instructions. -/
theorem guided (hWhole : ∀ k n, g.node? k = some n → n.truncated = false)
    (hFollows : ∀ k n j, g.node? k = some n → stands n.address = some j → g.Follows k n j) : g'.Guided where
  whole k n' hn' := by
    obtain ⟨n, hn, hSame⟩ := h.marks k n' hn'
    exact hSame.trans (hWhole k n hn)
  follows k n' i' hn' hi' := by
    obtain ⟨n, j, hn, hj, _, rfl⟩ := h.exists_insn hg hn' hi'
    exact h.follows hg hLinked hLinked' hn hj hn' (hFollows k n j hn hj)

/-- All executions of an instruction that is left have gone on to the next one if they had. -/
theorem goesOn (ha : g.method.code.HasAddress a) (hj : stands a = some j) (hOn : g.GoesOn a) : g'.GoesOn (label a) := by
  obtain ⟨rank, hSifted⟩ := h.sifted
  intro k hk
  obtain ⟨x, i, hx, hi, hSame⟩ := h.carried.addressOf?_origin hk
  obtain rfl := hSifted.injective (hg.hasAddress_addressOf? hx) ha hi hj hSame
  exact h.stepsOn hg hLinked hLinked' hx hj (hOn k hx)

/-- An edit that keeps the instructions before a position at their places leaves their executions alone. -/
theorem spares (hp : p ≤ g.method.code.length) (hStands : ∀ q < p, ∃ i, stands (g.method.code.addressAt q) = some i)
    (hLabel : ∀ q < p, label (g.method.code.addressAt q) = g'.method.code.addressAt q) : g.Spares g' p where
  goesOn q hq hOn := by
    obtain ⟨i, hi⟩ := hStands q hq
    have hHere := Code.hasAddress_addressAt (Nat.lt_of_lt_of_le hq hp)
    exact hLabel q hq ▸ h.goesOn hg hLinked hLinked' hHere hi hOn
  here q hq k hk := by
    obtain ⟨i, hi⟩ := hStands q hq
    exact hLabel q hq ▸ h.carried.addressOf?_eq hk hi
  pre q hq k n' hn' hHere := by
    obtain ⟨rank, hSifted⟩ := h.sifted
    obtain ⟨i, hi⟩ := hStands q hq
    obtain ⟨n, j, hn, ha, hj, hAddress, hPre⟩ := h.carried.origin hg k n' hn'
    refine ⟨n, hn, hSifted.injective ha (Code.hasAddress_addressAt (Nat.lt_of_lt_of_le hq hp)) hj hi ?_, hPre⟩
    exact hAddress.symm.trans (hHere.trans (hLabel q hq).symm)

end

/-- What is before a single edit stays as it is. -/
theorem spares_exchanged {new : Option (Instruction Address)} {code : Code} {retarget : Bool}
    (h : g.Revised g' (g.method.splice p 1 code retarget).2.label (g.method.code.exchanged p new))
    (hg : g.Piled g.method.code) (hLinked : g.Linked) (hLinked' : g'.Linked) (hp : p < g.method.code.length)
    (hMethod : g'.method = (g.method.splice p 1 code retarget).1) : g.Spares g' p := by
  refine h.spares hg hLinked hLinked' (Nat.le_of_lt hp) (fun q hq => ?_) fun q hq => ?_
  · have hLess := Nat.lt_trans hq hp
    exact ⟨_, (Code.exchanged_addressAt hp hLess (Nat.ne_of_lt hq)).trans (List.getElem?_eq_getElem hLess)⟩
  · rw [hMethod, Method.splice_label_addressAt (Nat.lt_trans hq hp), Method.landing_of_le (Nat.le_of_lt hq)]

end Revised

namespace Reexecuted

theorem stepsOn_iff (h : g.Reexecuted g') : g'.StepsOn k a ↔ g.StepsOn k a := by
  simp only [StepsOn, h.method, h.goesTo_iff]

theorem follows (h : g.Reexecuted g') (hAddress : n'.address = n.address) (hPre : n'.pre = n.pre)
    (hFollows : g.Follows k n i) : g'.Follows k n' i where
  on hBound := by
    rw [hAddress, h.stepsOn_iff]
    exact hFollows.on (Node.isBoundOn_congr hPre ▸ hBound)
  jumps next target hNext hBound := by
    have hId : Constants.BoundFor n' (id next) (i.mapTargets id) target := by rwa [Instruction.mapTargets_id]
    obtain ⟨t, hOld, rfl⟩ := hId.exists_mapTargets hPre
    rw [hAddress, h.method] at hNext
    exact h.goesTo_iff.mpr (hFollows.jumps next t hNext hOld)

end Reexecuted

section Reapply

variable {m : Machine} {ids : List NodeId}

/-- An execution that leads where it led has gone on to the next instruction if it is bound to do so. -/
theorem stepsOn_of_reapplyNode (hLinked : g.Linked) (hi : g.method.code.at? a = some i) (hn : g.node? k = some n)
    (hWhole : n.truncated = false) (hBound : n.isBoundOn i = true) (h : (reapplyNode m a k g).1 = .ok true) :
    g.StepsOn k a := by
  unfold reapplyNode at h
  rw [hn] at h
  dsimp only at h
  rcases hStep : (m.context g.method 0).apply a n.pre ⟨g.heap, m.limits.maxNodes⟩ with ⟨e | step, s⟩
  · rw [hStep] at h
    cases h
  · rw [hStep] at h
    dsimp only at h
    obtain ⟨b, hNext, hLeads⟩ := Semantics.Context.leads_of_isBoundOn hi hBound hStep
    have hSame := Except.ok.inj h
    rw [hWhole, hLeads, Bool.false_or, decide_eq_true_eq] at hSame
    have hMem (x : Address) : g.Reaches k x ↔ x = b := by
      have hBoth := congrArg (x ∈ ·) hSame
      simp only [mem_ascending, List.map_cons, List.map_nil, List.mem_singleton, eq_iff_iff] at hBoth
      rw [← hBoth, List.mem_filterMap]
      exact exists_congr fun c => and_congr (mem_children hn) Iff.rfl
    exact ⟨b, hNext, hLinked.goesTo_iff.mpr ⟨(hMem b).mpr rfl, fun x hx => (hMem x).mp hx⟩⟩

/-- If all executions lead where they led, they have gone on to the next instruction if they are bound to do so. -/
theorem stepsOn_of_reapplyNodes (hg : g.Consistent) (hi : g.method.code.at? a = some i)
    (h : (reapplyNodes m a ids g).1 = .ok true) (hk : k ∈ ids) (hn : g.node? k = some n)
    (hWhole : n.truncated = false) (hBound : n.isBoundOn i = true) : g.StepsOn k a := by
  induction ids generalizing g n with
  | nil => cases hk
  | cons id ids ih =>
      have hFirst := (reapplyNode_spec m a id hg).1
      rw [reapplyNodes, stateful_bind_apply] at h
      rcases hNode : reapplyNode m a id g with ⟨e | agrees, g'⟩
      · rw [hNode] at h
        cases h
      · rw [hNode] at h hFirst
        dsimp only at h hFirst
        cases agrees with
        | false => cases h
        | true =>
            rcases List.mem_cons.mp hk with rfl | hLater
            · exact stepsOn_of_reapplyNode hg.linked hi hn hWhole hBound (congrArg Prod.fst hNode)
            · obtain ⟨n', hn', _⟩ := addressOf?_eq_some_iff.mp
                ((hFirst.addressOf?_eq k).trans (addressOf?_eq_some_iff.mpr ⟨n, hn, rfl⟩))
              obtain ⟨n₁, hn₁, hAddress, hPre, hTruncated⟩ := hFirst.exists_node hn'
              obtain rfl := Option.some.inj (hn₁.symm.trans hn)
              rw [← hFirst.stepsOn_iff]
              exact ih (hFirst.consistent hg) (hFirst.method ▸ hi) h hLater hn' (hTruncated.trans hWhole)
                ((Node.isBoundOn_congr hPre).trans hBound)

/-- Loading a literal in place of an instruction leaves everything where it was certain to go, if the load leads where
the instruction led. -/
theorem Guided.loaded (hGuided : g.Guided) (hg : g.Consistent) (hg' : g'.Consistent) {dst : Register} {l : Literal}
    (h : g.Revised g' label (g.method.code.exchanged p (some (.const dst l))))
    (hAgrees : (reapply m (label (g.method.code.addressAt p)) g').1 = .ok true) (hSame : g'.Reexecuted g'') :
    g''.Guided where
  whole k n'' hn'' := by
    obtain ⟨n', hn', _, _, hLater⟩ := hSame.exists_node hn''
    obtain ⟨n, hn, hFirst⟩ := h.marks k n' hn'
    exact (hLater.trans hFirst).trans (hGuided.whole k n hn)
  follows k n'' i hn'' hi := by
    obtain ⟨n', hn', hAddress, hPre, _⟩ := hSame.exists_node hn''
    rw [hAddress, hSame.method] at hi
    refine hSame.follows hAddress hPre ?_
    obtain ⟨n, j, hn, hj, hPlace, rfl⟩ := h.exists_insn hg.piled hn' hi
    by_cases hHere : n.address = g.method.code.addressAt p
    · rw [hHere, Code.exchanged_here] at hj
      obtain rfl := Option.some.inj hj
      refine ⟨fun _ => ?_, fun _ _ _ hBound => nomatch hBound⟩
      obtain ⟨n₁, hn₁, hWhole⟩ := h.marks k n' hn'
      rw [hHere] at hPlace
      rw [hPlace] at hi ⊢
      exact stepsOn_of_reapplyNodes hg' hi hAgrees ((hg'.piled.mem_iff _ _).mpr ⟨n', hn', hPlace⟩) hn'
        (hWhole.trans (hGuided.whole k n₁ hn₁)) rfl
    · refine h.follows hg.piled hg.linked hg'.linked hn hj hn' (hGuided.follows k n j hn ?_)
      rwa [Code.exchanged_elsewhere hHere] at hj

end Reapply

section

variable (hg : g.Piled g.method.code) (hp : p < g.method.code.length)

include hg hp

theorem revised_removeAt (hLinked : g.Linked) (hOn : g.GoesOn (g.method.code.addressAt p)) :
    g.Revised (g.removeAt p) (g.method.splice p 1 [] false).2.label (g.method.code.exchanged p none) where
  sifted := ⟨_, (removeAt_method hg hp).1 ▸ Method.sifted_without hp⟩
  carried := carried_removeAt hg hp
  steers := steers_removeAt hg hp hLinked hOn
  marks := marks_removeAt hg hp

theorem revised_replaced (new : Instruction Address) :
    g.Revised ((g.withMethod (g.method.splice p 1 [new] true).1).relocate
        ((g.method.splice p 1 [new] true).2.followLabel (g.method.code.addressAt p)))
      (g.method.splice p 1 [new] true).2.label (g.method.code.exchanged p (some new)) where
  sifted := by
    have hMoves := Method.replacement_moves hp (List.cons_ne_nil new [])
    exact ⟨_, (method_relocate hg hMoves fun _ _ _ => Code.isSome_replacing).1 ▸ (Method.ranked_replaced hp new).sifted⟩
  carried := carried_replaced hg hp new
  steers := steers_replaced hg hp new
  marks := marks_replaced hg hp new

end

end Graph

end Dalvik
