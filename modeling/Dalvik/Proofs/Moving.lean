import Dalvik.Proofs.Rewriting
import Dalvik.Proofs.Routing

/-!
Methods in which instructions have been replaced and removed. What is still there has moved together with
all the places that are jumped to, and is handled by the same handlers as before.
-/

namespace Dalvik

namespace Code

variable {code : Code} {a : Address}

theorem exists_at? (h : code.HasAddress a) : ∃ i, code.at? a = some i := by
  obtain ⟨n, hn, rfl⟩ := h
  exact ⟨_, at?_addressAt (List.getElem?_eq_getElem hn)⟩

theorem hasAddress_of_next? {b : Address} (h : code.next? a = some b) :
    code.HasAddress a ∧ code.HasAddress b ∧ a < b := by
  obtain ⟨n, hn, hLess, rfl⟩ := next?_eq_some_iff.mp h
  obtain ⟨hBound, rfl⟩ := indexOf?_eq_some_iff.mp hn
  exact ⟨⟨n, hBound, rfl⟩, ⟨n + 1, hLess, rfl⟩, addressAt_lt (Nat.lt_succ_self n) (Nat.le_of_lt hLess)⟩

theorem lt_size_of_hasAddress (h : code.HasAddress a) : a < code.size := by
  obtain ⟨n, hn, rfl⟩ := h
  rw [← addressAt_length]
  exact addressAt_lt hn (Nat.le_refl _)

/-- The instructions of a body by their addresses, with another one at a position, or none. -/
def exchanged (code : Code) (p : Nat) (new : Option (Instruction Address)) (a : Address) :
    Option (Instruction Address) :=
  if a = code.addressAt p then new else code.at? a

variable {p : Nat} {new : Option (Instruction Address)}

theorem exchanged_here : code.exchanged p new (code.addressAt p) = new := if_pos rfl

theorem exchanged_elsewhere (h : a ≠ code.addressAt p) : code.exchanged p new a = code.at? a :=
  if_neg h

theorem exchanged_addressAt {n : Nat} (hp : p < code.length) (hn : n < code.length) (hOther : n ≠ p) :
    code.exchanged p new (code.addressAt n) = code[n]? := by
  have hElsewhere : code.addressAt n ≠ code.addressAt p := fun hSame =>
    hOther (addressAt_injective (Nat.le_of_lt hn) (Nat.le_of_lt hp) hSame)
  rw [exchanged_elsewhere hElsewhere, List.getElem?_eq_getElem hn]
  exact at?_addressAt (List.getElem?_eq_getElem hn)

end Code

namespace Method

/-- A method has come from another one by replacing instructions and removing some of them. `label` says
where the places of the old method are in the new one, and `stands` what stands for an instruction, which
is nothing if it has been removed. What stands there jumps to places of the old method. -/
structure Moved (m m' : Method) (label : Address → Address)
    (stands : Address → Option (Instruction Address)) : Prop where
  insn : ∀ a j, m.code.HasAddress a → stands a = some j →
    m'.code.at? (label a) = some (j.mapTargets label)
  next : ∀ a j, m.code.HasAddress a → stands a = some j →
    m'.code.next? (label a) = (m.code.next? a).map label
  gone : ∀ a, m.code.HasAddress a → stands a = none →
    ∃ b, m.code.next? a = some b ∧ label b = label a
  mono : ∀ x y, m.code.HasPlace x → m.code.HasPlace y → x ≤ y → label x ≤ label y
  strict : ∀ x y j, m.code.HasAddress x → stands x = some j → m.code.HasPlace y → x < y →
    label x < label y
  place : ∀ x, m.code.HasPlace x → m'.code.HasPlace (label x)
  zero : label 0 = 0
  stop : label m.stop = m'.stop
  handlers : ∀ a j, m.code.HasAddress a → stands a = some j →
    m'.handlersAt (label a) = (m.handlersAt a).map (Handler.retarget label)
  bounded : m'.Bounded

variable {m m' m'' : Method} {label label' : Address → Address}
  {stands stands' : Address → Option (Instruction Address)}

/-- What is left of two instructions at different addresses is at different addresses. -/
theorem Moved.injective (h : m.Moved m' label stands) {a b : Address} {i j : Instruction Address}
    (ha : m.code.HasAddress a) (hb : m.code.HasAddress b) (hi : stands a = some i)
    (hj : stands b = some j) (hSame : label a = label b) : a = b := by
  rcases Nat.lt_trichotomy a b with hLess | hHere | hMore
  · have hApart := h.strict a b i ha hi hb.hasPlace hLess
    rw [hSame] at hApart
    exact absurd hApart (Nat.lt_irrefl _)
  · exact hHere
  · have hApart := h.strict b a j hb hj ha.hasPlace hMore
    rw [hSame] at hApart
    exact absurd hApart (Nat.lt_irrefl _)

theorem Moved.eq_nil (h : m.Moved m' label stands) (hEmpty : m.code = []) : m'.code = [] := by
  have hStop : m'.code.addressAt m'.code.length = m'.code.addressAt 0 := by
    rw [Code.addressAt_length, Code.addressAt_zero, ← h.zero]
    refine h.stop.symm.trans (congrArg label ?_)
    rw [Method.stop, hEmpty]
    rfl
  exact List.eq_nil_of_length_eq_zero (Code.addressAt_injective (Nat.le_refl _) (Nat.zero_le _) hStop)

/-- If the blocks cover a place as they covered another one before, what handles there is the same. -/
theorem handlersAt_relocate {r : Relocation} {a a' : Address}
    (hTries : m'.tries = (m.tries.map (TryBlock.relocate r)).filter fun b => b.start < b.stop)
    (hCovers : ∀ b ∈ m.tries, (b.relocate r).covers a' = b.covers a) :
    m'.handlersAt a' = (m.handlersAt a).map (Handler.retarget r.label) := by
  unfold handlersAt
  rw [hTries, List.filter_filter]
  generalize m.tries = tries at hCovers
  clear hTries
  induction tries with
  | nil => rfl
  | cons b tries ih =>
      have hRest := ih fun b hb => hCovers b (.tail _ hb)
      have hFirst := hCovers b (.head _)
      by_cases hHere : b.covers a = true
      · have hMoved : (b.relocate r).covers a' = true := hFirst.trans hHere
        have hFull : (b.relocate r).start < (b.relocate r).stop := by
          simp only [TryBlock.covers, Bool.and_eq_true, decide_eq_true_eq] at hMoved
          exact Nat.lt_of_le_of_lt hMoved.1 hMoved.2
        rw [List.map_cons, List.filter_cons_of_pos (by simp [hMoved, hFull]), List.flatMap_cons, hRest,
          List.filter_cons_of_pos (p := fun b : TryBlock => b.covers a) hHere, List.flatMap_cons,
          List.map_append]
        rfl
      · have hMoved : (b.relocate r).covers a' ≠ true := by rwa [hFirst]
        rw [List.map_cons, List.filter_cons_of_neg (by simp [hMoved]), hRest,
          List.filter_cons_of_neg (p := fun b : TryBlock => b.covers a) hHere]

/-- `rank` says at which position of the new body what is left from a position of the old one on begins.
What is kept takes up one position, and what is removed none. -/
structure Sifted (code code' : Code) (label : Address → Address)
    (stands : Address → Option (Instruction Address)) (rank : Nat → Nat) : Prop where
  place : ∀ n ≤ code.length, label (code.addressAt n) = code'.addressAt (rank n)
  first : rank 0 = 0
  last : rank code.length = code'.length
  kept : ∀ n < code.length, ∀ j, stands (code.addressAt n) = some j →
    rank (n + 1) = rank n + 1 ∧ code'[rank n]? = some (j.mapTargets label)
  gone : ∀ n < code.length, stands (code.addressAt n) = none → rank (n + 1) = rank n

namespace Sifted

variable {code code' : Code} {rank : Nat → Nat}

theorem mono (h : Sifted code code' label stands rank) {k n : Nat} (hk : k ≤ n)
    (hn : n ≤ code.length) : rank k ≤ rank n := by
  induction n with
  | zero => rw [Nat.le_zero.mp hk]
  | succ n ih =>
      have hStep : rank n ≤ rank (n + 1) := by
        cases hStands : stands (code.addressAt n) with
        | some j => exact (h.kept n hn j hStands).1 ▸ Nat.le_succ _
        | none => exact Nat.le_of_eq (h.gone n hn hStands).symm
      rcases Nat.lt_or_eq_of_le hk with hLess | rfl
      · exact Nat.le_trans (ih (Nat.le_of_lt_succ hLess) (Nat.le_of_succ_le hn)) hStep
      · exact Nat.le_refl _

theorem bound (h : Sifted code code' label stands rank) {n : Nat} (hn : n ≤ code.length) :
    rank n ≤ code'.length :=
  h.last ▸ h.mono hn (Nat.le_refl _)

theorem hasPlace (h : Sifted code code' label stands rank) {x : Address} (hx : code.HasPlace x) :
    code'.HasPlace (label x) := by
  obtain ⟨n, hn, rfl⟩ := hx
  exact ⟨rank n, h.bound hn, (h.place n hn).symm⟩

theorem label_le (h : Sifted code code' label stands rank) {x y : Address} (hx : code.HasPlace x)
    (hy : code.HasPlace y) (hLess : x ≤ y) : label x ≤ label y := by
  obtain ⟨k, hk, rfl⟩ := hx
  obtain ⟨n, hn, rfl⟩ := hy
  rw [h.place k hk, h.place n hn, Code.addressAt_le_iff (h.bound hk) (h.bound hn)]
  exact h.mono ((Code.addressAt_le_iff hk hn).mp hLess) hn

theorem label_lt (h : Sifted code code' label stands rank) {x y : Address} {j : Instruction Address}
    (hx : code.HasAddress x) (hj : stands x = some j) (hy : code.HasPlace y) (hLess : x < y) :
    label x < label y := by
  obtain ⟨k, hk, rfl⟩ := hx
  obtain ⟨n, hn, rfl⟩ := hy
  have hBefore := Nat.le_of_lt hk
  rw [h.place k hBefore, h.place n hn, Code.addressAt_lt_iff (h.bound hBefore) (h.bound hn)]
  have hMore := h.mono (Nat.succ_le_of_lt ((Code.addressAt_lt_iff hBefore hn).mp hLess)) hn
  rw [Nat.succ_eq_add_one, (h.kept k hk j hj).1] at hMore
  exact hMore

/-- What is left of two instructions at different addresses is at different addresses. -/
theorem injective (h : Sifted code code' label stands rank) {x y : Address} {i j : Instruction Address}
    (hx : code.HasAddress x) (hy : code.HasAddress y) (hi : stands x = some i) (hj : stands y = some j)
    (hSame : label x = label y) : x = y := by
  rcases Nat.lt_trichotomy x y with hLess | hHere | hMore
  · exact absurd hSame (Nat.ne_of_lt (h.label_lt hx hi hy.hasPlace hLess))
  · exact hHere
  · exact absurd hSame (Nat.ne_of_gt (h.label_lt hy hj hx.hasPlace hMore))

/-- Blocks cover what is left of the instructions that they covered. -/
theorem covers_relocate {r : Relocation} (h : Sifted code code' r.label stands rank) {b : TryBlock}
    (hStart : code.HasPlace b.start) (hStop : code.HasPlace b.stop) {a : Address}
    {j : Instruction Address} (ha : code.HasAddress a) (hj : stands a = some j) :
    (b.relocate r).covers (r.label a) = b.covers a := by
  unfold TryBlock.covers TryBlock.relocate
  rw [Bool.eq_iff_iff]
  simp only [Bool.and_eq_true, decide_eq_true_eq]
  constructor
  · rintro ⟨hFrom, hUntil⟩
    constructor
    · by_contra hAfter
      exact Nat.not_le_of_lt (h.label_lt ha hj hStart (Nat.lt_of_not_le hAfter)) hFrom
    · by_contra hBefore
      exact Nat.not_lt_of_le (h.label_le hStop ha.hasPlace (Nat.le_of_not_lt hBefore)) hUntil
  · rintro ⟨hFrom, hUntil⟩
    exact ⟨h.label_le hStart ha.hasPlace hFrom, h.label_lt ha hj hStop hUntil⟩

end Sifted

/-- `rank` says at which position of the new body what is left from a position of the old one on begins.
What is kept takes up one position, and what is removed, which is never the last instruction, none. -/
structure Ranked (code code' : Code) (label : Address → Address)
    (stands : Address → Option (Instruction Address)) (rank : Nat → Nat) : Prop where
  place : ∀ n ≤ code.length, label (code.addressAt n) = code'.addressAt (rank n)
  first : rank 0 = 0
  last : rank code.length = code'.length
  kept : ∀ n < code.length, ∀ j, stands (code.addressAt n) = some j →
    rank (n + 1) = rank n + 1 ∧ code'[rank n]? = some (j.mapTargets label)
  gone : ∀ n < code.length, stands (code.addressAt n) = none →
    n + 1 < code.length ∧ rank (n + 1) = rank n

namespace Ranked

variable {code code' : Code} {rank : Nat → Nat}

theorem sifted (h : Ranked code code' label stands rank) : Sifted code code' label stands rank :=
  ⟨h.place, h.first, h.last, h.kept, fun n hn hNone => (h.gone n hn hNone).2⟩

/-- The last instruction is kept, so that what follows another one is never the end. -/
theorem rank_lt (h : Ranked code code' label stands rank) {n : Nat} (hn : n < code.length) :
    rank n < code'.length := by
  have hLast : code.length - 1 < code.length := by omega
  have hKept : rank (code.length - 1) < code'.length := by
    cases hStands : stands (code.addressAt (code.length - 1)) with
    | some j => exact (List.getElem?_eq_some_iff.mp (h.kept _ hLast j hStands).2).1
    | none =>
        have hMore := (h.gone _ hLast hStands).1
        omega
  exact Nat.lt_of_le_of_lt (h.sifted.mono (Nat.le_sub_one_of_lt hn) (Nat.le_of_lt hLast)) hKept

theorem next? (h : Ranked code code' label stands rank) {a : Address} {j : Instruction Address}
    (ha : code.HasAddress a) (hj : stands a = some j) :
    code'.next? (label a) = (code.next? a).map label := by
  obtain ⟨n, hn, rfl⟩ := ha
  have hNext := (h.kept n hn j hj).1
  rw [h.place n (Nat.le_of_lt hn)]
  rcases Nat.lt_or_eq_of_le (Nat.succ_le_of_lt hn) with hMore | hEnd
  · have hThere : rank n + 1 < code'.length := hNext ▸ h.rank_lt hMore
    rw [Code.next?_addressAt hThere, Code.next?_addressAt hMore, Option.map_some, h.place _ hn, hNext]
  · have hThere : code'.length = rank n + 1 := by rw [← h.last, ← hEnd, hNext]
    rw [Code.next?_addressAt_last hEnd.symm, Code.next?_addressAt_last hThere]
    rfl

end Ranked

/-- The ranks of positions among those that are kept tell where everything goes. -/
theorem Moved.of_ranked {r : Relocation} {rank : Nat → Nat}
    (h : Ranked m.code m'.code r.label stands rank)
    (hTries : m'.tries = (m.tries.map (TryBlock.relocate r)).filter fun b => b.start < b.stop)
    (hBounded : m.Bounded) : m.Moved m' r.label stands where
  insn a j ha hj := by
    obtain ⟨n, hn, rfl⟩ := ha
    rw [h.place n (Nat.le_of_lt hn)]
    exact Code.at?_addressAt (h.kept n hn j hj).2
  next a j ha hj := h.next? ha hj
  gone a ha hNone := by
    obtain ⟨n, hn, rfl⟩ := ha
    obtain ⟨hLess, hSame⟩ := h.gone n hn hNone
    exact ⟨_, Code.next?_addressAt hLess, by rw [h.place (n + 1) hn, h.place n (Nat.le_of_lt hn), hSame]⟩
  mono x y hx hy hLess := h.sifted.label_le hx hy hLess
  strict x y j hx hj hy hLess := h.sifted.label_lt hx hj hy hLess
  place x hx := h.sifted.hasPlace hx
  zero := by
    have hStart := h.place 0 (Nat.zero_le _)
    rwa [h.first, Code.addressAt_zero, Code.addressAt_zero] at hStart
  stop := by
    have hEnd := h.place m.code.length (Nat.le_refl _)
    rwa [h.last, Code.addressAt_length, Code.addressAt_length] at hEnd
  handlers a j ha hj := handlersAt_relocate hTries fun b hb =>
    h.sifted.covers_relocate (hBounded b hb).1 (hBounded b hb).2 ha hj
  bounded b hb := by
    rw [hTries] at hb
    obtain ⟨old, hOld, rfl⟩ := List.mem_map.mp (List.mem_filter.mp hb).1
    exact ⟨h.sifted.hasPlace (hBounded old hOld).1, h.sifted.hasPlace (hBounded old hOld).2⟩

theorem Moved.refl (hBounded : m.Bounded) : m.Moved m id m.code.at? where
  insn a j _ hj := by rw [Instruction.mapTargets_id]; exact hj
  next a j _ _ := by simp
  gone a ha hNone := by
    obtain ⟨i, hi⟩ := Code.exists_at? ha
    rw [hi] at hNone
    cases hNone
  mono x y _ _ hLess := hLess
  strict x y j _ _ _ hLess := hLess
  place x hx := hx
  zero := rfl
  stop := rfl
  handlers a j _ _ := (List.map_id _).symm
  bounded := hBounded

/-- After two edits, what the second one has put in place of something stands for what the first one had
put something in place of. -/
theorem Moved.trans {stands'' : Address → Option (Instruction Address)} (h : m.Moved m' label stands)
    (h' : m'.Moved m'' label' stands')
    (hStands : ∀ a, m.code.HasAddress a →
      ((stands a).bind fun _ => stands' (label a)) = (stands'' a).map (Instruction.mapTargets label)) :
    m.Moved m'' (label' ∘ label) stands'' := by
  -- what is left in the end was left in between, where it had come from the same place
  have hBetween {a : Address} (ha : m.code.HasAddress a) {k : Instruction Address}
      (hk : stands'' a = some k) :
      ∃ j, stands a = some j ∧ stands' (label a) = some (k.mapTargets label) ∧
        m'.code.HasAddress (label a) := by
    have hBoth := hStands a ha
    rw [hk] at hBoth
    obtain ⟨j, hj, hThere⟩ := Option.bind_eq_some_iff.mp hBoth
    exact ⟨j, hj, hThere, Code.hasAddress_of_at? (h.insn a j ha hj)⟩
  refine ⟨fun a k ha hk => ?_, fun a k ha hk => ?_, fun a ha hNone => ?_, fun x y hx hy hLess => ?_,
    fun x y k hx hk hy hLess => ?_, fun x hx => h'.place _ (h.place x hx), ?_, ?_,
    fun a k ha hk => ?_, h'.bounded⟩
  · obtain ⟨j, hj, hThere, hHere⟩ := hBetween ha hk
    rw [Function.comp_apply, h'.insn _ _ hHere hThere, Instruction.mapTargets_mapTargets]
  · obtain ⟨j, hj, hThere, hHere⟩ := hBetween ha hk
    rw [Function.comp_apply, h'.next _ _ hHere hThere, h.next a j ha hj, Option.map_map]
  · cases hj : stands a with
    | none =>
        obtain ⟨b, hb, hSame⟩ := h.gone a ha hj
        exact ⟨b, hb, congrArg label' hSame⟩
    | some j =>
        have hBoth := hStands a ha
        rw [hj, hNone] at hBoth
        obtain ⟨b', hb', hSame⟩ := h'.gone _ (Code.hasAddress_of_at? (h.insn a j ha hj)) hBoth
        rw [h.next a j ha hj] at hb'
        obtain ⟨b, hb, rfl⟩ := Option.map_eq_some_iff.mp hb'
        exact ⟨b, hb, hSame⟩
  · exact h'.mono _ _ (h.place x hx) (h.place y hy) (h.mono x y hx hy hLess)
  · obtain ⟨j, hj, hThere, hHere⟩ := hBetween hx hk
    exact h'.strict _ _ _ hHere hThere (h.place y hy) (h.strict x y j hx hj hy hLess)
  · rw [Function.comp_apply, h.zero, h'.zero]
  · rw [Function.comp_apply, h.stop, h'.stop]
  · obtain ⟨j, hj, hThere, hHere⟩ := hBetween ha hk
    rw [Function.comp_apply, h'.handlers _ _ hHere hThere, h.handlers a j ha hj, List.map_map]
    rfl

theorem ranked_replaced {p : Nat} (hp : p < m.code.length) (new : Instruction Address) :
    Ranked m.code (m.splice p 1 [new] true).1.code (m.splice p 1 [new] true).2.label
      (m.code.exchanged p (some new)) fun n => n := by
  have hLength : (m.splice p 1 [new] true).1.code.length = m.code.length := by
    rw [splice_length, Code.length_spliced hp]
    simp
    omega
  refine ⟨fun n hn => ?_, rfl, hLength.symm, fun n hn j hj => ⟨rfl, ?_⟩, fun n hn hNone => ?_⟩
  · rcases Nat.lt_or_eq_of_le hn with hLess | rfl
    · rw [splice_label_addressAt hLess]
      congr 1
      by_cases hHere : n = p
      · simp [Code.landing, hHere]
      · unfold Code.landing Code.survivor?
        rw [if_neg (by simp [hHere]), List.length_singleton]
        split
        · rfl
        · rw [if_neg (by omega), Option.getD_some]
          omega
    · rw [splice_label_stop, hLength]
  · rw [splice_code, List.getElem?_map]
    by_cases hHere : n = p
    · subst hHere
      rw [Code.exchanged_here] at hj
      have hFirst : (m.code.spliced n 1 [new])[n + 0]? = [new][0]? :=
        Code.spliced_getElem?_inserted hp (Nat.succ_pos 0)
      rw [Nat.add_zero] at hFirst
      rw [hFirst, ← Option.some.inj hj]
      rfl
    · rw [Code.exchanged_addressAt hp hn hHere] at hj
      rw [Code.spliced_getElem?_survivor hp (i := n), hj]
      · rfl
      · rw [Code.survivor?_eq_some_iff, List.length_singleton]
        omega
  · by_cases hHere : n = p
    · rw [hHere, Code.exchanged_here] at hNone
      cases hNone
    · rw [Code.exchanged_addressAt hp hn hHere, List.getElem?_eq_getElem hn] at hNone
      cases hNone

/-- An instruction has been replaced by another one. -/
theorem moved_replaced (hBounded : m.Bounded) {p : Nat} (hp : p < m.code.length)
    (new : Instruction Address) :
    m.Moved (m.splice p 1 [new] true).1 (m.splice p 1 [new] true).2.label
      (m.code.exchanged p (some new)) :=
  .of_ranked (ranked_replaced hp new) rfl hBounded

/-- Only the instruction at a position is gone. -/
theorem eq_of_exchanged_none {p n : Nat} (hp : p < m.code.length) (hn : n < m.code.length)
    (hNone : m.code.exchanged p none (m.code.addressAt n) = none) : n = p := by
  by_contra hOther
  rw [Code.exchanged_addressAt hp hn hOther, List.getElem?_eq_getElem hn] at hNone
  cases hNone

theorem sifted_without {p : Nat} (hp : p < m.code.length) :
    Sifted m.code (m.without p).code (m.splice p 1 [] false).2.label (m.code.exchanged p none)
      fun n => if n ≤ p then n else n - 1 := by
  have hLength := without_length hp
  refine ⟨fun n hn => ?_, if_pos (Nat.zero_le p), ?_, fun n hn j hj => ?_, fun n hn hNone => ?_⟩
  · rcases Nat.lt_or_eq_of_le hn with hLess | rfl
    · exact label_without hLess
    · rw [if_neg (by omega), ← hLength]
      exact splice_label_stop
  · rw [if_neg (by omega), hLength]
  · have hOther : n ≠ p := by
      rintro rfl
      rw [Code.exchanged_here] at hj
      cases hj
    rw [Code.exchanged_addressAt hp hn hOther] at hj
    constructor
    · split <;> split <;> omega
    · rw [without_getElem? hp]
      split
      · rw [if_pos (by omega), hj]
        rfl
      · rw [if_neg (by omega), show n - 1 + 1 = n by omega, hj]
        rfl
  · obtain rfl := eq_of_exchanged_none hp hn hNone
    rw [if_neg (by omega), if_pos (Nat.le_refl n)]
    omega

theorem ranked_without {p : Nat} (hp : p + 1 < m.code.length) :
    Ranked m.code (m.without p).code (m.splice p 1 [] false).2.label (m.code.exchanged p none)
      fun n => if n ≤ p then n else n - 1 := by
  have hBound : p < m.code.length := Nat.lt_of_succ_lt hp
  have hSifted := sifted_without hBound
  refine ⟨hSifted.place, hSifted.first, hSifted.last, hSifted.kept, fun n hn hNone => ?_⟩
  obtain rfl := eq_of_exchanged_none hBound hn hNone
  exact ⟨hp, hSifted.gone n hn hNone⟩

/-- An instruction that is not the last one has been removed. -/
theorem moved_without (hBounded : m.Bounded) {p : Nat} (hp : p + 1 < m.code.length) :
    m.Moved (m.without p) (m.splice p 1 [] false).2.label (m.code.exchanged p none) :=
  .of_ranked (ranked_without hp) rfl hBounded

theorem landing_of_le {p added q : Nat} {retarget : Bool} (hq : q ≤ p) :
    Code.landing p 1 added retarget q = q := by
  unfold Code.landing Code.survivor?
  split
  · rename_i hHere
    simp only [Bool.and_eq_true, decide_eq_true_eq] at hHere
    exact hHere.1.symm
  · split
    · rfl
    · rw [if_pos (by omega), Option.getD_none]
      omega

/-- Edits at a position of a method and after it have left alone what is before that. `stands` says what stands for an
instruction, which is nothing if it has been removed. -/
structure LeavesBefore (m m' : Method) (label : Address → Address) (stands : Address → Option (Instruction Address))
    (bound : Nat) : Prop where
  edited : m.EditedFrom m' label bound
  before : ∀ q ≤ bound, label (m.code.addressAt q) = m.code.addressAt q
  untouched : ∀ q < bound, stands (m.code.addressAt q) = m.code[q]?

namespace LeavesBefore

variable {bound p : Nat} {i : Instruction Address}

theorem refl (m : Method) : m.LeavesBefore m id m.code.at? m.code.length where
  edited := .refl _
  before _ _ := rfl
  untouched q hq := by
    rw [List.getElem?_eq_getElem hq]
    exact Code.at?_addressAt (List.getElem?_eq_getElem hq)

/-- What is before the edits is where it was. -/
theorem place (h : m.LeavesBefore m' label stands bound) {q : Nat} (hq : q ≤ bound) :
    label (m.code.addressAt q) = m'.code.addressAt q :=
  (h.before q hq).trans (h.edited.address q hq).symm

/-- What another edit has exchanged at a place before all others is exchanged for the first method. -/
theorem bind_exchanged (h : m.LeavesBefore m' label stands bound)
    (hInsn : ∀ a j, m.code.HasAddress a → stands a = some j → m'.code.at? (label a) = some (j.mapTargets label))
    (hInjective : ∀ {a b i j}, m.code.HasAddress a → m.code.HasAddress b → stands a = some i →
      stands b = some j → label a = label b → a = b)
    (hp : p < bound) (hBound : p < m.code.length) (new : Option (Instruction Address)) {a : Address}
    (ha : m.code.HasAddress a) :
    ((stands a).bind fun _ => m'.code.exchanged p (new.map (Instruction.mapTargets label)) (label a)) =
      (Function.update stands (m.code.addressAt p) new a).map (Instruction.mapTargets label) := by
  have hHere : stands (m.code.addressAt p) = some m.code[p] :=
    (h.untouched p hp).trans (List.getElem?_eq_getElem hBound)
  have hPlace := h.place (Nat.le_of_lt hp)
  by_cases hSame : a = m.code.addressAt p
  · rw [hSame, hHere, Option.bind_some, hPlace, Code.exchanged_here, Function.update_self]
  · rw [Function.update_of_ne hSame]
    cases hj : stands a with
    | none => rfl
    | some j =>
        have hOther : label a ≠ m'.code.addressAt p := by
          rw [← hPlace]
          exact fun hBoth => hSame (hInjective ha (Code.hasAddress_addressAt hBound) hj hHere hBoth)
        rw [Option.bind_some, Code.exchanged_elsewhere hOther, hInsn a j ha hj]
        rfl

/-- The next edit is before all others. `new` is what it puts in place of the instruction. -/
theorem step (h : m.LeavesBefore m' label stands bound) (hp : p < bound) (hBound : p < m.code.length) {code : Code}
    {retarget : Bool} (new : Option (Instruction Address)) (hMethod : m'' = (m'.splice p 1 code retarget).1) :
    m.LeavesBefore m'' ((m'.splice p 1 code retarget).2.label ∘ label)
      (Function.update stands (m.code.addressAt p) new) p := by
  obtain ⟨_, hNow⟩ := h.edited.found hp (List.getElem?_eq_getElem hBound)
  have hBound' : p < m'.code.length := (List.getElem?_eq_some_iff.mp hNow).1
  have hEdited : m'.EditedFrom m'' (m'.splice p 1 code retarget).2.label p := by
    rw [hMethod]
    exact editedFrom_splice hBound' code retarget
  refine ⟨(h.edited.mono (Nat.le_of_lt hp)).trans hEdited (Nat.le_refl p), fun q hq => ?_, fun q hq => ?_⟩
  · have hOld := (h.edited.address q (by omega)).symm
    rw [Function.comp_apply, h.before q (by omega), hOld, splice_label_addressAt (by omega), landing_of_le hq,
      ← hMethod]
    exact hEdited.address q hq
  · have hOther : m.code.addressAt q ≠ m.code.addressAt p :=
      Nat.ne_of_lt (Code.addressAt_lt hq (Nat.le_of_lt hBound))
    rw [Function.update_of_ne hOther]
    exact h.untouched q (Nat.lt_trans hq hp)

end LeavesBefore

/-- A method has come from another one by edits, one after another, of which the first was behind all others. What is
before them is at its place. -/
structure Reworked (m m' : Method) (label : Address → Address) (stands : Address → Option (Instruction Address))
    (bound : Nat) : Prop where
  edited : m.EditedFrom m' label bound
  moved : m.Moved m' label stands
  before : ∀ q ≤ bound, label (m.code.addressAt q) = m.code.addressAt q
  untouched : ∀ q < bound, stands (m.code.addressAt q) = m.code[q]?

namespace Reworked

variable {bound p : Nat} {i : Instruction Address}

theorem leavesBefore (h : m.Reworked m' label stands bound) : m.LeavesBefore m' label stands bound :=
  ⟨h.edited, h.before, h.untouched⟩

theorem refl (hBounded : m.Bounded) : m.Reworked m id m.code.at? m.code.length :=
  ⟨.refl _, .refl hBounded, (LeavesBefore.refl m).before, (LeavesBefore.refl m).untouched⟩

/-- What is before the edits is where it was. -/
theorem place (h : m.Reworked m' label stands bound) {q : Nat} (hq : q ≤ bound) :
    label (m.code.addressAt q) = m'.code.addressAt q := h.leavesBefore.place hq

/-- What another edit has exchanged at a place before all others is exchanged for the first method. -/
theorem bind_exchanged (h : m.Reworked m' label stands bound) (hp : p < bound) (hBound : p < m.code.length)
    (new : Option (Instruction Address)) {a : Address} (ha : m.code.HasAddress a) :
    ((stands a).bind fun _ => m'.code.exchanged p (new.map (Instruction.mapTargets label)) (label a)) =
      (Function.update stands (m.code.addressAt p) new a).map (Instruction.mapTargets label) :=
  h.leavesBefore.bind_exchanged h.moved.insn h.moved.injective hp hBound new ha

/-- The next edit is before all others. `new` is what it puts in place of the instruction. -/
theorem step (h : m.Reworked m' label stands bound) (hp : p < bound) (hBound : p < m.code.length)
    {code : Code} {retarget : Bool} (new : Option (Instruction Address))
    (hMoved : m'.Moved m'' (m'.splice p 1 code retarget).2.label
      (m'.code.exchanged p (new.map (Instruction.mapTargets label))))
    (hMethod : m'' = (m'.splice p 1 code retarget).1) :
    m.Reworked m'' ((m'.splice p 1 code retarget).2.label ∘ label)
      (Function.update stands (m.code.addressAt p) new) p := by
  have hBefore := h.leavesBefore.step hp hBound new hMethod
  exact ⟨hBefore.edited, h.moved.trans hMoved fun a ha => h.bind_exchanged hp hBound new ha, hBefore.before,
    hBefore.untouched⟩

end Reworked

end Method

end Dalvik
