import Dalvik.Proofs.Places
import Dalvik.Proofs.Thinning
import Mathlib.Data.List.Sort
import Mathlib.Order.Bounds.Basic

/-!
Removing instructions one after another, the last one first, removes them all at once: every place goes to the first
instruction at it or after it that is kept.
-/

namespace Dalvik

namespace Relocation

variable {r r' : Relocation}

/-- Where an instruction is after two edits. -/
theorem insn?_andThen (hKeys : (r.insns.map Prod.fst).Nodup) (hSome : r.labels ≠ []) (a : Address) :
    (r.andThen r').insn? a = (r.insn? a).bind r'.insn? := by
  have hInsns : (r.andThen r').insns = r.insns.filterMap fun p => (r'.insn? p.2).map fun b => (p.1, b) := by
    rw [andThen, if_neg (by simpa using hSome)]
  have hDistinct : ∀ p ∈ r.insns, ∀ q ∈ r.insns, p.1 = q.1 → p = q := fun p hp q hq hSame =>
    List.inj_on_of_nodup_map hKeys hp hq hSame
  unfold insn?
  rw [hInsns]
  cases hFound : r.insns.lookup a with
  | some b =>
      exact Lookup.lookup_filterMap hDistinct (Lookup.mem_of_lookup hFound) fun p => r'.insn? p.2
  | none =>
      rw [Option.bind_none, Lookup.lookup_eq_none_iff_not_mem]
      intro hKey
      obtain ⟨_, hEntry, rfl⟩ := List.mem_map.mp hKey
      obtain ⟨p, hp, hMade⟩ := List.mem_filterMap.mp hEntry
      obtain ⟨b, _, rfl⟩ := Option.map_eq_some_iff.mp hMade
      exact Lookup.lookup_eq_none_iff_not_mem.mp hFound (List.mem_map.mpr ⟨p, hp, rfl⟩)

/-- What is told of instructions after two edits is told of those that it was told of after the first. -/
theorem keys_andThen (hKeys : (r.insns.map Prod.fst).Nodup) (hSome : r.labels ≠ []) :
    ((r.andThen r').insns.map Prod.fst).Nodup := by
  rw [andThen, if_neg (by simpa using hSome)]
  exact hKeys.sublist (Lookup.keys_filterMap_sublist r.insns Prod.fst fun p => r'.insn? p.2)

theorem lookup_andThen {a : Address} (ha : (r.labels.lookup a).isSome = true) :
    (r.andThen r').labels.lookup a = some (r'.label (r.label a)) := by
  obtain ⟨b, hb⟩ := Option.isSome_iff_exists.mp ha
  have hSome : r.labels ≠ [] := by
    intro hNone
    rw [hNone] at hb
    cases hb
  have hThere : r.label a = b := by rw [label, hb]; rfl
  rw [andThen, if_neg (by simpa using hSome), Lookup.lookup_map_snd, hb, hThere]
  rfl

/-- Control that goes to a place that is told of goes where the second edit sends it from there. -/
theorem label_andThen {a : Address} (ha : (r.labels.lookup a).isSome = true) :
    (r.andThen r').label a = r'.label (r.label a) := by
  rw [label, lookup_andThen ha]
  rfl

end Relocation

namespace Code

theorem addresses_eq_map (code : Code) : code.addresses = (List.range code.length).map code.addressAt := by
  apply List.ext_getElem?
  intro n
  by_cases hn : n < code.length <;> simp [addresses_getElem?, hn]

theorem nodup_addresses (code : Code) : code.addresses.Nodup := by
  rw [addresses_eq_map]
  refine List.Nodup.map_on (fun i hi j hj hSame => ?_) List.nodup_range
  exact addressAt_injective (Nat.le_of_lt (List.mem_range.mp hi)) (Nat.le_of_lt (List.mem_range.mp hj)) hSame

/-- The instructions of a body that are kept, with their addresses. -/
def kept (code : Code) (as : List Address) : List (Address × Instruction Address) :=
  code.located.filter fun p => p.1 ∉ as

variable {code : Code} {as : List Address}

theorem located_getElem? (n : Nat) : code.located[n]? = (code[n]?).map fun i => (code.addressAt n, i) := by
  by_cases hn : n < code.length
  · simp [located, List.getElem?_zip_eq_some, addresses_getElem?, hn]
  · simp [located, hn]

theorem nodup_kept : ((code.kept as).map Prod.fst).Nodup := by
  have hAll : code.located.map Prod.fst = code.addresses :=
    List.map_fst_zip (Nat.le_of_eq (Instruction.length_addressesFrom 0 code))
  exact (hAll ▸ code.nodup_addresses).sublist (List.filter_sublist.map Prod.fst)

theorem mem_kept {a : Address} {i : Instruction Address} :
    (a, i) ∈ code.kept as ↔ code.at? a = some i ∧ a ∉ as := by
  simp [kept, List.mem_filter, mem_located_iff]

end Code

namespace Method.Sifted

variable {code code' : Code} {label label' : Address → Address} {as : List Address}
  {stands : Address → Option (Instruction Address)} {rank : Nat → Nat}

/-- Only where places go matters. -/
theorem congr (h : Sifted code code' label stands rank) (hSame : ∀ a, code.HasPlace a → label a = label' a)
    (hTargets : ∀ n < code.length, ∀ j, stands (code.addressAt n) = some j → ∀ t ∈ j.targets, code.HasPlace t) :
    Sifted code code' label' stands rank where
  place n hn := by rw [← hSame _ ⟨n, hn, rfl⟩, h.place n hn]
  first := h.first
  last := h.last
  kept n hn j hj := by
    obtain ⟨hRank, hThere⟩ := h.kept n hn j hj
    refine ⟨hRank, hThere.trans (congrArg some (Instruction.mapTargets_congr fun t ht => ?_))⟩
    exact hSame t (hTargets n hn j hj t ht)
  gone := h.gone

theorem at?_label (h : Sifted code code' label stands rank) {a : Address} {i : Instruction Address}
    (ha : code.HasAddress a) (hi : stands a = some i) : code'.at? (label a) = some (i.mapTargets label) := by
  obtain ⟨n, hn, rfl⟩ := ha
  rw [h.place n (Nat.le_of_lt hn)]
  exact Code.at?_addressAt (h.kept n hn i hi).2

/-- What is before everything that is removed is where it was. -/
theorem untouched (h : Sifted code code' label (code.spared as) rank) {q : Nat} (hq : q ≤ code.length)
    (hBefore : ∀ b ∈ as, code.addressAt q ≤ b) : rank q = q ∧ code'.addressAt q = code.addressAt q := by
  induction q with
  | zero => exact ⟨h.first, by rw [Code.addressAt_zero, Code.addressAt_zero]⟩
  | succ q ih =>
      have hLess := Code.addressAt_lt (Nat.lt_succ_self q) hq
      obtain ⟨hRank, hAddress⟩ := ih (Nat.le_of_succ_le hq) fun b hb =>
        Nat.le_of_lt (Nat.lt_of_lt_of_le hLess (hBefore b hb))
      have hHere : code[q]? = some code[q] := List.getElem?_eq_getElem hq
      have hSpared : code.spared as (code.addressAt q) = some code[q] := by
        rw [Code.spared_of_not_mem fun hMem => Nat.not_le_of_lt hLess (hBefore _ hMem)]
        exact Code.at?_addressAt hHere
      obtain ⟨hNext, hThere⟩ := h.kept q hq _ hSpared
      rw [hRank] at hNext hThere
      refine ⟨hNext, ?_⟩
      rw [Code.addressAt_succ hThere, Code.addressAt_succ hHere, hAddress, Instruction.size_mapTargets]

end Method.Sifted

namespace Method

/-- A method is what is left of another one after the instructions at some addresses have been removed, as far as one
removal after another can tell. -/
structure Clears (m m' : Method) (r : Relocation) (as : List Address) : Prop where
  rest : m' = { m with code := m'.code, tries := m'.tries }
  sifted : ∃ rank, Sifted m.code m'.code r.label (m.code.spared as) rank
  tries : m'.tries = (m.tries.map (TryBlock.relocate r)).filter fun b => b.start < b.stop
  labels : ∀ a, m.code.HasPlace a → (r.labels.lookup a).isSome = true
  keys : (r.insns.map Prod.fst).Nodup
  insn : ∀ a b, r.insn? a = some b ↔ m.code.HasAddress a ∧ a ∉ as ∧ r.label a = b

variable {m m' : Method} {r : Relocation} {as : List Address} {p : Nat}

/-- In which order and how often something is removed does not matter. -/
theorem Clears.congr {bs : List Address} (h : m.Clears m' r as) (hSame : ∀ a, a ∈ as ↔ a ∈ bs) :
    m.Clears m' r bs where
  rest := h.rest
  sifted := by
    have hSpared : m.code.spared as = m.code.spared bs := Code.spared_congr hSame
    exact hSpared ▸ h.sifted
  tries := h.tries
  labels := h.labels
  keys := h.keys
  insn a b := by rw [h.insn, hSame]

theorem placed_of_validate (hValid : m.validate = .ok ()) (hBounded : m.Bounded) : m.Placed where
  targets i hi t ht := (((validate_eq_ok_iff.mp hValid).1 i hi).targets t ht).hasPlace
  handlers k hk := ((validate_eq_ok_iff.mp hValid).2 k hk).hasPlace
  bounded := hBounded

theorem splice_keys {index removed : Nat} {new : Code} {retarget : Bool} :
    ((m.splice index removed new retarget).2.insns.map Prod.fst).Nodup := by
  rw [splice_relocation_insns]
  have hKeys := Lookup.keys_filterMap_sublist (List.range m.code.length) m.code.addressAt fun i =>
    (Code.survivor? index removed new.length i).map (m.code.spliced index removed new).addressAt
  simp only [Option.map_map, Function.comp_def] at hKeys
  exact (m.code.addresses_eq_map ▸ m.code.nodup_addresses).sublist hKeys

theorem clears_without (hp : p < m.code.length) :
    m.Clears (m.without p) (m.splice p 1 [] false).2 [m.code.addressAt p] where
  rest := rfl
  sifted := by
    have hSame : m.code.spared [m.code.addressAt p] = m.code.exchanged p none := by
      funext a
      simp [Code.spared, Code.exchanged]
    exact ⟨_, hSame ▸ sifted_without hp⟩
  tries := rfl
  labels a ha := splice_lookup_isSome.mpr ha
  keys := splice_keys
  insn a b := by
    have hReplaces : m.Replaces _ _ p 1 [] false := splice_replaces hp
    constructor
    · intro hInsn
      refine ⟨?_, ?_, hReplaces.survivor a b hInsn fun hNone => absurd hNone Nat.one_ne_zero⟩ <;>
        obtain ⟨i, hi, rfl, hPlace⟩ := (hReplaces.insns a b).mp hInsn
      · exact ⟨i, hi, rfl⟩
      · intro hHere
        obtain rfl := Code.addressAt_injective (Nat.le_of_lt hi) (Nat.le_of_lt hp) (List.mem_singleton.mp hHere)
        omega
    · rintro ⟨⟨i, hi, rfl⟩, hOther, rfl⟩
      have hElsewhere : i ≠ p := fun hSame => hOther (hSame ▸ List.mem_singleton_self _)
      have hSurvives : (Code.survivor? p 1 0 i).isSome = true := Code.isSome_survivor? (by omega)
      obtain ⟨j, hj⟩ := Option.isSome_iff_exists.mp hSurvives
      have hInsn : (m.splice p 1 [] false).2.insn? (m.code.addressAt i) = _ := splice_insn?_addressAt hi
      rw [show ([] : Code).length = 0 from rfl, hj, Option.map_some] at hInsn
      rw [hInsn, hReplaces.survivor _ _ hInsn fun hNone => absurd hNone Nat.one_ne_zero]

/-- Ranges that are moved twice and dropped when they are empty are moved at once, and dropped in the end. -/
theorem filter_relocate {r r' : Relocation} {tries : List TryBlock}
    (hSame : ∀ b ∈ tries, (b.relocate r).relocate r' = b.relocate (r.andThen r'))
    (hEmpty : ∀ b ∈ tries, (b.relocate (r.andThen r')).start < (b.relocate (r.andThen r')).stop →
      (b.relocate r).start < (b.relocate r).stop) :
    ((((tries.map (TryBlock.relocate r)).filter fun b => b.start < b.stop).map (TryBlock.relocate r')).filter
        fun b => b.start < b.stop) =
      (tries.map (TryBlock.relocate (r.andThen r'))).filter fun b => b.start < b.stop := by
  induction tries with
  | nil => rfl
  | cons b tries ih =>
      have hRest := ih (fun b hb => hSame b (.tail _ hb)) fun b hb => hEmpty b (.tail _ hb)
      have hFirst := hSame b (.head _)
      rw [List.map_cons, List.map_cons]
      by_cases hFull : (b.relocate r).start < (b.relocate r).stop
      · rw [List.filter_cons_of_pos (by simpa using hFull), List.map_cons, hFirst, List.filter_cons, List.filter_cons,
          hRest]
      · have hGone : ¬ (b.relocate (r.andThen r')).start < (b.relocate (r.andThen r')).stop :=
          fun hLeft => hFull (hEmpty b (.head _) hLeft)
        rw [List.filter_cons_of_neg (by simpa using hFull), hRest, List.filter_cons_of_neg (by simpa using hGone)]

theorem Clears.labels_ne_nil (h : m.Clears m' r as) : r.labels ≠ [] := by
  intro hNone
  have hFound := h.labels 0 ⟨0, Nat.zero_le _, Code.addressAt_zero _⟩
  rw [hNone] at hFound
  cases hFound

theorem Clears.label_andThen (h : m.Clears m' r as) {r' : Relocation} {a : Address} (ha : m.code.HasPlace a) :
    (r.andThen r').label a = r'.label (r.label a) :=
  Relocation.label_andThen (h.labels a ha)

theorem Clears.spared_andThen (h : m.Clears m' r as) {bs cs : List Address}
    (hLater : ∀ a, m.code.HasAddress a → a ∉ as → (r.label a ∈ bs ↔ a ∈ cs)) {a : Address} (ha : m.code.HasAddress a) :
    ((m.code.spared as a).bind fun _ => m'.code.spared bs (r.label a)) =
      (m.code.spared (cs ++ as) a).map (Instruction.mapTargets r.label) := by
  obtain ⟨rank, hSifted⟩ := h.sifted
  by_cases hGone : a ∈ as
  · rw [Code.spared_of_mem hGone, Code.spared_of_mem (List.mem_append_right _ hGone)]
    rfl
  · obtain ⟨i, hi⟩ := Code.exists_at? ha
    have hSpared := (Code.spared_of_not_mem hGone).trans hi
    rw [hSpared, Option.bind_some]
    by_cases hLast : a ∈ cs
    · rw [Code.spared_of_mem ((hLater a ha hGone).mpr hLast), Code.spared_of_mem (List.mem_append_left _ hLast)]
      rfl
    · rw [Code.spared_of_not_mem fun hMem => hLast ((hLater a ha hGone).mp hMem), hSifted.at?_label ha hSpared,
        Code.spared_of_not_mem fun hMem => (List.mem_append.mp hMem).elim hLast hGone, hi]
      rfl

/-- What is removed in two goes is removed in one. What the second go removes is told by where the first one has left
it. -/
theorem Clears.andThen {m'' : Method} {r' : Relocation} {bs cs : List Address} (h : m.Clears m' r as)
    (hNext : m'.Clears m'' r' bs) (hPlaced : m.Placed)
    (hLater : ∀ a, m.code.HasAddress a → a ∉ as → (r.label a ∈ bs ↔ a ∈ cs)) :
    m.Clears m'' (r.andThen r') (cs ++ as) := by
  obtain ⟨rank, hSifted⟩ := h.sifted
  obtain ⟨rank', hSifted'⟩ := hNext.sifted
  constructor
  case rest =>
    rw [hNext.rest, h.rest]
  case sifted =>
    refine ⟨_, (hSifted.trans hSifted' fun a ha => h.spared_andThen hLater ha).congr
      (fun a ha => (h.label_andThen ha).symm) fun n hn i hi t ht => ?_⟩
    exact hPlaced.targets i (Code.mem_of_at? (Code.spared_eq_some_iff.mp hi).2) t ht
  case tries =>
    rw [hNext.tries, h.tries]
    refine filter_relocate (fun b hb => ?_) fun b hb hLeft => ?_
    · obtain ⟨hStart, hStop⟩ := hPlaced.bounded b hb
      unfold TryBlock.relocate
      rw [h.label_andThen hStart, h.label_andThen hStop, List.map_map]
      congr 1
      refine List.map_congr_left fun k hk => ?_
      rw [Function.comp_apply, h.label_andThen (hPlaced.handlers k (List.mem_flatMap.mpr ⟨b, hb, hk⟩))]
    · -- a range that is empty after the first go cannot be filled by the second
      obtain ⟨hStart, hStop⟩ := hPlaced.bounded b hb
      simp only [TryBlock.relocate, h.label_andThen hStart, h.label_andThen hStop] at hLeft ⊢
      by_contra hOver
      exact Nat.not_lt_of_le (hSifted'.label_le (hSifted.hasPlace hStop) (hSifted.hasPlace hStart)
        (Nat.le_of_not_lt hOver)) hLeft
  case labels =>
    intro a ha
    rw [Relocation.lookup_andThen (h.labels a ha)]
    rfl
  case keys => exact Relocation.keys_andThen h.keys h.labels_ne_nil
  case insn =>
    intro a b
    rw [Relocation.insn?_andThen h.keys h.labels_ne_nil, Option.bind_eq_some_iff]
    constructor
    · rintro ⟨c, hFirst, hSecond⟩
      obtain ⟨ha, hGone, rfl⟩ := (h.insn a c).mp hFirst
      obtain ⟨_, hStill, hGoes⟩ := (hNext.insn _ b).mp hSecond
      refine ⟨ha, fun hMem => ?_, (h.label_andThen ha.hasPlace).trans hGoes⟩
      exact (List.mem_append.mp hMem).elim (fun hLast => hStill ((hLater a ha hGone).mpr hLast)) hGone
    · rintro ⟨ha, hNot, hGoes⟩
      have hGone : a ∉ as := fun hMem => hNot (List.mem_append_right _ hMem)
      obtain ⟨i, hi⟩ := Code.exists_at? ha
      have hThere := hSifted.at?_label ha ((Code.spared_of_not_mem hGone).trans hi)
      refine ⟨_, (h.insn a _).mpr ⟨ha, hGone, rfl⟩, (hNext.insn _ b).mpr ⟨Code.hasAddress_of_at? hThere, ?_,
        (h.label_andThen ha.hasPlace).symm.trans hGoes⟩⟩
      exact fun hMem => hNot (List.mem_append_left _ ((hLater a ha hGone).mp hMem))

/-- The instruction before all that have been removed is removed next. -/
theorem Clears.step (h : m.Clears m' r as) (hPlaced : m.Placed) (hp : p < m.code.length)
    (hBefore : ∀ b ∈ as, m.code.addressAt p < b) :
    m'.code.indexOf? (m.code.addressAt p) = some p ∧
      m.Clears (m'.without p) (r.andThen (m'.splice p 1 [] false).2) (m.code.addressAt p :: as) := by
  obtain ⟨rank, hSifted⟩ := h.sifted
  obtain ⟨hRank, hAddress⟩ := hSifted.untouched (Nat.le_of_lt hp) fun b hb => Nat.le_of_lt (hBefore b hb)
  have hHere : m.code.HasAddress (m.code.addressAt p) := Code.hasAddress_addressAt hp
  have hSpared : m.code.spared as (m.code.addressAt p) = some m.code[p] := by
    rw [Code.spared_of_not_mem fun hMem => Nat.lt_irrefl _ (hBefore _ hMem)]
    exact Code.at?_addressAt (List.getElem?_eq_getElem hp)
  have hp' : p < m'.code.length := hRank ▸ hSifted.lt_of_kept hp hSpared
  have hStays : r.label (m.code.addressAt p) = m'.code.addressAt p := by
    rw [hSifted.place p (Nat.le_of_lt hp), hRank]
  have hLater (a : Address) (ha : m.code.HasAddress a) (hGone : a ∉ as) :
      r.label a ∈ [m'.code.addressAt p] ↔ a ∈ [m.code.addressAt p] := by
    obtain ⟨i, hi⟩ := Code.exists_at? ha
    rw [List.mem_singleton, List.mem_singleton, ← hStays]
    exact ⟨hSifted.injective ha hHere ((Code.spared_of_not_mem hGone).trans hi) hSpared, congrArg r.label⟩
  exact ⟨hAddress ▸ Code.indexOf?_addressAt hp', h.andThen (clears_without hp') hPlaced hLater⟩

/-- What is left of a method after the instructions at some addresses have been removed at once. What is kept is in
order; jumps, handlers and the bounds of ranges go along with the first instruction that is kept at the place or after
it, or with the end; ranges that cover nothing that is kept are gone. The relocation tells where each kept instruction
is, and where control goes that went to a place. -/
structure Cleared (m m' : Method) (r : Relocation) (as : List Address) : Prop where
  rest : m' = { m with code := m'.code, tries := m'.tries }
  code : m'.code = (m.code.kept as).map fun p => p.2.mapTargets r.label
  tries : m'.tries =
    (m.tries.filter fun b => (m.code.kept as).any fun p => b.covers p.1).map (TryBlock.relocate r)
  insn : ∀ a b, r.insn? a = some b ↔ (a, b) ∈ ((m.code.kept as).map Prod.fst).zip m'.code.addresses
  label : ∀ a, m.code.HasPlace a →
    (∃ b, IsLeast {b | m.code.HasAddress b ∧ b ∉ as ∧ a ≤ b} b ∧ r.insn? b = some (r.label a)) ∨
      (∀ b, m.code.HasAddress b → a ≤ b → b ∈ as) ∧ r.label a = m'.stop

namespace Sifted

variable {code code' : Code} {label : Address → Address} {rank : Nat → Nat}

/-- The ranks of positions count what is kept before them. -/
theorem take_rank (h : Sifted code code' label (code.spared as) rank) {n : Nat} (hn : n ≤ code.length) :
    ((code.located.take n).filter fun p => p.1 ∉ as).length = rank n ∧
      code'.take (rank n) = ((code.located.take n).filter fun p => p.1 ∉ as).map fun p => p.2.mapTargets label := by
  induction n with
  | zero => simp [h.first]
  | succ n ih =>
      obtain ⟨hLength, hTake⟩ := ih (Nat.le_of_succ_le hn)
      have hHere : code.located[n]? = some (code.addressAt n, code[n]) := by
        rw [Code.located_getElem?, List.getElem?_eq_getElem hn]
        rfl
      rw [List.take_add_one, hHere, Option.toList_some, List.filter_append, List.length_append, List.map_append]
      by_cases hGone : code.addressAt n ∈ as
      · rw [h.gone n hn (Code.spared_of_mem hGone), List.filter_cons_of_neg (by simpa using hGone)]
        exact ⟨by simpa using hLength, by simpa using hTake⟩
      · have hSpared : code.spared as (code.addressAt n) = some code[n] := by
          rw [Code.spared_of_not_mem hGone]
          exact Code.at?_addressAt (List.getElem?_eq_getElem hn)
        obtain ⟨hRank, hThere⟩ := h.kept n hn _ hSpared
        rw [hRank, List.filter_cons_of_pos (by simpa using hGone), List.take_add_one, hThere, hTake]
        simpa using hLength

/-- What is left is what is kept. -/
theorem eq_map_kept (h : Sifted code code' label (code.spared as) rank) :
    code' = (code.kept as).map fun p => p.2.mapTargets label := by
  have hAll := (h.take_rank (Nat.le_refl _)).2
  have hLocated : code.located.take code.length = code.located := by
    refine List.take_of_length_le ?_
    simp [Code.located, Code.addresses, Instruction.length_addressesFrom]
  rwa [h.last, List.take_of_length_le (Nat.le_refl _), hLocated] at hAll

/-- What is kept is found among all that is kept at its rank. -/
theorem kept_rank (h : Sifted code code' label (code.spared as) rank) {n : Nat} (hn : n < code.length)
    (hKept : code.addressAt n ∉ as) : (code.kept as)[rank n]? = some (code.addressAt n, code[n]) := by
  have hHere : code.located[n]? = some (code.addressAt n, code[n]) := by
    rw [Code.located_getElem?, List.getElem?_eq_getElem hn]
    rfl
  obtain ⟨hLocated, hSame⟩ := List.getElem?_eq_some_iff.mp hHere
  have hSplit : code.kept as = ((code.located.take n).filter fun p => p.1 ∉ as) ++
      (code.addressAt n, code[n]) :: ((code.located.drop (n + 1)).filter fun p => p.1 ∉ as) := by
    conv_lhs => rw [Code.kept, ← List.take_append_drop n code.located, List.drop_eq_getElem_cons hLocated, hSame]
    rw [List.filter_append, List.filter_cons_of_pos (by simpa using hKept)]
  rw [hSplit, List.getElem?_append_right (Nat.le_of_eq (h.take_rank (Nat.le_of_lt hn)).1),
    (h.take_rank (Nat.le_of_lt hn)).1, Nat.sub_self]
  rfl

/-- Control goes to the first instruction at a place or after it that is kept, or to the end. -/
theorem label_least (h : Sifted code code' label (code.spared as) rank) {n : Nat} (hn : n ≤ code.length) :
    (∃ b, IsLeast {b | code.HasAddress b ∧ b ∉ as ∧ code.addressAt n ≤ b} b ∧ label b = label (code.addressAt n)) ∨
      (∀ b, code.HasAddress b → code.addressAt n ≤ b → b ∈ as) ∧ label (code.addressAt n) = code'.size := by
  induction hn using Nat.decreasingInduction with
  | self =>
      refine .inr ⟨fun b hb hAfter => ?_, ?_⟩
      · exact absurd (Code.lt_size_of_hasAddress hb) (Nat.not_lt_of_le (Code.addressAt_length code ▸ hAfter))
      · rw [h.place _ (Nat.le_refl _), h.last, Code.addressAt_length]
  | of_succ n hn ih =>
      have hHere : code.HasAddress (code.addressAt n) := Code.hasAddress_addressAt hn
      have hNext := Code.addressAt_lt (Nat.lt_succ_self n) hn
      by_cases hGone : code.addressAt n ∈ as
      · -- what is removed leads to what follows it
        have hAfter {b : Address} (hb : code.HasAddress b) (hKept : b ∉ as) (hLess : code.addressAt n ≤ b) :
            code.addressAt (n + 1) ≤ b := by
          obtain ⟨k, hk, rfl⟩ := hb
          rw [Code.addressAt_le_iff (Nat.le_of_lt hn) (Nat.le_of_lt hk)] at hLess
          rw [Code.addressAt_le_iff hn (Nat.le_of_lt hk)]
          exact Nat.lt_of_le_of_ne hLess fun hSame => hKept (hSame ▸ hGone)
        have hSame : label (code.addressAt (n + 1)) = label (code.addressAt n) := by
          rw [h.place _ hn, h.place _ (Nat.le_of_lt hn), h.gone n hn (Code.spared_of_mem hGone)]
        rw [← hSame]
        rcases ih with ⟨b, ⟨⟨hb, hKept, hLess⟩, hLeast⟩, hGoes⟩ | ⟨hAll, hStop⟩
        · exact .inl ⟨b, ⟨⟨hb, hKept, Nat.le_trans (Nat.le_of_lt hNext) hLess⟩,
            fun c ⟨hc, hStays, hFrom⟩ => hLeast ⟨hc, hStays, hAfter hc hStays hFrom⟩⟩, hGoes⟩
        · refine .inr ⟨fun b hb hLess => ?_, hStop⟩
          by_contra hKept
          exact hKept (hAll b hb (hAfter hb hKept hLess))
      · exact .inl ⟨_, ⟨⟨hHere, hGone, Nat.le_refl _⟩, fun c ⟨_, _, hFrom⟩ => hFrom⟩, rfl⟩

/-- A range is left with something in it if it covers something that is kept. -/
theorem label_lt_iff (h : Sifted code code' label (code.spared as) rank) {b : TryBlock} (hStart : code.HasPlace b.start)
    (hStop : code.HasPlace b.stop) : label b.start < label b.stop ↔ ∃ p ∈ code.kept as, b.covers p.1 = true := by
  constructor
  · intro hLabels
    obtain ⟨n, hn, hPlace⟩ := hStart
    -- the first instruction that is kept in the range or after it is in the range
    rcases h.label_least hn with ⟨a, ⟨⟨ha, hNot, hFrom⟩, _⟩, hGoes⟩ | ⟨_, hEnd⟩
    · obtain ⟨i, hi⟩ := Code.exists_at? ha
      refine ⟨(a, i), Code.mem_kept.mpr ⟨hi, hNot⟩, ?_⟩
      rw [TryBlock.covers, Bool.and_eq_true, decide_eq_true_eq, decide_eq_true_eq]
      refine ⟨hPlace ▸ hFrom, Nat.lt_of_not_le fun hOver => ?_⟩
      have hLess := h.label_le hStop ha.hasPlace hOver
      rw [hGoes, hPlace] at hLess
      exact Nat.not_lt_of_le hLess hLabels
    · obtain ⟨k, hk, hThere⟩ := h.hasPlace hStop
      have hLess := (Code.addressAt_le_iff hk (Nat.le_refl _)).mpr hk
      rw [hThere, Code.addressAt_length] at hLess
      rw [← hPlace, hEnd] at hLabels
      exact absurd hLabels (Nat.not_lt_of_le hLess)
  · rintro ⟨⟨a, i⟩, hMem, hCovers⟩
    obtain ⟨hi, hNot⟩ := Code.mem_kept.mp hMem
    have ha := Code.hasAddress_of_at? hi
    rw [TryBlock.covers, Bool.and_eq_true, decide_eq_true_eq, decide_eq_true_eq] at hCovers
    exact Nat.lt_of_le_of_lt (h.label_le hStart ha.hasPlace hCovers.1)
      (h.label_lt ha ((Code.spared_of_not_mem hNot).trans hi) hStop hCovers.2)

/-- What is kept stands where its label is, one after the other. -/
theorem mem_zip_iff (h : Sifted code code' label (code.spared as) rank) {a b : Address} :
    (a, b) ∈ ((code.kept as).map Prod.fst).zip code'.addresses ↔ code.HasAddress a ∧ a ∉ as ∧ label a = b := by
  have hRank {n : Nat} (hn : n < code.length) (hNot : code.addressAt n ∉ as) :
      ((code.kept as).map Prod.fst)[rank n]? = some (code.addressAt n) := by
    rw [List.getElem?_map, h.kept_rank hn hNot]
    rfl
  constructor
  · intro hZip
    obtain ⟨k, hk⟩ := List.mem_iff_getElem?.mp hZip
    obtain ⟨hFirst, hSecond⟩ := List.getElem?_zip_eq_some.mp hk
    obtain ⟨⟨a, i⟩, hMem, rfl⟩ := List.mem_map.mp (List.mem_of_getElem? hFirst)
    obtain ⟨hi, hNot⟩ := Code.mem_kept.mp hMem
    obtain ⟨n, hn, rfl⟩ := Code.hasAddress_of_at? hi
    obtain ⟨hBound, _⟩ := List.getElem?_eq_some_iff.mp (hRank hn hNot)
    obtain rfl := (List.getElem?_inj hBound Code.nodup_kept).mp ((hRank hn hNot).trans hFirst.symm)
    refine ⟨⟨n, hn, rfl⟩, hNot, ?_⟩
    rw [Code.addresses_getElem?] at hSecond
    split at hSecond
    · rw [h.place n (Nat.le_of_lt hn), Option.some.inj hSecond]
    · cases hSecond
  · rintro ⟨⟨n, hn, rfl⟩, hNot, rfl⟩
    have hSpared := (Code.spared_of_not_mem hNot).trans (Code.at?_addressAt (List.getElem?_eq_getElem hn))
    refine List.mem_of_getElem? (List.getElem?_zip_eq_some.mpr ⟨hRank hn hNot, ?_⟩)
    rw [Code.addresses_getElem?, if_pos (h.lt_of_kept hn hSpared), h.place n (Nat.le_of_lt hn)]

end Sifted

/-- What one removal after another leaves is what the removal of all at once leaves. -/
theorem Clears.cleared (h : m.Clears m' r as) (hBounded : m.Bounded) : m.Cleared m' r as := by
  obtain ⟨rank, hSifted⟩ := h.sifted
  constructor
  case rest => exact h.rest
  case code => exact hSifted.eq_map_kept
  case tries =>
    rw [h.tries, List.filter_map]
    refine congrArg (List.map _) (List.filter_congr fun b hb => ?_)
    obtain ⟨hStart, hStop⟩ := hBounded b hb
    rw [Function.comp_apply, Bool.eq_iff_iff, decide_eq_true_eq, List.any_eq_true]
    exact hSifted.label_lt_iff hStart hStop
  case insn =>
    intro a b
    rw [h.insn, hSifted.mem_zip_iff]
  case label =>
    rintro _ ⟨n, hn, rfl⟩
    rcases hSifted.label_least hn with ⟨b, hb, hGoes⟩ | hEnd
    · exact .inl ⟨b, hb, (h.insn _ _).mpr ⟨hb.1.1, hb.1.2.1, hGoes⟩⟩
    · exact .inr hEnd

end Method

/-- A removal that is not refused is one of instructions that there are. Every jump that is kept and every handler finds an
instruction that is kept. -/
theorem Graph.lands_of_checkRemoval {g : Graph} {as : List Address} (h : g.checkRemoval (ascending as) = .ok ()) :
    (∀ a ∈ as, g.method.code.HasAddress a) ∧
      (∀ p ∈ g.method.code.kept as, ∀ t ∈ p.2.targets, g.method.code.Lands as t) ∧
      ∀ k ∈ g.method.handlers, g.method.code.Lands as k.target := by
  have hMem (a : Address) : a ∈ ascending as ↔ a ∈ as := mem_ascending
  obtain ⟨removed, hRemoved, hTargets, hHandlers, _⟩ := checkRemoval_eq_ok h
  have hLands {t : Address} (ht : g.checkLanding (g.lastKept? removed) t = .ok ()) : g.method.code.Lands as t := by
    simpa [Code.Lands, hMem] using lands_of_checkLanding hRemoved ht
  refine ⟨fun a ha => hasAddress_of_mapM_index hRemoved ((hMem a).mpr ha), ?_, fun k hk => hLands (hHandlers k hk)⟩
  rintro ⟨a, i⟩ hp t ht
  obtain ⟨hThere, hKept⟩ := Code.mem_kept.mp hp
  obtain ⟨n, hIndex, hPosition⟩ := Code.at?_eq_some_iff.mp hThere
  obtain ⟨_, rfl⟩ := Code.indexOf?_eq_some_iff.mp hIndex
  refine hLands (hTargets (i, n) (List.mem_zipIdx_iff_getElem?.mpr hPosition) (fun hGone => hKept ?_) t ht)
  exact (hMem _).mp ((mapM_index hRemoved n).mp hGone).2

namespace Edit

variable {d : Draft} {as : List Address}

/-- The rest of what is to be removed is removed, the last one first. -/
theorem removeEach_clears {m : Method} {combined : Relocation} {done : List Address} (hPlaced : m.Placed)
    (h : m.Clears d.graph.method combined done) (hHere : ∀ a ∈ as, m.code.HasAddress a)
    (hOrder : (as.reverse ++ done).Pairwise (· < ·)) :
    ∃ r g, removeEach combined as d = (.ok r, { d with graph := g }) ∧ m.Clears g.method r (as.reverse ++ done) := by
  induction as generalizing d combined done with
  | nil => exact ⟨combined, d.graph, rfl, h⟩
  | cons a as ih =>
      obtain ⟨p, hp, rfl⟩ := hHere a (.head _)
      rw [List.reverse_cons, List.append_assoc] at hOrder ⊢
      have hBefore := (List.pairwise_cons.mp (List.pairwise_append.mp hOrder).2.1).1
      obtain ⟨hIndex, hNext⟩ := h.step hPlaced hp hBefore
      have hMethod : (d.graph.removeAt p).method = d.graph.method.without p := Graph.relocate_method _ _
      rw [removeEach_cons hIndex]
      exact ih (d := { d with graph := d.graph.removeAt p }) (hMethod ▸ hNext) (fun b hb => hHere b (.tail _ hb)) hOrder

/-- Distinct instructions are removed one after another from the last one to the first. -/
theorem removeEach_ascending (hSome : as ≠ []) (hValid : d.graph.method.validate = .ok ())
    (hBounded : d.graph.method.Bounded) (hHere : ∀ a ∈ as, d.graph.method.code.HasAddress a) :
    ∃ r g, removeEach .empty (Graph.ascending as).reverse d = (.ok r, { d with graph := g }) ∧
      d.graph.method.Clears g.method r as := by
  have hMem (a : Address) : a ∈ Graph.ascending as ↔ a ∈ as := Graph.mem_ascending
  cases hOrder : (Graph.ascending as).reverse with
  | nil =>
      obtain ⟨a, ha⟩ := List.exists_mem_of_ne_nil as hSome
      have hEmpty := List.reverse_eq_nil_iff.mp hOrder
      exact absurd ((hMem a).mpr ha) (hEmpty ▸ List.not_mem_nil)
  | cons a rest =>
      have hFront : Graph.ascending as = rest.reverse ++ [a] := by
        rw [← List.reverse_reverse (Graph.ascending as), hOrder, List.reverse_cons]
      have hAll {b : Address} (hb : b ∈ rest.reverse ++ [a]) : d.graph.method.code.HasAddress b :=
        hHere b ((hMem b).mp (hFront ▸ hb))
      obtain ⟨p, hp, rfl⟩ := hAll (List.mem_append_right _ (List.mem_singleton_self a))
      have hMethod : (d.graph.removeAt p).method = d.graph.method.without p := Graph.relocate_method _ _
      rw [removeEach_cons (Code.indexOf?_addressAt hp)]
      obtain ⟨r, g, hRun, hClears⟩ := removeEach_clears (d := { d with graph := d.graph.removeAt p })
        (Method.placed_of_validate hValid hBounded) (hMethod ▸ Method.clears_without hp)
        (fun b hb => hAll (List.mem_append_left _ (List.mem_reverse.mpr hb))) (hFront ▸ Graph.ascending_pairwise as)
      exact ⟨r, g, hRun, hClears.congr fun b => by rw [← hFront, hMem]⟩

/-- What is asked for is removed at once and without repetition, or nothing is. It is refused when the check of the
distinct addresses in order refuses it. Every jump that is kept and every handler finds an instruction that is kept. -/
theorem removeAll_clears (d : Draft) (as : List Address) (hSome : as ≠ []) (hValid : d.graph.method.validate = .ok ())
    (hBounded : d.graph.method.Bounded) :
    ∃ sorted, sorted.Pairwise (· < ·) ∧ (∀ a, a ∈ sorted ↔ a ∈ as) ∧
      (∀ e, d.graph.checkRemoval sorted = .error e → removeAll as d = (.error e, d)) ∧
      (d.graph.checkRemoval sorted = .ok () →
        ∃ r g, removeAll as d = (.ok r, { d with graph := g }) ∧ d.graph.method.Cleared g.method r as ∧
          (∀ a ∈ as, d.graph.method.code.HasAddress a) ∧
          (∀ p ∈ d.graph.method.code.kept as, ∀ t ∈ p.2.targets, d.graph.method.code.Lands as t) ∧
          ∀ k ∈ d.graph.method.handlers, d.graph.method.code.Lands as k.target) := by
  refine ⟨Graph.ascending as, Graph.ascending_pairwise as, fun _ => Graph.mem_ascending, fun e => removeAll_of_error,
    fun hCheck => ?_⟩
  obtain ⟨hHere, hTargets, hHandlers⟩ := Graph.lands_of_checkRemoval hCheck
  obtain ⟨r, g, hRun, hClears⟩ := removeEach_ascending hSome hValid hBounded hHere
  exact ⟨r, g, (removeAll_of_ok hCheck).trans hRun, hClears.cleared hBounded, hHere, hTargets, hHandlers⟩

/-- The division and the sum after it are asked for out of order and twice. Both are removed, the range around the
division is gone, and control that went to either goes to the jump after them. -/
theorem removeAll_clears_countingMethod :
    Method.countingMethod.validate = .ok () ∧ Method.countingMethod.Bounded ∧
      ∃ r g, removeAll [4, 2, 4] ⟨.start Method.countingMethod (State.blank 1 1), false⟩ = (.ok r, ⟨g, false⟩) ∧
        Method.countingMethod.Cleared g.method r [4, 2, 4] ∧
        g.method.code = [.branch .lt 1 none 5, .goto 0, .moveException 0, .returnValue 1] ∧ g.method.tries = [] ∧
        [2, 4, 6, 11].map r.label = [2, 2, 2, 7] ∧ [2, 4, 6].map r.insn? = [none, none, some 2] := by
  have hValid : Method.countingMethod.validate = .ok () := by decide
  have hBounded : Method.countingMethod.Bounded := (by decide : Method.countingMethod.Placed).bounded
  obtain ⟨sorted, hSorted, hMem, _, hOk⟩ := removeAll_clears
    ⟨.start Method.countingMethod (State.blank 1 1), false⟩ [4, 2, 4] (by decide) hValid hBounded
  have hCheck : (Graph.start Method.countingMethod (State.blank 1 1)).checkRemoval [2, 4] = .ok () := by decide
  have hOrder : sorted = [2, 4] := hSorted.eq_of_mem_iff (by decide) fun a => by grind
  obtain ⟨r, g, hRun, hCleared, _⟩ := hOk (hOrder ▸ hCheck)
  have hMethod : (removeAll [4, 2, 4] ⟨.start Method.countingMethod (State.blank 1 1), false⟩).2.graph.method =
      { Method.countingMethod with
        code := [.branch .lt 1 none 5, .goto 0, .moveException 0, .returnValue 1], tries := [] } := by
    decide +kernel
  have hPlaces : (removeAll [4, 2, 4] ⟨.start Method.countingMethod (State.blank 1 1), false⟩).1.toOption.map
      (fun r => ([2, 4, 6, 11].map r.label, [2, 4, 6].map r.insn?)) = some ([2, 2, 2, 7], [none, none, some 2]) := by
    decide +kernel
  rw [hRun] at hMethod hPlaces
  obtain ⟨hLabels, hInsns⟩ := Prod.mk.inj (Option.some.inj hPlaces)
  exact ⟨hValid, hBounded, r, g, hRun, hCleared, congrArg Method.code hMethod, congrArg Method.tries hMethod, hLabels,
    hInsns⟩

end Edit

end Dalvik
