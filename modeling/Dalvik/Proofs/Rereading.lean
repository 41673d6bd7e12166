import Dalvik.Proofs.Grouping
import Dalvik.Proofs.Headers
import Dalvik.Proofs.Lookup
import Dalvik.Proofs.Splicing
import Dalvik.Proofs.Substituting

/-!
Listings read back. A class is made of its own listing again, if each of its lines says what it was written for: labels
name the places that they are written at, and handlers are collected range by range.
-/

namespace Dalvik

open Listing (Row Line)

/-- A line that says what an instruction does, with the names of labels for places. -/
structure Instruction.ToldBy (locals : Nat) (i : Instruction Address) (s : List Char) : Prop where
  line : Line s
  begins : ∃ c r, s = c :: r ∧ c ≠ '.' ∧ c ≠ ':'
  reads : Listing.readLine locals s = .ok (i.mapTargets Address.labelName)

/-- What makes the line of an instruction say what the instruction does. -/
abbrev Instruction.Legible (locals : Nat) (i : Instruction Address) : Prop :=
  i.ToldBy locals (i.text (Register.name locals)).toList

/-- A line that tells an instruction adds it to a method. -/
theorem Instruction.ToldBy.takes {i : Instruction Address} {s : List Char} {o : Listing.OpenMethod}
    (h : i.ToldBy o.locals s) (indent : Nat) (c : Listing.OpenClass) :
    ({ c with current := some o } : Listing.OpenClass).Takes [(indent, s)]
      { c with current := some { o with code := i.mapTargets Address.labelName :: o.code } } := by
  obtain ⟨d, r, rfl, hDot, hColon⟩ := h.begins
  refine Listing.OpenClass.takes_of_addLine indent h.line (List.cons_ne_nil _ _) (fun hEnd => hDot ?_) fun k => ?_
  · exact Option.some.inj (congrArg List.head? hEnd)
  · have hHead : (d :: r).head? ≠ some '.' := fun hFirst => hDot (Option.some.inj hFirst)
    have hName : Listing.labelName? (d :: r) = none := by
      rw [Listing.labelName?]
      exact fun _ hCons => hColon (List.cons.inj hCons).1
    rw [Listing.OpenMethod.addLine, if_neg hHead, hName]
    simp only [h.reads]

namespace Method

variable (m : Method)

/-- What makes the lines around the code of a method say what they are written for. -/
structure Outlined : Prop extends m.Headed where
  caught : ∀ h ∈ m.handlers, ∀ d ∈ h.type, d.Catchable
  bounded : m.Bounded

/-- What makes the listing of a method say what the method is. Handlers may come in another order. -/
structure Legible : Prop extends m.Outlined where
  insns : ∀ i ∈ m.code, i.Legible m.locals
  valid : m.validate = .ok ()

/-- The rows of a label, if a place has one. -/
def labelRows (a : Address) : List Row := if a ∈ m.labelled then [(2, (Address.label a).toList)] else []

/-- The rows of the instruction at an address, of which the line is given. -/
def insnRows (p : Address × List Char) : List Row := m.labelRows p.1 ++ [(4, p.2)]

/-- The rows of the handlers. -/
def catchRows : List Row := m.tries.flatMap fun b => b.handlers.map fun h => (4, h.catchText b)

/-- The rows of a listing after the header, with given lines for the instructions. -/
def rowsAround (lines : List (List Char)) : List Row :=
  [(4, ".locals ".toList ++ Nat.toDigits 10 m.locals)] ++ m.catchRows ++
    (m.code.addresses.zip lines).flatMap m.insnRows ++ m.labelRows m.stop ++ [(0, ".end method".toList)]

/-- The lines of the instructions. -/
def insnLines : List (List Char) := m.code.map fun i => (i.text m.registerName).toList

/-- The rows of the listing after the header. -/
def bodyRows : List Row := m.rowsAround m.insnLines

/-- The characters of rows, each with the end of its line. -/
def written (rows : List Row) : List Char := rows.flatMap fun r => r.chars ++ ['\n']

theorem written_append (rows rows' : List Row) : written (rows ++ rows') = written rows ++ written rows' :=
  List.flatMap_append

theorem written_flatMap {α : Type} (as : List α) (f : α → List Row) :
    written (as.flatMap f) = as.flatMap fun a => written (f a) :=
  List.flatMap_assoc

theorem written_singleton (r : Row) : written [r] = r.chars ++ ['\n'] := by simp [written]

theorem toList_catchLine (b : TryBlock) (h : Handler) : (catchLine b h).toList = written [(4, h.catchText b)] := by
  have hStart : "    .catch ".toList = List.replicate 4 ' ' ++ ".catch ".toList := by decide
  have hBreak : "\n".toList = ['\n'] := by decide
  rw [written_singleton]
  unfold catchLine Handler.catchText Handler.typeText Row.chars Listing.rangeText
  simp only [String.toList_append, List.append_assoc]
  rw [hStart, hBreak, List.append_assoc]

theorem toList_labelLine (a : Address) : (labelLine m.labelled a).toList = written (m.labelRows a) := by
  have hStart : "  ".toList = List.replicate 2 ' ' := by decide
  have hBreak : "\n".toList = ['\n'] := by decide
  unfold labelLine labelRows
  split
  · rw [written_singleton]
    simp only [Row.chars, String.toList_append, hStart, hBreak, List.append_assoc]
  · rfl

theorem toList_insnLine (p : Address × Instruction Address) :
    (labelLine m.labelled p.1 ++ "    " ++ p.2.text m.registerName ++ "\n").toList =
      written (m.insnRows (p.1, (p.2.text m.registerName).toList)) := by
  have hStart : "    ".toList = List.replicate 4 ' ' := by decide
  have hBreak : "\n".toList = ['\n'] := by decide
  rw [insnRows, written_append, written_singleton, ← toList_labelLine]
  simp only [Row.chars, String.toList_append, hStart, hBreak, List.append_assoc]

theorem toList_listing : m.listing.toList = written ((0, m.headerText) :: m.bodyRows) := by
  have hLocals : "    .locals ".toList = List.replicate 4 ' ' ++ ".locals ".toList := by decide
  have hBreak : "\n".toList = ['\n'] := by decide
  have hEnd : ".end method\n".toList = ".end method".toList ++ ['\n'] := by decide
  have hCatches : (String.join (m.tries.flatMap fun b => b.handlers.map (catchLine b))).toList = written m.catchRows := by
    rw [String.toList_join, catchRows, written_flatMap, List.flatMap_assoc]
    refine congrArg (List.flatMap · m.tries) (funext fun b => ?_)
    rw [List.flatMap_map, List.map_eq_flatMap, written_flatMap]
    exact congrArg (List.flatMap · b.handlers) (funext fun h => toList_catchLine b h)
  have hCode : (String.join (m.code.located.map fun p =>
      labelLine m.labelled p.1 ++ "    " ++ p.2.text m.registerName ++ "\n")).toList =
        written ((m.code.addresses.zip m.insnLines).flatMap m.insnRows) := by
    rw [insnLines, List.zip_map_right, List.flatMap_map, String.toList_join, List.flatMap_map, written_flatMap]
    exact congrArg (List.flatMap · m.code.located) (funext m.toList_insnLine)
  rw [← List.singleton_append, bodyRows, rowsAround]
  simp only [written_append, written_singleton, ← hCatches, ← hCode, ← toList_labelLine]
  unfold listing headerText Row.chars
  simp only [String.toList_append, List.append_assoc, Nat.toString_eq_ofList_toDigits, String.toList_ofList]
  rw [hLocals, hBreak, hEnd, List.append_assoc]
  rfl

/-- The labels of the first places of the body, with the last one first. -/
def marks (n : Nat) : List (String × Nat) :=
  (List.range n).reverse.filterMap fun i =>
    (if m.code.addressAt i ∈ m.labelled then some i else none).map fun v => (Address.labelName (m.code.addressAt i), v)

theorem marks_succ (n : Nat) :
    m.marks (n + 1) =
      (if m.code.addressAt n ∈ m.labelled then [(Address.labelName (m.code.addressAt n), n)] else []) ++ m.marks n := by
  rw [marks, List.range_succ, List.reverse_append, List.reverse_singleton, List.singleton_append, List.filterMap_cons]
  split <;> simp_all [marks]

variable {m} {n : Nat}

theorem labelName_addressAt_injective {i j : Nat} (hi : i ≤ m.code.length) (hj : j ≤ m.code.length)
    (h : Address.labelName (m.code.addressAt i) = Address.labelName (m.code.addressAt j)) : i = j :=
  Code.addressAt_injective hi hj (Address.labelName_injective h)

/-- A place has no label before its row. -/
theorem lookup_marks_eq_none (hn : n ≤ m.code.length) :
    (m.marks n).lookup (Address.labelName (m.code.addressAt n)) = none := by
  rw [Lookup.lookup_eq_none_iff_not_mem]
  intro hMem
  obtain ⟨e, he, hKey⟩ := List.mem_map.mp hMem
  obtain ⟨i, hi, hEntry⟩ := List.mem_filterMap.mp he
  obtain ⟨v, _, rfl⟩ := Option.map_eq_some_iff.mp hEntry
  have hLess : i < n := List.mem_range.mp (List.mem_reverse.mp hi)
  exact Nat.ne_of_lt hLess (labelName_addressAt_injective (Nat.le_of_lt (Nat.lt_of_lt_of_le hLess hn)) hn hKey)

/-- The label of a place leads to its position. -/
theorem lookup_marks (hn : n ≤ m.code.length) (hLabel : m.code.addressAt n ∈ m.labelled) :
    (m.marks (m.code.length + 1)).lookup (Address.labelName (m.code.addressAt n)) = some n := by
  have hKeys : ∀ i ∈ (List.range (m.code.length + 1)).reverse, ∀ j ∈ (List.range (m.code.length + 1)).reverse,
      Address.labelName (m.code.addressAt i) = Address.labelName (m.code.addressAt j) → i = j := by
    intro i hi j hj
    simp only [List.mem_reverse, List.mem_range] at hi hj
    exact labelName_addressAt_injective (Nat.lt_succ_iff.mp hi) (Nat.lt_succ_iff.mp hj)
  have hFound := Lookup.lookup_filterMap hKeys
    (List.mem_reverse.mpr (List.mem_range.mpr (Nat.lt_succ_iff.mpr hn)))
    fun i => if m.code.addressAt i ∈ m.labelled then some i else none
  rwa [if_pos hLabel] at hFound

variable (m)

/-- The handlers as their lines are read. -/
def catchLines : List Listing.CatchLine := m.tries.flatMap fun b => b.handlers.map fun h => h.catchLine b

/-- A method of which the rows before a position of the code have been read. -/
def reading (number n : Nat) : Listing.OpenMethod where
  reference := m.reference
  flags := m.headerFlags
  headerLine := number
  locals := m.locals
  code := ((m.code.map (Instruction.mapTargets Address.labelName)).take n).reverse
  labels := m.marks n
  catches := m.catchLines.reverse

variable {m}

open Listing (OpenClass OpenMethod)

theorem takes_locals (h : m.locals < 0x10000) (c : OpenClass) (number : Nat) :
    ({ c with current := some (m.begun number) } : OpenClass).Takes [(4, ".locals ".toList ++ Nat.toDigits 10 m.locals)]
      { c with current := some { m.begun number with locals := m.locals } } := by
  have hDigits : Line (Nat.toDigits 10 m.locals) :=
    .of_quiet fun _ hc => Listing.quiet_of_isDigit (Text.isDigit_of_mem_toDigits hc)
  have hLead : Listing.Lead ".locals ".toList := ⟨⟨_, _, rfl, by decide⟩, by decide, by decide, by decide⟩
  have hTrim := hDigits.tight.trim_space
  have hText : Text.dropLead? ".locals".toList (".locals ".toList ++ Nat.toDigits 10 m.locals) =
      some (' ' :: Nat.toDigits 10 m.locals) :=
    Text.dropLead?_append ".locals".toList (' ' :: Nat.toDigits 10 m.locals)
  refine OpenClass.takes_of_addDirective 4 (hLead.append_line Nat.toDigits_ne_nil hDigits) ⟨_, _, rfl, by decide⟩
    fun k => ?_
  unfold OpenMethod.addDirective
  rw [hText]
  simp only [hTrim, Text.unsigned?_toDigits h]

/-- The lines of handlers are read one after another. -/
theorem takes_catches (bs : List (TryBlock × Handler)) (hTypes : ∀ p ∈ bs, ∀ d ∈ p.2.type, d.Catchable)
    (c : OpenClass) (o : OpenMethod) :
    ({ c with current := some o } : OpenClass).Takes (bs.map fun p => (4, p.2.catchText p.1))
      { c with current := some { o with catches := (bs.map fun p => p.2.catchLine p.1).reverse ++ o.catches } } := by
  induction bs generalizing o with
  | nil => exact .refl _
  | cons p bs ih =>
      have hType := hTypes p (.head _)
      have hFirst : ({ c with current := some o } : OpenClass).Takes [(4, p.2.catchText p.1)]
          { c with current := some { o with catches := p.2.catchLine p.1 :: o.catches } } := by
        refine OpenClass.takes_of_addDirective 4 (Handler.line_catchText p.1 hType) ⟨_, _, rfl, by decide⟩ fun k => ?_
        have hLocals : Text.dropLead? ".locals".toList (p.2.catchText p.1) = none := rfl
        have hRegisters : ".registers".toList.isPrefixOf (p.2.catchText p.1) = false := rfl
        have hCatch : ".catch".toList.isPrefixOf (p.2.catchText p.1) = true := rfl
        simp only [OpenMethod.addDirective, hLocals, hRegisters, hCatch, if_true, Handler.addCatch_catchText p.1 hType]
        rfl
      simpa using hFirst.append (ih (fun q hq => hTypes q (.tail _ hq)) _)

theorem takes_label {a : Address} (c : OpenClass) (o : OpenMethod) (hNew : o.labels.lookup a.labelName = none) :
    ({ c with current := some o } : OpenClass).Takes (m.labelRows a)
      { c with current := some { o with
        labels := (if a ∈ m.labelled then [(a.labelName, o.code.length)] else []) ++ o.labels } } := by
  unfold labelRows
  split
  · have hText := Address.toList_label a
    refine OpenClass.takes_of_addLine 2 (Address.line_label a) (by simp [hText]) (fun hEnd => ?_) fun k => ?_
    · have hFirst := congrArg List.head? (hText.symm.trans hEnd)
      simp at hFirst
    · have hHead : (Address.label a).toList.head? ≠ some '.' := by simp [hText]
      rw [OpenMethod.addLine, if_neg hHead, Address.labelName?_label]
      simp [hNew]
  · exact .refl _

theorem takes_insn (c : OpenClass) (number : Nat) {i : Instruction Address} (hi : m.code[n]? = some i) {s : List Char}
    (h : i.ToldBy m.locals s) :
    ({ c with current := some (m.reading number n) } : OpenClass).Takes (m.insnRows (m.code.addressAt n, s))
      { c with current := some (m.reading number (n + 1)) } := by
  obtain ⟨hn, rfl⟩ := List.getElem?_eq_some_iff.mp hi
  have hPosition : (m.reading number n).code.length = n := by simp [reading, Nat.min_eq_left (Nat.le_of_lt hn)]
  have hLabel := takes_label (m := m) c (m.reading number n) (lookup_marks_eq_none (Nat.le_of_lt hn))
  rw [hPosition, reading, ← marks_succ] at hLabel
  have hNext : (m.code.map (Instruction.mapTargets Address.labelName)).take (n + 1) =
      (m.code.map (Instruction.mapTargets Address.labelName)).take n ++ [m.code[n].mapTargets Address.labelName] := by
    rw [List.take_add_one, List.getElem?_map, hi]
    rfl
  refine hLabel.append ?_
  rw [reading, hNext, List.reverse_append]
  exact Instruction.ToldBy.takes (o := { m.reading number n with labels := m.marks (n + 1) }) h 4 c

/-- The code is read instruction by instruction. -/
theorem takes_code (c : OpenClass) (number : Nat) {lines : List (List Char)}
    (h : List.Forall₂ (Instruction.ToldBy m.locals) m.code lines) (hn : n ≤ m.code.length) :
    ({ c with current := some (m.reading number 0) } : OpenClass).Takes
      (((m.code.addresses.zip lines).take n).flatMap m.insnRows) { c with current := some (m.reading number n) } := by
  induction n with
  | zero => exact .refl _
  | succ n ih =>
      have hLength := h.length_eq
      have hLine : lines[n]? = some lines[n] := List.getElem?_eq_getElem (by omega)
      have hHere : (m.code.addresses.zip lines)[n]? = some (m.code.addressAt n, lines[n]) := by
        rw [List.getElem?_zip_eq_some]
        exact ⟨by simp [Code.addresses_getElem?, Nat.lt_of_succ_le hn], hLine⟩
      have hTake : (m.code.addresses.zip lines).take (n + 1) =
          (m.code.addresses.zip lines).take n ++ [(m.code.addressAt n, lines[n])] := by
        rw [List.take_add_one, hHere]
        rfl
      rw [hTake, List.flatMap_append, List.flatMap_singleton]
      exact (ih (Nat.le_of_succ_le hn)).append (takes_insn c number (List.getElem?_eq_getElem hn) (h.get _ _))

variable (m)

/-- A method of which all rows but the last one have been read. -/
def finished (number : Nat) : OpenMethod :=
  { m.reading number m.code.length with labels := m.marks (m.code.length + 1) }

/-- The method with its flags as its header tells them and its handlers collected range by range. -/
def regrouped : Method := { m with flags := m.headerFlags, tries := OpenMethod.gather [] (m.tries.flatMap TryBlock.ranged) }

variable {m} {a : Address} {number : Nat}

theorem requireLabel_finished (hLabel : a ∈ m.labelled) (hPlace : m.code.HasPlace a) :
    (m.finished number).requireLabel a.labelName = .ok () := by
  obtain ⟨n, hn, rfl⟩ := hPlace
  simp [OpenMethod.requireLabel, finished, lookup_marks hn hLabel]

/-- A label stands for the place that it was written at. -/
theorem place_finished (hLabel : a ∈ m.labelled) (hPlace : m.code.HasPlace a) :
    (m.finished number).place m.code.addresses m.stop a.labelName = a := by
  obtain ⟨n, hn, rfl⟩ := hPlace
  have hLookup : (m.finished number).labels.lookup (Address.labelName (m.code.addressAt n)) = some n :=
    lookup_marks hn hLabel
  rw [OpenMethod.place, hLookup, Option.bind_some, Code.addresses_getElem?]
  split
  · rfl
  · rename_i hEnd
    obtain rfl : n = m.code.length := Nat.le_antisymm hn (Nat.le_of_not_lt hEnd)
    exact (Code.addressAt_length m.code).symm

theorem mem_labelled_of_target {i : Instruction Address} (hi : i ∈ m.code) (ha : a ∈ i.targets) : a ∈ m.labelled :=
  List.mem_append_left _ (List.mem_flatMap.mpr ⟨i, hi, ha⟩)

/-- The places of a handler are labelled, and are places of the body. -/
theorem Outlined.labels (h : m.Outlined) (hValid : m.validate = .ok ()) {b : TryBlock} {k : Handler} (hb : b ∈ m.tries)
    (hk : k ∈ b.handlers) : ∀ a ∈ [b.start, b.stop, k.target], a ∈ m.labelled ∧ m.code.HasPlace a := by
  obtain ⟨hStart, hStop⟩ := h.bounded b hb
  have hTarget := ((validate_eq_ok_iff.mp hValid).2 k (List.mem_flatMap.mpr ⟨b, hb, hk⟩)).hasPlace
  have hLabels : ∀ a ∈ [b.start, b.stop] ++ b.handlers.map Handler.target, a ∈ m.labelled := fun a ha =>
    List.mem_append_right _ (List.mem_flatMap.mpr ⟨b, hb, ha⟩)
  intro a ha
  rcases List.mem_cons.mp ha with rfl | ha
  · exact ⟨hLabels _ (by simp), hStart⟩
  rcases List.mem_cons.mp ha with rfl | ha
  · exact ⟨hLabels _ (by simp), hStop⟩
  · obtain rfl := List.mem_singleton.mp ha
    exact ⟨hLabels _ (List.mem_append_right _ (List.mem_map_of_mem hk)), hTarget⟩

theorem validate_regrouped (h : m.validate = .ok ()) : m.regrouped.validate = .ok () := by
  obtain ⟨hCode, hHandlers⟩ := validate_eq_ok_iff.mp h
  refine validate_eq_ok_iff.mpr ⟨fun i hi => ⟨(hCode i hi).registers, (hCode i hi).targets⟩, fun k hk => ?_⟩
  rcases OpenMethod.mem_handlers_gather hk with hNone | ⟨e, he, rfl⟩
  · simp at hNone
  · obtain ⟨b, hb, hRanged⟩ := List.mem_flatMap.mp he
    obtain ⟨k, hOwn, rfl⟩ := List.mem_map.mp hRanged
    exact hHandlers k (List.mem_flatMap.mpr ⟨b, hb, hOwn⟩)

/-- The lines of handlers are collected as the handlers that they were written for. -/
theorem foldl_catchLines {f : String → Address}
    (hPlace : ∀ b ∈ m.tries, ∀ k ∈ b.handlers, ∀ a ∈ [b.start, b.stop, k.target], f a.labelName = a) :
    m.catchLines.foldl (fun bs c => OpenMethod.addHandler bs (f c.start) (f c.stop) ⟨c.type, f c.handler⟩) [] =
      m.regrouped.tries := by
  have hRanged (b : TryBlock) (hb : b ∈ m.tries) (k : Handler) (hk : k ∈ b.handlers) :
      ((f (k.catchLine b).start, f (k.catchLine b).stop), (⟨(k.catchLine b).type, f (k.catchLine b).handler⟩ : Handler)) =
        (b.extent, k) := by
    have hAll := hPlace b hb k hk
    have hStart : f (Address.labelName b.start) = b.start := hAll _ (by simp)
    have hStop : f (Address.labelName b.stop) = b.stop := hAll _ (by simp)
    have hTarget : f (Address.labelName k.target) = k.target := hAll _ (by simp)
    simp only [Handler.catchLine, TryBlock.extent, hStart, hStop, hTarget]
  rw [OpenMethod.foldl_addHandler, regrouped, catchLines, List.map_flatMap]
  refine congrArg (OpenMethod.gather []) (List.flatMap_congr fun b hb => ?_)
  rw [List.map_map, TryBlock.ranged]
  exact List.map_congr_left fun k hk => hRanged b hb k hk

theorem close_finished (h : m.Outlined) (hValid : m.validate = .ok ()) (number : Nat) :
    (m.finished number).close = .ok m.regrouped := by
  have hAdmits := (validate_eq_ok_iff.mp hValid).1
  have hCode : (m.finished number).code.reverse = m.code.map (Instruction.mapTargets Address.labelName) := by
    have hAll : (m.finished number).code =
        ((m.code.map (Instruction.mapTargets Address.labelName)).take m.code.length).reverse := rfl
    rw [hAll, List.reverse_reverse, List.take_of_length_le (by simp)]
  have hCatches : (m.finished number).catches.reverse = m.catchLines := List.reverse_reverse _
  have hTargets (i : Instruction Address) (hi : i ∈ m.code) (a : Address) (ha : a ∈ i.targets) :
      a ∈ m.labelled ∧ m.code.HasPlace a :=
    ⟨mem_labelled_of_target hi ha, ((hAdmits i hi).targets a ha).hasPlace⟩
  have hJumps : ((m.code.map (Instruction.mapTargets Address.labelName)).forM fun i =>
      i.targets.forM (m.finished number).requireLabel) = .ok () := by
    refine forM_eq_ok_iff.mpr fun j hj => forM_eq_ok_iff.mpr fun name hName => ?_
    obtain ⟨i, hi, rfl⟩ := List.mem_map.mp hj
    rw [Instruction.targets_mapTargets] at hName
    obtain ⟨a, ha, rfl⟩ := List.mem_map.mp hName
    exact requireLabel_finished (hTargets i hi a ha).1 (hTargets i hi a ha).2
  have hRanges : (m.catchLines.forM fun c =>
      [c.start, c.stop, c.handler].forM (m.finished number).requireLabel) = .ok () := by
    refine forM_eq_ok_iff.mpr fun c hc => forM_eq_ok_iff.mpr fun name hName => ?_
    obtain ⟨b, hb, hLine⟩ := List.mem_flatMap.mp hc
    obtain ⟨k, hk, rfl⟩ := List.mem_map.mp hLine
    have hNames : [b.start.labelName, b.stop.labelName, k.target.labelName] =
        [b.start, b.stop, k.target].map Address.labelName := rfl
    change name ∈ [b.start.labelName, b.stop.labelName, k.target.labelName] at hName
    rw [hNames] at hName
    obtain ⟨a, ha, rfl⟩ := List.mem_map.mp hName
    exact requireLabel_finished (h.labels hValid hb hk a ha).1 (h.labels hValid hb hk a ha).2
  have hResolved : (m.code.map (Instruction.mapTargets Address.labelName)).map
      (Instruction.mapTargets ((m.finished number).place m.code.addresses m.stop)) = m.code := by
    rw [List.map_map]
    refine (List.map_congr_left fun i hi => ?_).trans (List.map_id _)
    rw [Function.comp_apply, Instruction.mapTargets_mapTargets]
    refine (Instruction.mapTargets_congr (g := id) fun a ha => ?_).trans (Instruction.mapTargets_id i)
    exact place_finished (hTargets i hi a ha).1 (hTargets i hi a ha).2
  have hTries := foldl_catchLines (m := m) (f := (m.finished number).place m.code.addresses m.stop) fun b hb k hk a ha =>
    place_finished (h.labels hValid hb hk a ha).1 (h.labels hValid hb hk a ha).2
  have hAddresses : Instruction.addressesFrom 0 (m.code.map (Instruction.mapTargets Address.labelName)) = m.code.addresses :=
    Instruction.addressesFrom_map_mapTargets _ _ _
  have hStop : Instruction.totalSize (m.code.map (Instruction.mapTargets Address.labelName)) = m.stop :=
    Instruction.totalSize_map_mapTargets _ _
  unfold OpenMethod.close
  simp only [hCode, hCatches, hJumps, hRanges, hAddresses, hStop, hResolved, hTries]
  change (do m.regrouped.validate; return m.regrouped) = _
  rw [validate_regrouped hValid]
  rfl

/-- A method is read from lines that tell its instructions, with the handlers collected range by range. -/
theorem takes_rowsAround (h : m.Outlined) (hValid : m.validate = .ok ()) {lines : List (List Char)}
    (hLines : List.Forall₂ (Instruction.ToldBy m.locals) m.code lines) {c : OpenClass}
    (hName : c.name = some m.reference.definer) (hNone : c.current = none) :
    c.Takes ((0, m.headerText) :: m.rowsAround lines) { c with methods := m.regrouped :: c.methods } := by
  refine OpenClass.takes_cons fun number => ⟨{ c with current := some (m.begun number) }, ?_, ?_⟩
  · have hSome : m.headerText ≠ [] := List.append_ne_nil_of_left_ne_nil (by decide) _
    have hClass : Text.dropLead? ".class".toList m.headerText = none := rfl
    have hMethod : Text.dropLead? ".method".toList m.headerText =
        some (' ' :: (m.headerWords.toList ++ m.reference.signature.toList)) :=
      Text.dropLead?_append ".method".toList (' ' :: (m.headerWords.toList ++ m.reference.signature.toList))
    rw [OpenClass.addLine_eq_addHeader hNone h.toHeaded.line hSome, OpenClass.addHeader, hClass, hMethod, hName]
    simp only [h.toHeaded.ofHeader_eq]
    rfl
  · have hCatches : ({ c with current := some { m.begun number with locals := m.locals } } : OpenClass).Takes m.catchRows
        { c with current := some (m.reading number 0) } := by
      have hAll := takes_catches (m.tries.flatMap fun b => b.handlers.map fun k => (b, k)) (fun p hp => ?_) c
        { m.begun number with locals := m.locals }
      · simpa [List.map_flatMap, Function.comp_def, begun, reading, catchRows, catchLines, marks] using hAll
      · obtain ⟨b, hb, hPair⟩ := List.mem_flatMap.mp hp
        obtain ⟨k, hk, rfl⟩ := List.mem_map.mp hPair
        exact h.caught k (List.mem_flatMap.mpr ⟨b, hb, hk⟩)
    have hCode := takes_code c number hLines (Nat.le_refl _)
    have hLength : (m.code.addresses.zip lines).length = m.code.length := by
      simp [Code.addresses, Instruction.length_addressesFrom, ← hLines.length_eq]
    have hLabels : (m.reading number m.code.length).labels.lookup (Address.labelName m.stop) = none := by
      have hFree := lookup_marks_eq_none (m := m) (Nat.le_refl m.code.length)
      rwa [Code.addressAt_length] at hFree
    have hStop := takes_label (m := m) c _ hLabels
    have hMarks := m.marks_succ m.code.length
    rw [Code.addressAt_length] at hMarks
    have hPosition : (m.reading number m.code.length).code.length = m.code.length := by simp [reading]
    rw [hPosition] at hStop
    have hEnd := OpenClass.takes_end (c := c) (close_finished h hValid number)
    rw [finished, hMarks] at hEnd
    rw [List.take_of_length_le (Nat.le_of_eq hLength)] at hCode
    rw [hNone]
    exact ((((takes_locals h.toHeaded.locals c number).append hCatches).append hCode).append hStop).append hEnd

/-- Every row around lines that tell instructions is a line. -/
theorem Outlined.line_of_mem (h : m.Outlined) {lines : List (List Char)}
    (hLines : List.Forall₂ (Instruction.ToldBy m.locals) m.code lines) {r : Row}
    (hr : r ∈ (0, m.headerText) :: m.rowsAround lines) : Line r.2 := by
  have hLabels (a : Address) (hMem : r ∈ m.labelRows a) : Line r.2 := by
    unfold labelRows at hMem
    split at hMem
    · obtain rfl := List.mem_singleton.mp hMem
      exact Address.line_label a
    · cases hMem
  have hLocals : Line (".locals ".toList ++ Nat.toDigits 10 m.locals) := by
    have hLead : Listing.Lead ".locals ".toList := ⟨⟨_, _, rfl, by decide⟩, by decide, by decide, by decide⟩
    exact hLead.append_line Nat.toDigits_ne_nil
      (.of_quiet fun _ hc => Listing.quiet_of_isDigit (Text.isDigit_of_mem_toDigits hc))
  rcases List.mem_cons.mp hr with rfl | hBody
  · exact h.toHeaded.line
  simp only [rowsAround, List.mem_append, List.mem_singleton] at hBody
  rcases hBody with (((rfl | hCatch) | hInsn) | hStop) | rfl
  · exact hLocals
  · obtain ⟨b, hb, hRow⟩ := List.mem_flatMap.mp hCatch
    obtain ⟨k, hk, rfl⟩ := List.mem_map.mp hRow
    exact Handler.line_catchText b (h.caught k (List.mem_flatMap.mpr ⟨b, hb, hk⟩))
  · obtain ⟨p, hp, hRow⟩ := List.mem_flatMap.mp hInsn
    rcases List.mem_append.mp hRow with hLabel | hText
    · exact hLabels _ hLabel
    · obtain rfl := List.mem_singleton.mp hText
      obtain ⟨i, hi, hTold⟩ := exists_of_forall₂ hLines.flip (List.of_mem_zip hp).2
      exact hTold.line
  · exact hLabels _ hStop
  · exact Listing.line_end

/-- The listing of one method tells the other one. -/
structure Tells (m m' : Method) : Prop where
  outlined : m'.Outlined
  valid : m'.validate = .ok ()
  header : m.headerText = m'.headerText
  lines : ∃ lines, m.bodyRows = m'.rowsAround lines ∧ List.Forall₂ (Instruction.ToldBy m'.locals) m'.code lines

theorem Legible.tells (h : m.Legible) : m.Tells m where
  outlined := h.toOutlined
  valid := h.valid
  header := rfl
  lines := by
    refine ⟨_, rfl, ?_⟩
    rw [insnLines, List.forall₂_map_right_iff]
    exact List.forall₂_same.mpr h.insns

end Method

namespace ClassDefinition

open Listing (OpenClass)

variable {c : ClassDefinition}

/-- What makes the listing of a class say what the class is. -/
structure Legible (c : ClassDefinition) : Prop where
  parses : Descriptor.parse c.name.text = .ok c.name
  word : ∀ d ∈ c.name.text.toList, Text.isBlank d = false
  clear : Listing.dropComment c.name.text.toList = c.name.text.toList
  methods : ∀ m ∈ c.methods, m.Legible ∧ m.reference.definer = c.name

theorem legible_of_quiet (hParses : Descriptor.parse c.name.text = .ok c.name)
    (hQuiet : c.name.text.toList.all Listing.isQuiet = true)
    (hMethods : ∀ m ∈ c.methods, m.Legible ∧ m.reference.definer = c.name) : c.Legible := by
  have hAll := List.all_eq_true.mp hQuiet
  exact ⟨hParses, fun d hd => (Listing.quiet_iff.mp (hAll d hd)).1, (Listing.Line.of_quiet hAll).clear, hMethods⟩

/-- The rows of a class. -/
def rows (c : ClassDefinition) : List Row :=
  (0, ".class ".toList ++ c.name.text.toList) ::
    c.methods.flatMap fun m => (0, []) :: (0, m.headerText) :: m.bodyRows

theorem toList_listing : c.listing.toList = Method.written c.rows := by
  have hBreak : "\n".toList = ['\n'] := by decide
  have hMethods : (String.join (c.methods.map fun m => "\n" ++ m.listing)).toList =
      Method.written (c.methods.flatMap fun m => (0, []) :: (0, m.headerText) :: m.bodyRows) := by
    rw [String.toList_join, List.flatMap_map, Method.written_flatMap]
    refine congrArg (List.flatMap · c.methods) (funext fun m => ?_)
    rw [String.toList_append, hBreak, m.toList_listing]
    rfl
  rw [rows, ← List.singleton_append, Method.written_append, Method.written_singleton, ← hMethods]
  unfold listing Row.chars
  simp only [String.toList_append, hBreak, List.append_assoc]
  rfl

/-- Methods are read one after another. -/
theorem takes_methods {ms ms' : List Method} {name : Descriptor}
    (h : List.Forall₂ (fun m m' => m.Tells m' ∧ m'.reference.definer = name) ms ms') (done : List Method) :
    (⟨some name, done, none⟩ : OpenClass).Takes (ms.flatMap fun m => (0, []) :: (0, m.headerText) :: m.bodyRows)
      ⟨some name, (ms'.map Method.regrouped).reverse ++ done, none⟩ := by
  induction h generalizing done with
  | nil => exact .refl _
  | @cons m m' ms ms' hFirst _ ih =>
      obtain ⟨hTells, hDefiner⟩ := hFirst
      obtain ⟨lines, hRows, hLines⟩ := hTells.lines
      have hMethod : (⟨some name, done, none⟩ : OpenClass).Takes ((0, m.headerText) :: m.bodyRows)
          ⟨some name, m'.regrouped :: done, none⟩ := by
        rw [hTells.header, hRows]
        exact Method.takes_rowsAround hTells.outlined hTells.valid hLines (congrArg some hDefiner.symm) rfl
      have hRest := ih (m'.regrouped :: done)
      simpa using (OpenClass.takes_blank _ 0).append (hMethod.append hRest)

/-- A name that can stand after the word that begins a class. -/
structure Declares (name : Descriptor) : Prop where
  parses : Descriptor.parse name.text = .ok name
  word : ∀ d ∈ name.text.toList, Text.isBlank d = false
  clear : Listing.dropComment name.text.toList = name.text.toList

theorem Declares.name_ne_nil {name : Descriptor} (h : Declares name) : name.text.toList ≠ [] := fun hEmpty => by
  have hText : name.text = "" := String.toList_eq_nil_iff.mp hEmpty
  have hParses := h.parses
  rw [hText] at hParses
  cases hParses

theorem Declares.line {name : Descriptor} (h : Declares name) : Line (".class ".toList ++ name.text.toList) := by
  have hName : Line name.text.toList :=
    ⟨⟨fun d hd => h.word d (List.mem_of_mem_head? hd), fun d hd => h.word d (List.mem_of_mem_getLast? hd)⟩, h.clear,
      fun hMem => absurd (h.word _ hMem) (by decide)⟩
  have hLead : Listing.Lead ".class ".toList := ⟨⟨_, _, rfl, by decide⟩, by decide, by decide, by decide⟩
  exact hLead.append_line h.name_ne_nil hName

/-- A class is read from a listing that tells its methods, with the handlers of each collected range by range. -/
theorem read_listing_of_tells (hName : Declares c.name) {ms : List Method}
    (h : List.Forall₂ (fun m m' => m.Tells m' ∧ m'.reference.definer = c.name) c.methods ms) :
    read c.listing = .ok ⟨c.name, ms.map Method.regrouped⟩ := by
  have hLine (r : Row) (hr : r ∈ c.rows) : Line r.2 := by
    rcases List.mem_cons.mp hr with rfl | hMethods
    · exact hName.line
    · obtain ⟨m, hm, hRow⟩ := List.mem_flatMap.mp hMethods
      obtain ⟨m', _, hTells, _⟩ := exists_of_forall₂ h hm
      obtain ⟨lines, hRows, hLines⟩ := hTells.lines
      rcases List.mem_cons.mp hRow with rfl | hRow
      · exact .nil
      · rw [hTells.header, hRows] at hRow
        exact hTells.outlined.line_of_mem hLines hRow
  have hClass : OpenClass.empty.Takes [(0, ".class ".toList ++ c.name.text.toList)] ⟨some c.name, [], none⟩ := by
    refine OpenClass.takes_singleton fun k => ?_
    have hRow := OpenClass.addLine_eq_addHeader (c := .empty) (r := (0, ".class ".toList ++ c.name.text.toList)) rfl
      hName.line (List.append_ne_nil_of_left_ne_nil (by decide) _) k
    have hLead : Text.dropLead? ".class".toList (".class ".toList ++ c.name.text.toList) =
        some (' ' :: c.name.text.toList) :=
      Text.dropLead?_append ".class".toList (' ' :: c.name.text.toList)
    rw [hRow, OpenClass.addHeader, hLead]
    simp only [Text.words_blank, Text.words_of_not_blank hName.word hName.name_ne_nil, List.getLast?_singleton,
      String.ofList_toList, hName.parses]
    rfl
  have hRows := hClass.append (takes_methods h [])
  unfold read
  rw [toList_listing, Method.written, Listing.lines_rows hLine]
  rw [rows, ← List.singleton_append, hRows 1]
  simp [bind, Except.bind, OpenClass.close]

/-- A class is read from its listing with the handlers of each method collected range by range. -/
theorem read_listing (h : c.Legible) :
    read c.listing = .ok { c with methods := c.methods.map Method.regrouped } :=
  read_listing_of_tells ⟨h.parses, h.word, h.clear⟩
    (List.forall₂_same.mpr fun m hm => ⟨(h.methods m hm).1.tells, (h.methods m hm).2⟩)

end ClassDefinition

end Dalvik
