import Dalvik.Proofs.Grouping
import Dalvik.Proofs.Pairing
import Dalvik.Proofs.Reading

/-!
What a listing makes of labels. The lines of a method are statements; a label among them stands for the address that
the instruction after it has, which is the sum of the sizes before it. A method that is read has these addresses in
place of labels, and a label that is used is defined by one line.
-/

namespace Dalvik

/-- The addresses of the instructions with the end of the body behind them. -/
theorem Code.addresses_concat_getElem? {code : Code} {n : Nat} (h : n ≤ code.length) :
    (code.addresses ++ [code.size])[n]? = some (code.addressAt n) := by
  have hLength : code.addresses.length = code.length := Instruction.length_addressesFrom 0 code
  rcases Nat.lt_or_eq_of_le h with hInside | rfl
  · rw [List.getElem?_append_left (hLength ▸ hInside), addresses_getElem?, if_pos hInside]
  · rw [← hLength, List.getElem?_concat_length, hLength, addressAt_length]

namespace Listing

/-- What a line of a method says. -/
inductive Statement where
  | label (name : String)
  | instruction (i : Instruction String)
  | handler (c : CatchLine)
  | locals (count : Nat)
  /-- A directive of no effect on the code. -/
  | remark

namespace Statement

/-- The label that a line defines. -/
def label? : Statement → Option String
  | label name => some name
  | _ => none

/-- The instruction that a line adds. -/
def instruction? : Statement → Option (Instruction String)
  | instruction i => some i
  | _ => none

/-- The handler that a line adds. -/
def handler? : Statement → Option CatchLine
  | handler c => some c
  | _ => none

/-- The number of local registers that a line declares. -/
def locals? : Statement → Option Nat
  | locals count => some count
  | _ => none

/-- The labels that a line uses: the targets of jumps, the targets of cases, and the ends and the target of a handler. -/
def uses : Statement → List String
  | instruction i => i.targets
  | handler c => [c.start, c.stop, c.handler]
  | _ => []

/-- The type that a handler is for. -/
def handlerType? (type : List Char) : Option (Option Descriptor) :=
  if type = "all".toList then some none else (Descriptor.parse (String.ofList type)).toOption.map some

/-- Reads a `.catch` line. -/
def readHandler? (line : List Char) : Option Statement :=
  (readCatch? line).bind fun parts =>
    (handlerType? parts.type).map fun type => handler ⟨type, parts.start, parts.stop, parts.handler⟩

/-- Reads a line that starts with a dot. -/
def readDirective? (line : List Char) : Option Statement :=
  match Text.dropLead? ".locals".toList line with
  | some rest => (Text.unsigned? 0x10000 (Text.trim rest)).map locals
  | none =>
    if ".registers".toList.isPrefixOf line then none
    else if ".catch".toList.isPrefixOf line then readHandler? line
    else some remark

/-- Reads a line of a method that has a number of local registers so far. -/
def read? (count : Nat) (line : List Char) : Option Statement :=
  if line.head? = some '.' then readDirective? line
  else
    match labelName? line with
    | some name => some (label name)
    | none => (readLine count line).toOption.map instruction

/-- Reads the lines of a method one by one. -/
def readAll (count : Nat) : List (List Char) → List (Option Statement)
  | [] => []
  | line :: lines =>
    let st := read? count line
    st :: readAll ((st.bind locals?).getD count) lines

/-- What the lines of a body say, as far as they can be read. -/
def ofBody (body : List (List Char)) : List Statement := (readAll 0 body).filterMap id

/-- The instructions of a method. -/
def code (sts : List Statement) : List (Instruction String) := sts.filterMap instruction?

/-- The labels that a method defines, in the order of their lines. -/
def labels (sts : List Statement) : List String := sts.filterMap label?

/-- The handlers of a method. -/
def catches (sts : List Statement) : List CatchLine := sts.filterMap handler?

/-- The number of local registers, which the last line that declares it counts for. -/
def localCount (count : Nat) (sts : List Statement) : Nat := (sts.filterMap locals?).getLast?.getD count

/-- The lines before the one that defines a label. -/
def before (sts : List Statement) (name : String) : List Statement := sts.takeWhile fun st => st.label? ≠ some name

/-- How many instructions stand before a label. -/
def position (sts : List Statement) (name : String) : Nat := (code (before sts name)).length

/-- The address that a label stands for: the sum of the sizes of the instructions before it. -/
def place (sts : List Statement) (name : String) : Address := Instruction.totalSize (code (before sts name))

/-- The handlers of a method with the addresses that their labels stand for. -/
def ranged (sts : List Statement) : List RangedHandler :=
  (catches sts).map fun c => ((place sts c.start, place sts c.stop), ⟨c.type, place sts c.handler⟩)

theorem filterMap_concat {α β : Type} (f : α → Option β) (as : List α) (a : α) :
    (as ++ [a]).filterMap f = as.filterMap f ++ (f a).toList := by
  cases h : f a <;> simp [h]

variable {sts : List Statement} {st : Statement} {name : String} {count : Nat}

theorem mem_uses : name ∈ sts.flatMap uses ↔
    (∃ i ∈ code sts, name ∈ i.targets) ∨ ∃ c ∈ catches sts, name ∈ [c.start, c.stop, c.handler] := by
  simp only [List.mem_flatMap, code, catches, List.mem_filterMap]
  constructor
  · rintro ⟨st, hst, hName⟩
    cases st with
    | instruction i => exact .inl ⟨i, ⟨_, hst, rfl⟩, hName⟩
    | handler c => exact .inr ⟨c, ⟨_, hst, rfl⟩, hName⟩
    | _ => cases hName
  · rintro (⟨i, ⟨st, hst, hi⟩, hName⟩ | ⟨c, ⟨st, hst, hc⟩, hName⟩)
    · cases st with
      | instruction j => exact ⟨_, hst, (Option.some.inj hi) ▸ hName⟩
      | _ => cases hi
    · cases st with
      | handler d => exact ⟨_, hst, (Option.some.inj hc) ▸ hName⟩
      | _ => cases hc

theorem mem_labels : name ∈ labels sts ↔ ∃ st ∈ sts, st.label? = some name := List.mem_filterMap

theorem before_append_of_mem (h : name ∈ labels sts) (more : List Statement) :
    before (sts ++ more) name = before sts name := by
  induction sts with
  | nil => cases h
  | cons st sts ih =>
      rw [before, before, List.cons_append, List.takeWhile_cons, List.takeWhile_cons]
      split
      · rename_i hOther
        obtain ⟨x, hx, hName⟩ := mem_labels.mp h
        have hLater : x ∈ sts := (List.mem_cons.mp hx).resolve_left fun hHere => by simp [← hHere, hName] at hOther
        exact congrArg (st :: ·) (ih (mem_labels.mpr ⟨x, hLater, hName⟩))
      · rfl

theorem position_append_of_mem (h : name ∈ labels sts) (more : List Statement) :
    position (sts ++ more) name = position sts name := by
  rw [position, position, before_append_of_mem h]

theorem before_of_not_mem (h : name ∉ labels sts) (more : List Statement) :
    before (sts ++ more) name = sts ++ before more name :=
  List.takeWhile_append_of_pos fun x hx => decide_eq_true fun hName => h (mem_labels.mpr ⟨x, hx, hName⟩)

theorem localCount_cons : localCount count (st :: sts) = localCount (st.locals?.getD count) sts := by
  unfold localCount
  cases h : st.locals? with
  | none => simp [h]
  | some n => simp [h, List.getLast?_cons]

theorem localCount_concat : localCount count (sts ++ [st]) = st.locals?.getD (localCount count sts) := by
  rw [localCount, localCount, filterMap_concat]
  cases st.locals? <;> simp

/-- Lines that can be read are followed by others. -/
theorem readAll_append {lines : List (List Char)} (h : readAll count lines = sts.map some) (more : List (List Char)) :
    readAll count (lines ++ more) = sts.map some ++ readAll (localCount count sts) more := by
  induction lines generalizing count sts with
  | nil =>
      obtain rfl := List.map_eq_nil_iff.mp h.symm
      rfl
  | cons line lines ih =>
      obtain ⟨st, sts, rfl, hFirst, hRest⟩ := List.map_eq_cons_iff.mp h.symm
      rw [← hFirst] at hRest
      rw [localCount_cons, List.map_cons, List.cons_append, List.cons_append, readAll, ← hFirst]
      exact congrArg (some st :: ·) (ih hRest.symm)

theorem ofBody_eq {body : List (List Char)} (h : readAll 0 body = sts.map some) : ofBody body = sts := by
  rw [ofBody, h, List.filterMap_map]
  exact List.filterMap_some

theorem position_le (sts : List Statement) (name : String) : position sts name ≤ (code sts).length :=
  ((List.takeWhile_prefix _).filterMap _).length_le

/-- The instructions before a label are the first ones of the method. -/
theorem take_position (sts : List Statement) (name : String) :
    (code sts).take (position sts name) = code (before sts name) :=
  (List.prefix_iff_eq_take.mp ((List.takeWhile_prefix _).filterMap _)).symm

theorem addressAt_position (f : String → Address) (sts : List Statement) (name : String) :
    Code.addressAt ((code sts).map (Instruction.mapTargets f)) (position sts name) = place sts name := by
  rw [Code.addressAt, Code.size, ← List.map_take, Instruction.totalSize_map_mapTargets, take_position, place]

/-- The layout of a body has the place of a label where the next instruction has its address, and the end where there is
none. -/
theorem addresses_getElem?_position (f : String → Address) (sts : List Statement) (name : String) :
    (Code.addresses ((code sts).map (Instruction.mapTargets f)) ++
      [Code.size ((code sts).map (Instruction.mapTargets f))])[position sts name]? = some (place sts name) := by
  have hBound : position sts name ≤ ((code sts).map (Instruction.mapTargets f)).length := by
    rw [List.length_map]
    exact position_le sts name
  rw [Code.addresses_concat_getElem? hBound, addressAt_position]

/-- The labels that are used are all that matters to the instructions. -/
theorem code_congr {f : String → Address} (h : ∀ name ∈ sts.flatMap uses, f name = place sts name) :
    (code sts).map (Instruction.mapTargets f) = (code sts).map (Instruction.mapTargets (place sts)) :=
  List.map_congr_left fun i hi => Instruction.mapTargets_congr fun t ht => h t (mem_uses.mpr (.inl ⟨i, hi, ht⟩))

/-- The labels that are used are all that matters to the handlers. -/
theorem ranged_congr {f : String → Address} (h : ∀ name ∈ sts.flatMap uses, f name = place sts name) :
    ((catches sts).map fun c => ((f c.start, f c.stop), (⟨c.type, f c.handler⟩ : Handler))) = ranged sts := by
  refine List.map_congr_left fun c hc => ?_
  have hEnd (name : String) (hName : name ∈ [c.start, c.stop, c.handler]) : f name = place sts name :=
    h name (mem_uses.mpr (.inr ⟨c, hc, hName⟩))
  rw [hEnd c.start (by simp), hEnd c.stop (by simp), hEnd c.handler (by simp)]

end Statement

open Statement

/-- A method is what statements make of it: the labels in it are resolved, and all that it mentions exists. -/
structure Assembled (sts : List Statement) (m : Method) : Prop where
  /-- A label that is used is defined by one line. -/
  defined : ∀ name ∈ sts.flatMap uses, (labels sts).count name = 1
  /-- Jumps and cases go to the places of their labels. -/
  code : m.code = (code sts).map (Instruction.mapTargets (place sts))
  locals : m.locals = localCount 0 sts
  /-- The block of a range has the handlers that are stated for the range, in the same order. -/
  handlers : ∀ x, TryBlock.within m.tries x = ((ranged sts).filter fun e => e.1 = x).map Prod.snd
  /-- Ranges are between the places of labels. -/
  bounds : ∀ b ∈ m.tries, ∃ c ∈ catches sts, b.extent = (place sts c.start, place sts c.stop)
  distinct : (m.tries.map TryBlock.extent).Nodup
  /-- The place of a label is the address that the instruction after it has in the method, or the end. -/
  layout : ∀ name ∈ sts.flatMap uses, (m.code.addresses ++ [m.stop])[position sts name]? = some (place sts name)
  admits : ∀ i ∈ m.code, m.Admits i
  targets : ∀ h ∈ m.handlers, m.code.HasAddress h.target

namespace OpenMethod

/-- What has been read of a method are statements. -/
structure Holds (m : OpenMethod) (sts : List Statement) : Prop where
  code : m.code.reverse = Statement.code sts
  catches : m.catches.reverse = Statement.catches sts
  locals : m.locals = localCount 0 sts
  labels : ∀ name, m.labels.lookup name = if name ∈ Statement.labels sts then some (position sts name) else none
  unique : (Statement.labels sts).Nodup

variable {m m' : OpenMethod} {sts : List Statement} {st : Statement} {name : String}

/-- A statement that is no label adds what it says. -/
theorem Holds.add (h : m.Holds sts) (hLabel : st.label? = none) (hLabels : m'.labels = m.labels)
    (hCode : m'.code = st.instruction?.toList ++ m.code) (hCatches : m'.catches = st.handler?.toList ++ m.catches)
    (hLocals : m'.locals = st.locals?.getD m.locals) : m'.Holds (sts ++ [st]) := by
  have hSame : Statement.labels (sts ++ [st]) = Statement.labels sts := by simp [Statement.labels, hLabel]
  refine ⟨?_, ?_, ?_, fun name => ?_, hSame ▸ h.unique⟩
  · rw [hCode, List.reverse_append, h.code, Statement.code, Statement.code, filterMap_concat]
    cases st.instruction? <;> rfl
  · rw [hCatches, List.reverse_append, h.catches, Statement.catches, Statement.catches, filterMap_concat]
    cases st.handler? <;> rfl
  · rw [hLocals, h.locals, localCount_concat]
  · rw [hLabels, h.labels, hSame]
    exact ite_congr rfl (fun hMem => congrArg some (position_append_of_mem hMem _).symm) fun _ => rfl

/-- A new label stands for what comes next. -/
theorem Holds.addLabel (h : m.Holds sts) (hNew : m.labels.lookup name = none) :
    Holds { m with labels := (name, m.code.length) :: m.labels } (sts ++ [.label name]) := by
  have hFresh : name ∉ Statement.labels sts := fun hMem => by simp [h.labels, hMem] at hNew
  have hLabels : Statement.labels (sts ++ [.label name]) = Statement.labels sts ++ [name] := filterMap_concat _ _ _
  have hCode : Statement.code (sts ++ [.label name]) = Statement.code sts := by simp [Statement.code, instruction?]
  refine ⟨h.code.trans hCode.symm, ?_, ?_, fun other => ?_, ?_⟩
  · rw [Statement.catches, filterMap_concat]
    exact h.catches.trans (List.append_nil _).symm
  · rw [localCount_concat]
    exact h.locals
  · rw [List.lookup_cons, hLabels]
    by_cases hHere : other = name
    · subst hHere
      have hBefore : before (sts ++ [.label other]) other = sts := by
        rw [before_of_not_mem hFresh]
        simp [before, label?]
      simp [position, hBefore, ← h.code]
    · simp only [beq_eq_false_iff_ne.mpr hHere, h.labels, List.mem_append, List.mem_singleton, hHere, or_false]
      exact ite_congr rfl (fun hMem => congrArg some (position_append_of_mem hMem _).symm) fun _ => rfl
  · rw [hLabels, ← List.concat_eq_append]
    exact List.Nodup.concat hFresh h.unique

theorem addCatch_holds (h : m.Holds sts) (number : Nat) (line : List Char) :
    Ends (m.addCatch number line) (fun m' => ∃ st, readHandler? line = some st ∧ m'.Holds (sts ++ [st]))
      fun _ => True := by
  unfold addCatch readHandler?
  cases readCatch? line with
  | none => trivial
  | some parts =>
      simp only [Option.bind_some, handlerType?]
      split
      · exact ⟨_, rfl, h.add rfl rfl rfl rfl rfl⟩
      · rw [ends_bind]
        cases Descriptor.parse (String.ofList parts.type) with
        | error e => trivial
        | ok d => exact ⟨_, rfl, h.add rfl rfl rfl rfl rfl⟩

theorem addDirective_holds (h : m.Holds sts) (number : Nat) (line : List Char) :
    Ends (m.addDirective number line) (fun m' => ∃ st, readDirective? line = some st ∧ m'.Holds (sts ++ [st]))
      fun _ => True := by
  unfold addDirective readDirective?
  cases Text.dropLead? ".locals".toList line with
  | some rest =>
      dsimp only
      cases Text.unsigned? 0x10000 (Text.trim rest) with
      | some n => exact ⟨.locals n, rfl, h.add rfl rfl rfl rfl rfl⟩
      | none => trivial
  | none =>
      dsimp only
      split
      · trivial
      · split
        · exact addCatch_holds h number line
        · exact ⟨.remark, rfl, h.add rfl rfl rfl rfl rfl⟩

/-- A line that is read is one more statement. -/
theorem addLine_holds (h : m.Holds sts) (number : Nat) (line : List Char) :
    Ends (m.addLine number line) (fun m' => ∃ st, read? m.locals line = some st ∧ m'.Holds (sts ++ [st]))
      fun _ => True := by
  unfold addLine read?
  split
  · exact addDirective_holds h number line
  · cases labelName? line with
    | some name =>
        dsimp only
        split
        · trivial
        · rename_i hNew
          exact ⟨.label name, rfl, h.addLabel (Option.not_isSome_iff_eq_none.mp hNew)⟩
    | none =>
        dsimp only
        cases readLine m.locals line with
        | ok i => exact ⟨.instruction i, rfl, h.add rfl rfl rfl rfl rfl⟩
        | error c => trivial

theorem requireLabel_eq_ok_iff : m.requireLabel name = .ok () ↔ (m.labels.lookup name).isSome = true := by
  unfold requireLabel
  split <;> simp_all

/-- A label that is defined stands for the place of its line. -/
theorem Holds.place_eq (h : m.Holds sts) (hDefined : name ∈ Statement.labels sts) :
    m.place (Instruction.addressesFrom 0 m.code.reverse) (Instruction.totalSize m.code.reverse) name =
      Statement.place sts name := by
  let f : String → Address := fun _ => 0
  have hAddresses : Instruction.addressesFrom 0 m.code.reverse =
      Code.addresses ((Statement.code sts).map (Instruction.mapTargets f)) := by
    rw [h.code]
    exact (Instruction.addressesFrom_map_mapTargets f 0 _).symm
  have hStop : Instruction.totalSize m.code.reverse =
      Code.size ((Statement.code sts).map (Instruction.mapTargets f)) := by
    rw [h.code]
    exact (Instruction.totalSize_map_mapTargets f _).symm
  rw [OpenMethod.place, h.labels, if_pos hDefined, Option.bind_some, hAddresses, hStop, Code.addresses_getElem?,
    ← addressAt_position f]
  split
  · rfl
  · exact (Code.addressAt_of_length_le (Nat.le_of_not_lt ‹_›)).symm

theorem Holds.mem_labels (h : m.Holds sts)
    (hTargets : (m.code.reverse.forM fun i => i.targets.forM m.requireLabel) = .ok ())
    (hCatches : (m.catches.reverse.forM fun c => [c.start, c.stop, c.handler].forM m.requireLabel) = .ok ())
    (hName : name ∈ sts.flatMap uses) : name ∈ Statement.labels sts := by
  have hRequired : m.requireLabel name = .ok () := by
    rcases mem_uses.mp hName with ⟨i, hi, hTarget⟩ | ⟨c, hc, hEnd⟩
    · exact Method.forM_eq_ok_iff.mp (Method.forM_eq_ok_iff.mp hTargets i (h.code ▸ hi)) name hTarget
    · exact Method.forM_eq_ok_iff.mp (Method.forM_eq_ok_iff.mp hCatches c (h.catches ▸ hc)) name hEnd
  have hDefined := requireLabel_eq_ok_iff.mp hRequired
  rw [h.labels] at hDefined
  by_contra hUndefined
  simp [hUndefined] at hDefined

/-- A method that is complete is assembled from its statements. -/
theorem close_assembled (h : m.Holds sts) : Ends m.close (Assembled sts) fun _ => True := by
  refine ends_of_eq fun method hClose => ?_
  obtain ⟨_, hTargets, hClose⟩ := except_bind_eq_ok.mp hClose
  obtain ⟨_, hCatches, hClose⟩ := except_bind_eq_ok.mp hClose
  obtain ⟨_, hValid, hMethod⟩ := except_bind_eq_ok.mp hClose
  obtain rfl := Except.ok.inj hMethod
  have hDefined (name : String) (hName : name ∈ sts.flatMap uses) := h.mem_labels hTargets hCatches hName
  have hPlace (name : String) (hName : name ∈ sts.flatMap uses) := h.place_eq (hDefined name hName)
  generalize m.place (Instruction.addressesFrom 0 m.code.reverse) (Instruction.totalSize m.code.reverse) = f
    at hPlace hValid ⊢
  obtain ⟨hAdmits, hHandlers⟩ := Method.validate_eq_ok_iff.mp hValid
  have hCode : m.code.reverse.map (Instruction.mapTargets f) =
      (Statement.code sts).map (Instruction.mapTargets (Statement.place sts)) := h.code ▸ code_congr hPlace
  have hTries : m.catches.reverse.foldl (fun tries c =>
      addHandler tries (f c.start) (f c.stop) ⟨c.type, f c.handler⟩) [] = gather [] (ranged sts) := by
    rw [foldl_addHandler, h.catches, ranged_congr hPlace]
  have hNone : (([] : List TryBlock).map TryBlock.extent).Nodup := List.nodup_nil
  obtain ⟨hDistinct, hExtents, hWithin⟩ := gather_distinct (ranged sts) hNone
  rw [← hTries] at hDistinct hExtents hWithin
  have hOnce (name : String) (hName : name ∈ sts.flatMap uses) : (Statement.labels sts).count name = 1 :=
    List.count_eq_one_of_mem h.unique (hDefined name hName)
  refine ⟨hOnce, hCode, h.locals, hWithin, fun b hb => ?_, hDistinct, fun name _ => ?_, hAdmits, hHandlers⟩
  · have hRange := (hExtents _ (List.mem_map_of_mem hb)).resolve_left List.not_mem_nil
    obtain ⟨e, he, hSame⟩ := List.mem_map.mp hRange
    obtain ⟨c, hc, rfl⟩ := List.mem_map.mp he
    exact ⟨c, hc, hSame.symm⟩
  · exact hCode ▸ addresses_getElem?_position (Statement.place sts) sts name

theorem ofHeader_holds (definer : Descriptor) (number : Nat) (header : List Char) :
    Ends (ofHeader definer number header) (fun m => m.Holds []) fun _ => True := by
  unfold ofHeader
  dsimp only
  split
  · trivial
  · rw [ends_bind]
    refine ends_of_all fun _ => ?_
    rw [ends_bind]
    exact ends_of_all fun _ => ⟨rfl, rfl, rfl, fun _ => rfl, List.nodup_nil⟩

end OpenMethod

/-- The lines of a listing without comments, the blanks around them, and blank lines. -/
def texts (lines : List (List Char × Nat)) : List (List Char) :=
  (lines.map fun l => Text.trim (dropComment l.1)).filter fun text => !text.isEmpty

/-- The bodies of the methods among lines. Some lines of the first one may have been passed already. -/
def bodiesFrom : Option (List (List Char)) → List (List Char) → List (List (List Char))
  | none, [] => []
  | some body, [] => [body]
  | none, line :: lines =>
    if (Text.dropLead? ".method".toList line).isSome then bodiesFrom (some []) lines else bodiesFrom none lines
  | some body, line :: lines =>
    if line = ".end method".toList then body :: bodiesFrom none lines else bodiesFrom (some (body ++ [line])) lines

/-- The bodies of the methods of a listing, line by line. -/
def bodies (listing : String) : List (List (List Char)) :=
  bodiesFrom none (texts ((Text.lines listing.toList).zipIdx 1))

/-- Every line of a body can be read, and a method is what they make of it. -/
def Assembles (body : List (List Char)) (m : Method) : Prop :=
  readAll 0 body = (ofBody body).map some ∧ Assembled (ofBody body) m

namespace OpenClass

/-- The method that is being read is what the lines of its body make of it so far. -/
def Reads (c : OpenClass) (body? : Option (List (List Char))) : Prop :=
  match c.current, body? with
  | none, none => True
  | some m, some body => ∃ sts, readAll 0 body = sts.map some ∧ m.Holds sts
  | _, _ => False

/-- What some lines do to a class of which others have been read: the bodies that end in them are methods more, and the
lines after them go on with the body that is open then. -/
structure Advances (c : OpenClass) (body? : Option (List (List Char))) (lines : List (List Char)) (c' : OpenClass)
    (next? : Option (List (List Char))) : Prop where
  reads : c'.Reads next?
  methods : ∃ bs ms, List.Forall₂ Assembles bs ms ∧ c'.methods = ms.reverse ++ c.methods ∧
    ∀ more, bodiesFrom body? (lines ++ more) = bs ++ bodiesFrom next? more

variable {c c' c'' : OpenClass} {body? next? last? : Option (List (List Char))} {lines lines' : List (List Char)}

theorem Advances.refl (h : c.Reads body?) : c.Advances body? [] c body? :=
  ⟨h, [], [], .nil, rfl, fun _ => rfl⟩

theorem Advances.trans (h : c.Advances body? lines c' next?) (hNext : c'.Advances next? lines' c'' last?) :
    c.Advances body? (lines ++ lines') c'' last? := by
  obtain ⟨bs, ms, hBodies, hMethods, hFrom⟩ := h.methods
  obtain ⟨bs', ms', hBodies', hMethods', hFrom'⟩ := hNext.methods
  refine ⟨hNext.reads, bs ++ bs', ms ++ ms', List.rel_append hBodies hBodies', ?_, fun more => ?_⟩
  · rw [hMethods', hMethods, List.reverse_append, List.append_assoc]
  · rw [List.append_assoc, hFrom, hFrom', List.append_assoc]

/-- A line that ends no body. -/
theorem Advances.pass {line : List Char} (hReads : c'.Reads next?) (hMethods : c'.methods = c.methods)
    (hFrom : ∀ more, bodiesFrom body? (line :: more) = bodiesFrom next? more) : c.Advances body? [line] c' next? :=
  ⟨hReads, [], [], .nil, hMethods, hFrom⟩

/-- A line outside methods begins one or leaves none open. -/
theorem addHeader_advances (h : c.current = none) (number : Nat) (line : List Char) :
    Ends (c.addHeader number line) (fun c' => ∃ next?, c.Advances none [line] c' next?) fun _ => True := by
  have hIdle {d : OpenClass} (hd : d.current = none) : d.Reads none := by simp [Reads, hd]
  have hOther (hLead : Text.dropLead? ".method".toList line = none) (more : List (List Char)) :
      bodiesFrom none (line :: more) = bodiesFrom none more := by
    rw [bodiesFrom, hLead]
    rfl
  unfold addHeader
  cases hClass : Text.dropLead? ".class".toList line with
  | some rest =>
      have hLead : Text.dropLead? ".method".toList line = none := by
        rw [Text.dropLead?_eq_append hClass]
        rfl
      dsimp only
      split
      · trivial
      · rw [ends_bind]
        exact ends_of_all fun name => ⟨none, .pass (hIdle h) rfl (hOther hLead)⟩
  | none =>
      dsimp only
      cases hMethod : Text.dropLead? ".method".toList line with
      | some rest =>
          dsimp only
          split
          · trivial
          · rw [ends_bind]
            refine (OpenMethod.ofHeader_holds _ number rest).imp (fun m hm => ⟨some [], ?_⟩) fun _ _ => trivial
            refine .pass ⟨[], rfl, hm⟩ rfl fun more => ?_
            rw [bodiesFrom, hMethod]
            rfl
      | none =>
          dsimp only
          split
          · exact ⟨none, .pass (hIdle h) rfl (hOther hMethod)⟩
          · trivial

/-- A line inside a method ends its body or is a statement more. -/
theorem addLine_advances (h : c.Reads body?) (line : List Char × Nat) :
    Ends (c.addLine line) (fun c' => ∃ next?, c.Advances body? (texts [line]) c' next?) fun _ => True := by
  unfold addLine
  simp only [texts, List.map_cons, List.map_nil]
  generalize Text.trim (dropComment line.1) = text
  split
  · rename_i hBlank
    exact ⟨body?, by simpa [hBlank] using Advances.refl h⟩
  · rename_i hText
    have hKept : [text].filter (fun text => !text.isEmpty) = [text] := by simp [hText]
    rw [hKept]
    unfold Reads at h
    split at h
    · rename_i hCurrent
      rw [hCurrent]
      exact addHeader_advances hCurrent line.2 text
    · rename_i m body hCurrent
      obtain ⟨sts, hBody, hm⟩ := h
      rw [hCurrent]
      dsimp only
      split
      · rename_i hEnd
        rw [ends_bind]
        refine (OpenMethod.close_assembled hm).imp (fun method hMethod => ⟨none, trivial, ?_⟩) fun _ _ => trivial
        have hAssembles : Assembles body method := by
          rw [Assembles, ofBody_eq hBody]
          exact ⟨hBody, hMethod⟩
        refine ⟨[body], [method], .cons hAssembles .nil, rfl, fun more => ?_⟩
        rw [List.singleton_append, bodiesFrom, if_pos hEnd]
        rfl
      · rename_i hInside
        rw [ends_bind]
        refine (OpenMethod.addLine_holds hm line.2 text).imp (fun m' ⟨st, hRead, hm'⟩ => ?_) fun _ _ => trivial
        have hMore : readAll 0 (body ++ [text]) = (sts ++ [st]).map some := by
          rw [readAll_append hBody, ← hm.locals, readAll, hRead, List.map_append]
          rfl
        refine ⟨some (body ++ [text]), .pass ⟨sts ++ [st], hMore, hm'⟩ rfl fun more => ?_⟩
        rw [bodiesFrom, if_neg hInside]
    · exact h.elim

theorem foldlM_addLine_advances (h : c.Reads body?) (lines : List (List Char × Nat)) :
    Ends (lines.foldlM addLine c) (fun c' => ∃ next?, c.Advances body? (texts lines) c' next?) fun _ => True := by
  induction lines generalizing c body? with
  | nil => exact ⟨body?, .refl h⟩
  | cons line lines ih =>
      have hTexts : texts (line :: lines) = texts [line] ++ texts lines := by simp [texts, ← List.filter_append]
      rw [List.foldlM_cons, ends_bind, hTexts]
      refine (addLine_advances h line).imp (fun c' ⟨next?, hLine⟩ => ?_) fun _ _ => trivial
      exact (ih hLine.reads).imp (fun c'' ⟨last?, hLines⟩ => ⟨last?, hLine.trans hLines⟩) fun _ _ => trivial

end OpenClass

end Listing

namespace ClassDefinition

open Listing

theorem assembles_of_read {listing : String} {d : ClassDefinition} (h : read listing = .ok d) :
    List.Forall₂ Assembles (bodies listing) d.methods := by
  obtain ⟨c, hLines, hClose⟩ := except_bind_eq_ok.mp h
  have hEmpty : OpenClass.empty.Reads none := trivial
  obtain ⟨next?, hReads, bs, ms, hBodies, hMethods, hFrom⟩ :=
    (OpenClass.foldlM_addLine_advances hEmpty _).of_eq_ok hLines
  unfold OpenClass.close at hClose
  split at hClose
  · cases hClose
  · rename_i hCurrent
    split at hClose
    · cases hClose
    · obtain rfl := Except.ok.inj hClose
      cases next? with
      | some body => simp [OpenClass.Reads, hCurrent] at hReads
      | none =>
          have hAll : bodies listing = bs := by
            have hEnd := hFrom []
            rwa [List.append_nil, bodiesFrom, List.append_nil] at hEnd
          have hRead : c.methods.reverse = ms := by rw [hMethods, OpenClass.empty, List.append_nil, List.reverse_reverse]
          rw [hAll, hRead]
          exact hBodies

/-- A method that is read has the address of the next instruction in place of a label, or the end of the body; a label
that is used and not defined by one line is an error. -/
theorem read_assembles (listing : String) :
    (∀ d, read listing = .ok d → List.Forall₂ Assembles (bodies listing) d.methods) ∧
      ∀ body ∈ bodies listing, ∀ name ∈ (Statement.ofBody body).flatMap Statement.uses,
        (Statement.labels (Statement.ofBody body)).count name ≠ 1 → ∃ e, read listing = .error e := by
  refine ⟨fun d hRead => assembles_of_read hRead, fun body hBody name hName hCount => ?_⟩
  cases hRead : read listing with
  | error e => exact ⟨e, rfl⟩
  | ok d =>
      obtain ⟨m, _, _, hAssembled⟩ := exists_of_forall₂ (assembles_of_read hRead) hBody
      exact (hCount (hAssembled.defined name hName)).elim

/-- Labels that are used before and after their lines, two at one place, and one at the end. -/
def loopListing : String :=
  ".class La;\n" ++
  ".method static m(I)V\n" ++
  "goto :b\n" ++
  ":a\n" ++
  ":c\n" ++
  "switch p0, \x7b1 -> :a, 2 -> :c\x7d\n" ++
  ":b\n" ++
  "return-void\n" ++
  ".catch all \x7b:a .. :end\x7d :b\n" ++
  ":end\n" ++
  ".end method\n"

/-- The method of `loopListing`. -/
def loopMethod : Method where
  reference := ⟨⟨"La;"⟩, "m", [.int], .void⟩
  flags := { static := true }
  locals := 0
  code := [.goto 6, .switch 0 [(1, 3), (2, 3)], .returnVoid]
  tries := [⟨3, 7, [⟨none, 6⟩]⟩]

/-- A label that no line defines. -/
def danglingListing : String :=
  ".class La;\n" ++
  ".method static m()V\n" ++
  "goto :a\n" ++
  ".end method\n"

theorem read_assembles_loopListing :
    read loopListing = .ok ⟨⟨"La;"⟩, [loopMethod]⟩ ∧
      List.Forall₂ Assembles (bodies loopListing) [loopMethod] ∧ ∃ e, read danglingListing = .error e := by
  have hRead : read loopListing = .ok ⟨⟨"La;"⟩, [loopMethod]⟩ := by
    -- The characters of a long text cost the kernel much more than those of its lines.
    unfold read loopListing
    simp only [String.toList_append, -String.reduceAppend, -String.reduceToList]
    decide +kernel
  have hDangling : ∃ body ∈ bodies danglingListing, ∃ name ∈ (Statement.ofBody body).flatMap Statement.uses,
      (Statement.labels (Statement.ofBody body)).count name ≠ 1 := by decide +kernel
  obtain ⟨body, hBody, name, hName, hCount⟩ := hDangling
  refine ⟨hRead, (read_assembles loopListing).1 _ hRead, ?_⟩
  exact (read_assembles danglingListing).2 body hBody name hName hCount

end ClassDefinition

end Dalvik
