import Dalvik.CommandLine
import Dalvik.Proofs.Telling

/-!
What the command line writes is read again. The methods of the class are refitted one after the other, with what is found
out about each of them while the classes are as they have come to be. The listing in the end is accepted as long as the
names that are found out are plain.
-/

namespace Dalvik

variable {T : Finding → Prop}

/-- One method comes from another by changes of an optimization, and is valid if the other one is. -/
structure Method.Improves (T : Finding → Prop) (m m' : Method) : Prop where
  refitted : Method.Refitted T m m'
  valid : m.validate = .ok () → m'.validate = .ok ()

namespace Method.Improves

variable {m m' m'' : Method}

theorem refl (m : Method) : Improves T m m := ⟨.refl m, id⟩

theorem trans (h : Improves T m m') (h' : Improves T m' m'') : Improves T m m'' where
  refitted := h.refitted.trans h'.refitted
  valid := h'.valid ∘ h.valid

end Method.Improves

theorem Machine.optimize_improves {m : Machine} {weak : Bool} {limit : Nat} {method method' : Method} {counts : Counts}
    (hFound : ∀ f ∈ m.findings weak limit maxRounds method, T f)
    (h : m.optimize weak limit method = .ok (method', counts)) :
    Method.Improves T method method' :=
  ⟨(optimizeFor_refitted hFound h).1, (optimizeFor_refitted hFound h).2⟩

namespace Classes

/-- Methods that correspond to others still do after one of them has been replaced by what corresponds to the same ones. -/
theorem forall₂_replaceMethod {R : Method → Method → Prop} {olds ms : List Method} {m new : Method}
    (h : List.Forall₂ R olds ms) (hFind : ms.find? (fun x => x.reference = new.reference) = some m)
    (hNew : ∀ old, R old m → R old new) : List.Forall₂ R olds (replaceMethod new ms) := by
  induction h with
  | nil => cases hFind
  | @cons old x olds ms hFirst hRest ih =>
      rw [replaceMethod]
      by_cases hHere : x.reference = new.reference
      · rw [List.find?_cons_of_pos (by simpa using hHere)] at hFind
        obtain rfl := Option.some.inj hFind
        rw [if_pos hHere]
        exact .cons (hNew old hFirst) hRest
      · rw [List.find?_cons_of_neg (by simpa using hHere)] at hFind
        rw [if_neg hHere]
        exact .cons hFirst (ih hFind)

/-- The only local class is what a class has come to so far. -/
def Hold (T : Finding → Prop) (cs : Classes) (d : ClassDefinition) : Prop :=
  ∃ ms, cs = ⟨[⟨d.name, ms⟩]⟩ ∧ List.Forall₂ (Method.Improves T) d.methods ms

variable {cs : Classes} {d : ClassDefinition}

theorem hold_insert (d : ClassDefinition) : (empty.insert d).Hold T d :=
  ⟨d.methods, rfl, List.forall₂_same.mpr fun m _ => .refl m⟩

theorem Hold.update (h : cs.Hold T d) {reference : MethodReference} {m m' : Method} (hFind : cs.method? reference = some m)
    (hImproves : Method.Improves T m m') : (cs.update m').Hold T d := by
  obtain ⟨ms, rfl, hMethods⟩ := h
  obtain ⟨c, hClass, hMethod⟩ := Option.bind_eq_some_iff.mp (Option.filter_eq_some_iff.mp hFind).1
  obtain rfl := List.mem_singleton.mp (List.mem_of_find?_eq_some hClass)
  have hReference : m.reference = reference := by simpa using List.find?_some hMethod
  have hSame : m'.reference = reference := hImproves.refitted.header.1.trans hReference
  refine ⟨if d.name = m'.reference.definer then replaceMethod m' ms else ms, ?_, ?_⟩
  · rw [Classes.update]
    split <;> simp_all
  · split
    · exact forall₂_replaceMethod hMethods (hSame ▸ hMethod) fun old hOld => hOld.trans hImproves
    · exact hMethods

end Classes

namespace CommandLine

variable {o : Options} {text : String} {d c : ClassDefinition} {p p' : Progress}

/-- What is found out about a method, if there is anything to optimize in it and it can be optimized. -/
def foundIn (o : Options) (p : Progress) (reference : MethodReference) : List Finding :=
  match subject? o p.classes reference with
  | none => []
  | some method =>
    match Machine.optimize ⟨p.classes, o.limits⟩ o.removeWeak o.maxSweeps method with
    | .error _ => []
    | .ok _ => Machine.findings ⟨p.classes, o.limits⟩ o.removeWeak o.maxSweeps Machine.maxRounds method

/-- What is found out about methods one after the other. -/
def findings (o : Options) : Progress → List MethodReference → List Finding
  | _, [] => []
  | p, reference :: references =>
    foundIn o p reference ++
      match advance o p reference with
      | .error _ => []
      | .ok p => findings o p references

theorem advance_hold {reference : MethodReference} (hFound : ∀ f ∈ foundIn o p reference, T f)
    (h : advance o p reference = .ok p') (hp : p.classes.Hold T d) : p'.classes.Hold T d := by
  unfold advance at h
  unfold foundIn at hFound
  cases hSubject : subject? o p.classes reference with
  | none =>
      rw [hSubject] at h
      exact Except.ok.inj h ▸ hp
  | some method =>
      have hFind : p.classes.method? reference = some method := by
        unfold subject? at hSubject
        split at hSubject
        · exact (Option.filter_eq_some_iff.mp hSubject).1
        · cases hSubject
      rw [hSubject] at h hFound
      dsimp only at h hFound
      cases hOptimize : Machine.optimize ⟨p.classes, o.limits⟩ o.removeWeak o.maxSweeps method with
      | error e =>
          rw [hOptimize] at h
          dsimp only at h
          split at h
          · cases h
          · exact Except.ok.inj h ▸ hp
      | ok result =>
          rw [hOptimize] at h hFound
          exact Except.ok.inj h ▸ hp.update hFind (Machine.optimize_improves hFound hOptimize)

theorem foldlM_advance_hold {references : List MethodReference} (hFound : ∀ f ∈ findings o p references, T f)
    (h : references.foldlM (advance o) p = .ok p') (hp : p.classes.Hold T d) : p'.classes.Hold T d := by
  induction references generalizing p with
  | nil => exact Except.ok.inj h ▸ hp
  | cons reference references ih =>
      rw [List.foldlM_cons] at h
      rw [findings] at hFound
      obtain ⟨hHere, hLater⟩ := List.forall_mem_append.mp hFound
      cases hStep : advance o p reference with
      | error e =>
          rw [hStep] at h
          cases h
      | ok next =>
          rw [hStep] at h hLater
          exact ih hLater h (advance_hold hHere hStep hp)

/-- Where the optimization of a class that has been read begins. -/
def Progress.start (d : ClassDefinition) : Progress := ⟨Classes.empty.insert d, .empty, ""⟩

namespace Options

/-- What is found out about the methods of a class that has been read. -/
def findings (o : Options) (d : ClassDefinition) : List Finding :=
  CommandLine.findings o (.start d) (d.methods.map Method.reference)

/-- What the methods of a class that has been read are optimized to, unless an error ends the program. -/
def emitted? (o : Options) (d : ClassDefinition) : Option ClassDefinition :=
  ((d.methods.map Method.reference).foldlM (advance o) (.start d)).toOption.map fun p => (p.classes.find? d.name).getD d

end Options

theorem emitted?_eq_some_iff : o.emitted? d = some c ↔
    ∃ p, (d.methods.map Method.reference).foldlM (advance o) (.start d) = .ok p ∧
      (p.classes.find? d.name).getD d = c := by
  unfold Options.emitted?
  cases (d.methods.map Method.reference).foldlM (advance o) (.start d) <;> simp [Except.toOption]

theorem run_of_emitted? (hRead : ClassDefinition.read text = .ok d) (h : o.emitted? d = some c) :
    (run o text).code = 0 ∧ (run o text).listing = c.listing := by
  obtain ⟨p, hRun, rfl⟩ := emitted?_eq_some_iff.mp h
  unfold Progress.start at hRun
  unfold run
  simp [hRead, hRun]

theorem improves_of_emitted? (hFound : ∀ f ∈ o.findings d, T f) (h : o.emitted? d = some c) :
    c.name = d.name ∧ List.Forall₂ (Method.Improves T) d.methods c.methods := by
  obtain ⟨p, hRun, rfl⟩ := emitted?_eq_some_iff.mp h
  obtain ⟨ms, hClasses, hMethods⟩ := foldlM_advance_hold hFound hRun (Classes.hold_insert d)
  rw [hClasses]
  simpa [Classes.find?] using hMethods

/-- The same method, up to floating point values and the order of handlers. -/
def Repeats (m m' : Method) : Prop :=
  m'.reference = m.reference ∧ m'.flags = m.headerFlags ∧ m'.locals = m.locals ∧
    List.Forall₂ Instruction.Resembles m.code m'.code

/-- What has been read can be told again, if nothing in it keeps it from that. -/
theorem tellable_of_read (hRead : ClassDefinition.read text = .ok d) {m : Method} (hm : m ∈ d.methods)
    (hRepeatable : ∀ i ∈ m.code, i.Repeatable) : ∀ i ∈ m.code, i.Tellable := by
  obtain ⟨body, hBody, hAssembles⟩ := ClassDefinition.exists_assembles_of_mem hRead hm
  intro i hi
  exact ⟨((ClassDefinition.outlined_of_read hRead).2 m hm).2 i hi, hAssembles.copied hBody i hi, hRepeatable i hi⟩

/-- What the command line writes of a class that it has read is read again, if what it has read could be written as it was,
and what is found out can be written. The name of the class holds no comment, the methods are its own, and what their
instructions hold can be written again. Names that are found out are plain, and no number is the least integer of 64
bits. -/
theorem read_run (hRead : ClassDefinition.read text = .ok d) (hEmitted : o.emitted? d = some c)
    (hClear : Listing.dropComment d.name.text.toList = d.name.text.toList)
    (hMethods : ∀ m ∈ d.methods,
      m.reference.definer = d.name ∧ m.paramCount ≤ 0x10000 ∧ ∀ i ∈ m.code, i.Repeatable)
    (hPlain : ∀ f ∈ o.findings d, f.Plain) :
    (run o text).code = 0 ∧ ∃ e, ClassDefinition.read (run o text).listing = .ok e ∧ e.name = d.name ∧
      List.Forall₂ Repeats c.methods e.methods := by
  obtain ⟨hCode, hListing⟩ := run_of_emitted? hRead hEmitted
  obtain ⟨hName, hImproves⟩ := improves_of_emitted? hPlain hEmitted
  obtain ⟨⟨hParses, hWord⟩, hOutlined⟩ := ClassDefinition.outlined_of_read hRead
  have hTells : ∀ m ∈ c.methods, ∃ m', (m.Tells m' ∧ m'.reference.definer = c.name) ∧ Repeats m m'.regrouped := by
    intro m hm
    obtain ⟨old, hOld, hFrom⟩ := exists_of_forall₂ hImproves.flip hm
    obtain ⟨hDefiner, hCount, hRepeatable⟩ := hMethods old hOld
    have hValid := hFrom.valid (ClassDefinition.bounded_of_read hRead old hOld).1
    have hTellable := hFrom.refitted.tellable (tellable_of_read hRead hOld hRepeatable)
    obtain ⟨f, hf, hTold⟩ := Method.exists_tells (hFrom.refitted.outlined (hOutlined old hOld).1) hValid
      (hFrom.refitted.paramCount_eq ▸ hCount) hTellable
    refine ⟨_, ⟨hTold, ?_⟩, rfl, rfl, rfl, ?_⟩
    · rw [hName, ← hDefiner, ← hFrom.refitted.header.1]
    · exact List.forall₂_map_right_iff.mpr (List.forall₂_same.mpr fun i _ => hf i)
  obtain ⟨ms, hAll⟩ := exists_forall₂ hTells
  refine ⟨hCode, ⟨c.name, ms.map Method.regrouped⟩, ?_, hName, ?_⟩
  · rw [hListing]
    exact ClassDefinition.read_listing_of_tells ⟨hName ▸ hParses, hName ▸ hWord, hName ▸ hClear⟩ (hAll.imp fun _ _ h => h.1)
  · exact List.forall₂_map_right_iff.mpr (hAll.imp fun _ _ h => h.2)

/-- A method that looks up a class by name, and comes to the class by some instruction. -/
def lookupMethod (name : String) (result : Instruction Address) : Method where
  reference := ⟨⟨"La;"⟩, "m", [], .classObject⟩
  flags := { static := true }
  locals := 2
  code := [.const 0 (.string name), .invoke .static FrameworkMethod.classForName.reference [0], result, .returnValue 1]
  tries := []

/-- The class of the method. -/
def lookupClass (name : String) (result : Instruction Address) : ClassDefinition := ⟨⟨"La;"⟩, [lookupMethod name result]⟩

theorem spelled_call : (Instruction.invoke .static FrameworkMethod.classForName.reference [0]).Spelled 2 :=
  ⟨by decide, ⟨Listing.word_of_quiet (by decide) (List.all_eq_true.mp (by decide)), by rfl⟩⟩

/-- The class is read from its own listing, whatever the name is. -/
theorem read_lookupClass (name : String) :
    ClassDefinition.read (lookupClass name (.moveResult 1)).listing = .ok (lookupClass name (.moveResult 1)) := by
  have hLoad : (Instruction.const 0 (.string name)).Spelled 2 :=
    ⟨by simp [Instruction.reads, Instruction.writes?], Literal.spells_string name⟩
  have hResult : (Instruction.moveResult 1).Spelled 2 := ⟨by decide, trivial⟩
  have hReturn : (Instruction.returnValue 1).Spelled 2 := ⟨by decide, trivial⟩
  have hHeader : (⟨⟨"La;"⟩, "m", [], .classObject⟩ : MethodReference).Declarable :=
    MethodReference.declarable_of_quiet (by rfl) (by decide)
  have hOutlined : (lookupMethod name (.moveResult 1)).Outlined :=
    ⟨⟨hHeader, (by decide : 2 < 0x10000)⟩, List.forall_mem_nil _, List.forall_mem_nil _⟩
  have hSpelled : ∀ i ∈ (lookupMethod name (.moveResult 1)).code, i.Spelled 2 := by
    simp [lookupMethod, hLoad, spelled_call, hResult, hReturn]
  have hMethod : (lookupMethod name (.moveResult 1)).Legible :=
    ⟨hOutlined, fun i hi => Instruction.legible_of_spelled (by decide : 2 < 0x10000) (hSpelled i hi), by rfl⟩
  have hClass : (lookupClass name (.moveResult 1)).Legible :=
    ClassDefinition.legible_of_quiet (by rfl : Descriptor.parse "La;" = .ok ⟨"La;"⟩)
      (by decide : "La;".toList.all Listing.isQuiet = true) (List.forall_mem_singleton.mpr ⟨hMethod, rfl⟩)
  rw [ClassDefinition.read_listing hClass]
  rfl

theorem read_run_lookupClass :
    (run { input := "" } (lookupClass "java.lang.String" (.moveResult 1)).listing).code = 0 ∧
      ∃ e, ClassDefinition.read (run { input := "" } (lookupClass "java.lang.String" (.moveResult 1)).listing).listing =
          .ok e ∧
        e.name = ⟨"La;"⟩ ∧
          List.Forall₂ Repeats (lookupClass "java.lang.String" (.const 1 (.type .string))).methods e.methods := by
  have hFound : ({ input := "" } : Options).findings (lookupClass "java.lang.String" (.moveResult 1)) =
      [.value (.type .string)] := by decide +kernel
  have hString : Descriptor.string = .ofBinaryName "java.lang.String" := by rfl
  have hPlain : (Finding.value (.type .string)).Plain :=
    ⟨by decide, hString ▸ Descriptor.plain_ofBinaryName (by decide) (by decide)⟩
  refine read_run (read_lookupClass "java.lang.String") (by decide +kernel)
    (by decide : Listing.dropComment "La;".toList = _) (List.forall_mem_singleton.mpr ⟨rfl, by decide, by decide⟩) ?_
  rw [hFound]
  exact List.forall_mem_singleton.mpr hPlain

/-- A class that is looked up by a name that belongs to no type is written by that name, and the reader refuses it. -/
theorem exists_refused : ∃ o text d c, ClassDefinition.read text = .ok d ∧ o.emitted? d = some c ∧ (run o text).code = 0 ∧
    ClassDefinition.read (run o text).listing =
      .error (.listing "La;->m()Ljava/lang/Class;" 7 (.literal (.malformed (.descriptor "[")))) := by
  have hEmitted : ({ input := "" } : Options).emitted? (lookupClass "[" (.moveResult 1)) =
      some (lookupClass "[" (.const 1 (.type ⟨"["⟩))) := by decide +kernel
  obtain ⟨hCode, hListing⟩ := run_of_emitted? (read_lookupClass "[") hEmitted
  refine ⟨_, _, _, _, read_lookupClass "[", hEmitted, hCode, ?_⟩
  rw [hListing, ClassDefinition.read, ClassDefinition.toList_listing]
  decide +kernel

end CommandLine

end Dalvik
