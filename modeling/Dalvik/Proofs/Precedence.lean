import Dalvik.Proofs.Outlines

/-!
Which handler comes first after a method has been edited, printed and read back. An edit can give two ranges the same
ends, and a handler is read into the first block with its range. It passes the handlers of the blocks between, which is
of no consequence as long as those cover none of the same instructions.
-/

namespace Dalvik

namespace Method

open Relation (ReflTransGen)

/-- One method comes from another by splices one after another. -/
def Spliced : Method → Method → Prop :=
  ReflTransGen fun m m' => ∃ index removed new retarget r, m.trySplice index removed new retarget = .ok (m', r)

variable {m m' : Method} {index removed : Nat} {new : Code} {retarget : Bool}

/-- A splice changes nothing of the lines around the code but the places in them. -/
theorem Outlined.splice (h : m.Outlined) (hEnd : index + removed ≤ m.code.length) :
    (m.splice index removed new retarget).1.Outlined := by
  refine ⟨⟨h.toDeclarable, h.locals⟩, fun k hk d hd => ?_, fun b hb => ?_⟩
  · simp only [Method.splice, relocate, handlers, List.mem_flatMap, List.mem_filter, List.mem_map] at hk
    obtain ⟨b, ⟨⟨old, hOld, rfl⟩, _⟩, hHandler⟩ := hk
    obtain ⟨k, hOwn, rfl⟩ := List.mem_map.mp hHandler
    exact h.caught k (List.mem_flatMap.mpr ⟨old, hOld, hOwn⟩) d hd
  · obtain ⟨old, hOld, rfl⟩ := List.mem_map.mp (List.mem_filter.mp hb).1
    obtain ⟨hStart, hStop⟩ := h.bounded old hOld
    exact ⟨hasPlace_splice_label hEnd hStart, hasPlace_splice_label hEnd hStop⟩

theorem Spliced.outlined (hSpliced : m.Spliced m') (h : m.Outlined) : m'.Outlined := by
  induction hSpliced with
  | refl => exact h
  | tail _ hStep ih =>
      obtain ⟨index, removed, new, retarget, r, hSplice⟩ := hStep
      unfold trySplice at hSplice
      split at hSplice
      · rename_i hEnd
        have hSame := congrArg Prod.fst (Except.ok.inj hSplice)
        dsimp only at hSame
        exact hSame ▸ ih.splice hEnd
      · cases hSplice

variable (m)

/-- The ranges of the handlers, in the order of the handlers. -/
def extents : List Extent := (m.tries.flatMap TryBlock.ranged).map Prod.fst

/-- Where the range of a handler comes back, no different one that overlaps it stands between. -/
def Settled : Prop := Extent.Settled m.extents

instance : Decidable m.Settled := inferInstanceAs (Decidable (Extent.Settled _))

variable {m}

/-- One method is another one with other flags, and with its handlers for each instruction in the same order or, where
ranges are not settled, in another. -/
structure Restates (m m' : Method) : Prop where
  reference : m'.reference = m.reference
  flags : m'.flags = m.headerFlags
  locals : m'.locals = m.locals
  code : m'.code = m.code
  among (a : Address) : (m'.handlersAt a).Perm (m.handlersAt a)
  ordered (h : m.Settled) (a : Address) : m'.handlersAt a = m.handlersAt a

theorem restates_regrouped (m : Method) : m.Restates m.regrouped where
  reference := rfl
  flags := rfl
  locals := rfl
  code := rfl
  among a := by
    have hPerm := @Listing.OpenMethod.catching_gather_perm [] a (m.tries.flatMap TryBlock.ranged)
    rwa [TryBlock.selected_flatMap_ranged] at hPerm
  ordered h a := by
    have hSame := @Listing.OpenMethod.catching_gather_of_settled [] a _ List.nodup_nil h
    rwa [TryBlock.selected_flatMap_ranged] at hSame

end Method

namespace ClassDefinition

open Method (Spliced Restates)

section Edited

variable {text : String} {d c : ClassDefinition}

/-- What the listing of a class that has been read and edited depends on is that the name of the class holds no comment,
that its methods are valid, and that the operands of their instructions are read from their own texts. -/
theorem legible_of_spliced (hRead : read text = .ok d) (hName : c.name = d.name)
    (hClear : Listing.dropComment c.name.text.toList = c.name.text.toList)
    (hSpliced : ∀ m ∈ c.methods, ∃ old ∈ d.methods, old.Spliced m)
    (hMethods : ∀ m ∈ c.methods,
      m.reference.definer = c.name ∧ m.validate = .ok () ∧ ∀ i ∈ m.code, i.Spelled m.locals) :
    c.Legible := by
  obtain ⟨⟨hParses, hWord⟩, hOutlined⟩ := outlined_of_read hRead
  refine ⟨hName ▸ hParses, hName ▸ hWord, hClear, fun m hm => ?_⟩
  obtain ⟨hDefiner, hValid, hSpelled⟩ := hMethods m hm
  obtain ⟨old, hOld, hFrom⟩ := hSpliced m hm
  have hOwn := hFrom.outlined (hOutlined old hOld).1
  exact ⟨⟨hOwn, fun i hi => Instruction.legible_of_spelled hOwn.locals (hSpelled i hi), hValid⟩, hDefiner⟩

/-- Methods that have been read and edited are read back from the listing of their class, each with its handlers for
every instruction in the same order if its ranges are settled. -/
theorem read_listing_of_spliced (hRead : read text = .ok d) (hName : c.name = d.name)
    (hClear : Listing.dropComment c.name.text.toList = c.name.text.toList)
    (hSpliced : ∀ m ∈ c.methods, ∃ old ∈ d.methods, old.Spliced m)
    (hMethods : ∀ m ∈ c.methods,
      m.reference.definer = c.name ∧ m.validate = .ok () ∧ ∀ i ∈ m.code, i.Spelled m.locals) :
    ∃ e, read c.listing = .ok e ∧ e.name = c.name ∧ List.Forall₂ Method.Restates c.methods e.methods := by
  refine ⟨_, read_listing (legible_of_spliced hRead hName hClear hSpliced hMethods), rfl, ?_⟩
  rw [List.forall₂_map_right_iff]
  exact List.forall₂_same.mpr fun m _ => m.restates_regrouped

end Edited

/-- A method that makes a call under a handler for all of its code but the last instructions, under a number of others, and
under one that ends before an instruction without effect. -/
def callingMethod (others : Nat) : Method where
  reference := ⟨⟨"La;"⟩, "m", [], .void⟩
  flags := { static := true }
  locals := 1
  code := [.const 0 (.int 0), .invoke .static ⟨⟨"La;"⟩, "x", [], .void⟩ [], .nop, .returnVoid, .returnVoid, .returnVoid,
    .returnVoid]
  tries := ⟨0, 7, [⟨some .arithmeticException, 8⟩]⟩ :: List.replicate others ⟨3, 7, [⟨some .runtimeException, 9⟩]⟩ ++
    [⟨0, 6, [⟨some .anyException, 10⟩]⟩]

/-- The method without the instruction that has no effect. -/
def sweptCall (others : Nat) : Method := ((callingMethod others).splice 2 1 [] false).1

theorem spliced_sweptCall (others : Nat) : (callingMethod others).Spliced (sweptCall others) :=
  .single ⟨2, 1, [], false, _, rfl⟩

theorem spelled_callingMethod (others : Nat) : ∀ i ∈ (callingMethod others).code, i.Spelled 1 := by
  have hConst : (Instruction.const 0 (.int 0)).Spelled 1 :=
    ⟨by decide, ⟨Listing.word_of_quiet (by decide) (List.all_eq_true.mp (by decide)), by rfl⟩⟩
  have hInvoke : (Instruction.invoke .static ⟨⟨"La;"⟩, "x", [], .void⟩ []).Spelled 1 :=
    ⟨by decide, ⟨Listing.word_of_quiet (by decide) (List.all_eq_true.mp (by decide)), by rfl⟩⟩
  have hNop : Instruction.nop.Spelled 1 := ⟨by decide, trivial⟩
  have hReturn : Instruction.returnVoid.Spelled 1 := ⟨by decide, trivial⟩
  simp [callingMethod, hConst, hInvoke, hNop, hReturn]

theorem spelled_sweptCall (others : Nat) : ∀ i ∈ (sweptCall others).code, i.Spelled 1 := by
  have hCode : (sweptCall others).code = (callingMethod others).code.eraseIdx 2 := rfl
  rw [hCode]
  exact fun i hi => spelled_callingMethod others i (List.mem_of_mem_eraseIdx hi)

theorem mem_tries_callingMethod {others : Nat} {b : TryBlock} (hb : b ∈ (callingMethod others).tries) :
    b = ⟨0, 7, [⟨some .arithmeticException, 8⟩]⟩ ∨ b = ⟨3, 7, [⟨some .runtimeException, 9⟩]⟩ ∨
      b = ⟨0, 6, [⟨some .anyException, 10⟩]⟩ := by
  rcases List.mem_append.mp hb with hFirst | hLast
  · exact (List.mem_cons.mp hFirst).imp_right fun h => .inl (List.eq_of_mem_replicate h)
  · exact .inr (.inr (List.mem_singleton.mp hLast))

theorem declarable_calling : (⟨⟨"La;"⟩, "m", [], .void⟩ : MethodReference).Declarable :=
  MethodReference.declarable_of_quiet (by rfl) (by decide)

theorem outlined_callingMethod (others : Nat) : (callingMethod others).Outlined := by
  have hPlace {n : Nat} (hn : n ≤ 7) : (callingMethod others).code.HasPlace ((callingMethod others).code.addressAt n) :=
    ⟨n, hn, rfl⟩
  refine ⟨⟨declarable_calling, (by decide : 1 < 0x10000)⟩, fun k hk d hd => ?_, fun b hb => ?_⟩
  · obtain ⟨b, hb, hOwn⟩ := List.mem_flatMap.mp hk
    rcases mem_tries_callingMethod hb with rfl | rfl | rfl <;>
    · obtain rfl := List.mem_singleton.mp hOwn
      obtain rfl := Option.some.inj hd
      exact Descriptor.catchable_of_quiet (by rfl) (by decide)
  · rcases mem_tries_callingMethod hb with rfl | rfl | rfl
    · exact ⟨hPlace (n := 0) (by decide), hPlace (n := 3) (by decide)⟩
    · exact ⟨hPlace (n := 1) (by decide), hPlace (n := 3) (by decide)⟩
    · exact ⟨hPlace (n := 0) (by decide), hPlace (n := 2) (by decide)⟩

/-- The class of the method, and that of the method without an instruction. -/
def callingClass (others : Nat) : ClassDefinition := ⟨⟨"La;"⟩, [callingMethod others]⟩

def sweptClass (others : Nat) : ClassDefinition := ⟨⟨"La;"⟩, [sweptCall others]⟩

theorem read_callingClass (others : Nat) (hValid : (callingMethod others).validate = .ok ())
    (hDistinct : (callingMethod others).regrouped = callingMethod others) :
    read (callingClass others).listing = .ok (callingClass others) := by
  have hLegible : (callingMethod others).Legible :=
    ⟨outlined_callingMethod others, fun i hi =>
      Instruction.legible_of_spelled ((by decide : 1 < 0x10000)) (spelled_callingMethod others i hi), hValid⟩
  have hClass : (callingClass others).Legible :=
    legible_of_quiet (by rfl : Descriptor.parse "La;" = .ok ⟨"La;"⟩)
      (by decide : "La;".toList.all Listing.isQuiet = true) (List.forall_mem_singleton.mpr ⟨hLegible, rfl⟩)
  rw [read_listing hClass]
  have hMethods : (callingClass others).methods.map Method.regrouped = (callingClass others).methods :=
    congrArg (fun m => [m]) hDistinct
  rw [hMethods]

/-- Two ranges that have got the same ends become one, and the handlers keep their order. -/
theorem read_listing_of_spliced_sweptClass : (sweptCall 0).extents = [(0, 6), (0, 6)] ∧
    ∃ m, read (sweptClass 0).listing = .ok ⟨⟨"La;"⟩, [m]⟩ ∧ ∀ a, m.handlersAt a = (sweptCall 0).handlersAt a := by
  refine ⟨by decide, ?_⟩
  obtain ⟨e, hRead, hName, hMethods⟩ := read_listing_of_spliced (c := sweptClass 0)
    (read_callingClass 0 (by decide) (by decide)) rfl (by decide : Listing.dropComment "La;".toList = _)
    (List.forall_mem_singleton.mpr ⟨_, List.mem_singleton.mpr rfl, spliced_sweptCall 0⟩)
    (List.forall_mem_singleton.mpr ⟨rfl, by decide, spelled_sweptCall 0⟩)
  obtain ⟨m, ms, hm, hRest, hSame⟩ := List.forall₂_cons_left_iff.mp hMethods
  obtain rfl := List.forall₂_nil_left_iff.mp hRest
  refine ⟨m, ?_, hm.ordered (by decide)⟩
  rw [hRead, ← hSame]
  cases e
  cases hName
  rfl

/-- A handler passes those of a range between, if this one overlaps its own: a call that has thrown is answered by another
handler after reading than before. -/
theorem exists_reordered : ∃ text d old m m',
    read text = .ok d ∧ old ∈ d.methods ∧ old.Spliced m ∧ read (⟨d.name, [m]⟩ : ClassDefinition).listing = .ok ⟨d.name, [m']⟩ ∧
      m.handlersAt 3 = [⟨some .arithmeticException, 7⟩, ⟨some .runtimeException, 8⟩, ⟨some .anyException, 9⟩] ∧
      m'.handlersAt 3 = [⟨some .arithmeticException, 7⟩, ⟨some .anyException, 9⟩, ⟨some .runtimeException, 8⟩] := by
  have hRead := read_callingClass 1 (by decide) (by decide)
  have hLegible : (sweptClass 1).Legible := legible_of_spliced hRead rfl (by decide : Listing.dropComment "La;".toList = _)
    (List.forall_mem_singleton.mpr ⟨_, List.mem_singleton.mpr rfl, spliced_sweptCall 1⟩)
    (List.forall_mem_singleton.mpr ⟨rfl, by decide, spelled_sweptCall 1⟩)
  exact ⟨_, _, callingMethod 1, sweptCall 1, (sweptCall 1).regrouped, hRead, List.mem_singleton.mpr rfl, spliced_sweptCall 1,
    read_listing hLegible, by decide, by decide⟩

end ClassDefinition

end Dalvik
