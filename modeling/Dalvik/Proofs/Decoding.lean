import Dalvik.Proofs.Outlines

/-!
Descriptors and references are unique codes. The grammar of descriptors is that of their readers, a list of types that
stand one after the other is taken apart in one way only, and a reference is read from the one text that it is written
as.
-/

namespace Dalvik

namespace Text

theorem dropLead?_eq_none {lead s : List Char} (h : ¬ lead <+: s) : dropLead? lead s = none :=
  if_neg fun hLead => h (List.isPrefixOf_iff_prefix.mp hLead)

/-- The separator does not occur in what stands before its first occurrence. -/
theorem not_infix_of_cutAt? {sep s before after : List Char} (hSome : sep ≠ [])
    (h : cutAt? sep s = some (before, after)) : ¬ sep <:+: before := by
  rintro ⟨x, y, rfl⟩
  have hSplit : s = x ++ (sep ++ (y ++ sep ++ after)) := by simpa using cutAt?_eq_append h
  have hLength := length_le_of_cutAt? hSome (hSplit ▸ h)
  have hPositive := List.length_pos_iff.mpr hSome
  simp only [List.length_append] at hLength
  omega

theorem not_mem_of_cutAt? {c : Char} {s before after : List Char} (h : cutAt? [c] s = some (before, after)) :
    c ∉ before := by
  intro hMem
  obtain ⟨x, y, rfl⟩ := List.append_of_mem hMem
  exact not_infix_of_cutAt? (List.cons_ne_nil c []) h ⟨x, y, by simp⟩

/-- A text is cut at an arrow before which there is none. -/
theorem cutAt?_of_not_infix {a b : List Char} (h : ¬ ['-', '>'] <:+: a) :
    cutAt? ['-', '>'] (a ++ '-' :: '>' :: b) = some (a, b) := by
  induction a with
  | nil => simp [cutAt?, dropLead?]
  | cons c a ih =>
      have hNone : dropLead? ['-', '>'] (c :: (a ++ '-' :: '>' :: b)) = none := by
        refine dropLead?_eq_none ?_
        rw [List.cons_prefix_cons]
        rintro ⟨rfl, hNext⟩
        -- the arrow would begin with `c`, and its head is either in `a` or the hyphen of the separator
        cases a with
        | nil => simp at hNext
        | cons d a =>
            obtain ⟨rfl, -⟩ := List.cons_prefix_cons.mp hNext
            exact h ⟨[], a, rfl⟩
      have hRest : ¬ ['-', '>'] <:+: a := fun hInner => h (hInner.trans (List.suffix_cons c a).isInfix)
      rw [List.cons_append, cutAt?, hNone, ih hRest]
      rfl

end Text

namespace Descriptor

/-- The texts of types other than void: marks of arrays, and then the letter of a primitive type, or the name of a
class, in which there is no semicolon, between `L` and a semicolon. -/
def IsType (s : List Char) : Prop :=
  ∃ dims core, s = List.replicate dims '[' ++ core ∧
    ((∃ c, isPrimitiveLetter c = true ∧ core = [c]) ∨ ∃ name, ';' ∉ name ∧ core = 'L' :: (name ++ [';']))

variable {s d r : List Char}

theorem IsType.array (h : IsType s) : IsType ('[' :: s) := by
  obtain ⟨dims, core, rfl, hCore⟩ := h
  exact ⟨dims + 1, core, by rw [List.replicate_succ, List.cons_append], hCore⟩

/-- A type does not begin with what ends a list of types. -/
theorem IsType.exists_cons (h : IsType s) : ∃ c t, s = c :: t ∧ c ≠ ')' := by
  obtain ⟨dims, core, rfl, hCore⟩ := h
  cases dims with
  | succ n => exact ⟨'[', _, by rw [List.replicate_succ, List.cons_append], by decide⟩
  | zero =>
      rcases hCore with ⟨c, hLetter, rfl⟩ | ⟨name, _, rfl⟩
      · refine ⟨c, [], rfl, ?_⟩
        rintro rfl
        cases hLetter
      · exact ⟨'L', _, rfl, by decide⟩

/-- What is read first from a text that begins with a type is the type, whatever follows it. -/
theorem IsType.readType?_append (h : IsType d) (r : List Char) : readType? (d ++ r) = some (d, r) := by
  obtain ⟨dims, core, rfl, hCore⟩ := h
  induction dims with
  | succ n ih =>
      rw [List.replicate_succ, List.cons_append, List.cons_append, readType?, if_pos rfl, ih]
      rfl
  | zero =>
      rcases hCore with ⟨c, hLetter, rfl⟩ | ⟨name, hName, rfl⟩
      · have hOther : c ≠ '[' := by
          rintro rfl
          cases hLetter
        simp [readType?, hOther, hLetter]
      · have hCut : Text.cutAt? [';'] (name ++ ';' :: r) = some (name, r) := Text.cutAt?_of_not_mem hName
        have hNoLetter : isPrimitiveLetter 'L' = false := by decide
        simp [readType?, hNoLetter, hCut]

theorem isType_of_readType? (h : readType? s = some (d, r)) : IsType d := by
  induction s generalizing d with
  | nil => cases h
  | cons c s ih =>
      rw [readType?] at h
      split at h
      · obtain ⟨⟨e, rest⟩, hElement, hSame⟩ := Option.map_eq_some_iff.mp h
        obtain ⟨rfl, rfl⟩ := Prod.mk.inj hSame
        exact (ih hElement).array
      split at h
      · rename_i hLetter
        obtain ⟨rfl, rfl⟩ := Prod.mk.inj (Option.some.inj h)
        exact ⟨0, [c], rfl, .inl ⟨c, hLetter, rfl⟩⟩
      split at h
      · obtain ⟨⟨name, rest⟩, hName, hSame⟩ := Option.map_eq_some_iff.mp h
        obtain ⟨rfl, rfl⟩ := Prod.mk.inj hSame
        exact ⟨0, _, rfl, .inr ⟨name, Text.not_mem_of_cutAt? hName, rfl⟩⟩
      · cases h

/-- Types are a prefix code: a text begins with one of them at most, which is the one that is read. -/
theorem readType?_eq_some_iff : readType? s = some (d, r) ↔ IsType d ∧ s = d ++ r := by
  refine ⟨fun h => ⟨isType_of_readType? h, eq_append_of_readType? h⟩, ?_⟩
  rintro ⟨hType, rfl⟩
  exact hType.readType?_append r

theorem not_isType_void : ¬ IsType ['V'] := by
  intro h
  have hRead := h.readType?_append []
  rw [List.append_nil] at hRead
  cases hRead

theorem read?_eq_some_iff {e : Descriptor} : read? s = some e ↔ e.text.toList = s ∧ (e = void ∨ IsType s) := by
  constructor
  · intro h
    refine ⟨text_of_read? h, ?_⟩
    unfold read? at h
    split at h
    · exact .inl (Option.some.inj h).symm
    · split at h
      · rename_i t hType
        obtain ⟨hIs, rfl⟩ := readType?_eq_some_iff.mp hType
        rw [List.append_nil]
        exact .inr hIs
      · cases h
  · rintro ⟨rfl, rfl | hType⟩
    · rfl
    · have hRead := hType.readType?_append []
      rw [List.append_nil] at hRead
      have hOther : e.text.toList ≠ ['V'] := fun hVoid => not_isType_void (hVoid ▸ hType)
      simp [read?, hOther, hRead]

theorem parse_eq_ok_iff {t : String} {e : Descriptor} : parse t = .ok e ↔ read? t.toList = some e := by
  unfold parse parse?
  cases read? t.toList <;> simp

theorem eq_void_iff {e : Descriptor} : e = void ↔ e.text = "V" := by
  cases e
  simp [void]

/-- A descriptor is read from its own text only, which is that of void or of another type. -/
theorem parse_eq_ok_iff_isType {t : String} {e : Descriptor} :
    parse t = .ok e ↔ e.text = t ∧ (t = "V" ∨ IsType t.toList) := by
  rw [parse_eq_ok_iff, read?_eq_some_iff, String.toList_inj, eq_void_iff]
  exact and_congr_right fun hText => by rw [hText]

/-- A type that is accepted as that of a parameter. -/
theorem parse_text_iff {e : Descriptor} : parse e.text = .ok e ∧ e ≠ void ↔ IsType e.text.toList := by
  rw [parse_eq_ok_iff_isType]
  constructor
  · rintro ⟨⟨_, hVoid | hType⟩, hOther⟩
    · exact absurd (eq_void_iff.mpr hVoid) hOther
    · exact hType
  · intro hType
    refine ⟨⟨rfl, .inr hType⟩, ?_⟩
    rintro rfl
    exact not_isType_void hType

theorem toList_join_cons (e : Descriptor) (ds : List Descriptor) :
    (String.join ((e :: ds).map text)).toList = e.text.toList ++ (String.join (ds.map text)).toList := by
  simp

/-- Types that stand one after the other before a parenthesis are taken apart as they have been put together. -/
theorem readParameters?_join {ds : List Descriptor} (hTypes : ∀ e ∈ ds, IsType e.text.toList) {count : Nat}
    (hCount : ds.length < count) (rest : List Char) :
    readParameters? count ((String.join (ds.map text)).toList ++ ')' :: rest) = some (ds, rest) := by
  induction ds generalizing count with
  | nil =>
      obtain ⟨n, rfl⟩ := Nat.exists_eq_succ_of_ne_zero (Nat.ne_of_gt hCount)
      rfl
  | cons e ds ih =>
      obtain ⟨n, rfl⟩ := Nat.exists_eq_succ_of_ne_zero (Nat.ne_zero_of_lt hCount)
      have hFirst := hTypes e (.head _)
      have hRest := ih (fun e he => hTypes e (.tail _ he)) (Nat.lt_of_succ_lt_succ hCount)
      have hRead := hFirst.readType?_append ((String.join (ds.map text)).toList ++ ')' :: rest)
      obtain ⟨c, t, hCons, hOpen⟩ := hFirst.exists_cons
      rw [toList_join_cons, List.append_assoc]
      unfold readParameters?
      split
      · rename_i hClosed
        rw [hCons] at hClosed
        exact absurd (List.cons.inj hClosed).1 hOpen
      · rw [hRead, Option.bind_eq_bind, Option.bind_some]
        dsimp only
        rw [hRest]
        simp

theorem isType_of_readParameters? {count : Nat} {rest : List Char} {ds : List Descriptor}
    (h : readParameters? count s = some (ds, rest)) : ∀ e ∈ ds, IsType e.text.toList := by
  induction count generalizing s ds with
  | zero => cases h
  | succ count ih =>
      unfold readParameters? at h
      split at h
      · obtain ⟨rfl, rfl⟩ := Prod.mk.inj (Option.some.inj h)
        exact List.forall_mem_nil _
      · obtain ⟨⟨d, r⟩, hType, h⟩ := Option.bind_eq_some_iff.mp h
        obtain ⟨⟨es, r'⟩, hRest, hSame⟩ := Option.bind_eq_some_iff.mp h
        obtain ⟨rfl, rfl⟩ := Prod.mk.inj (Option.some.inj hSame)
        exact List.forall_mem_cons.mpr ⟨by simpa using isType_of_readType? hType, ih hRest⟩

theorem length_le_length_join {ds : List Descriptor} (hTypes : ∀ e ∈ ds, IsType e.text.toList) :
    ds.length ≤ (String.join (ds.map text)).toList.length := by
  induction ds with
  | nil => exact Nat.zero_le _
  | cons e ds ih =>
      obtain ⟨c, t, hCons, _⟩ := (hTypes e (.head _)).exists_cons
      have hRest := ih fun e he => hTypes e (.tail _ he)
      rw [toList_join_cons, hCons, List.length_append, List.length_cons, List.length_cons]
      omega

/-- The types in parentheses and the one after them are read from one text only. -/
theorem readPrototype?_eq_some_iff {params : List Descriptor} {ret : Descriptor} :
    readPrototype? s = some (params, ret) ↔
      s = '(' :: (String.join (params.map text)).toList ++ ')' :: ret.text.toList ∧
        (∀ e ∈ params, IsType e.text.toList) ∧ read? ret.text.toList = some ret := by
  constructor
  · intro h
    refine ⟨eq_of_readPrototype? h, ?_⟩
    obtain ⟨r, hOpen, h⟩ := Option.bind_eq_some_iff.mp h
    obtain ⟨⟨ds, rest⟩, hParams, h⟩ := Option.bind_eq_some_iff.mp h
    obtain ⟨e, hRet, hSame⟩ := Option.bind_eq_some_iff.mp h
    obtain ⟨rfl, rfl⟩ := Prod.mk.inj (Option.some.inj hSame)
    exact ⟨isType_of_readParameters? hParams, by rwa [text_of_read? hRet]⟩
  · rintro ⟨rfl, hTypes, hRet⟩
    have hCount : params.length <
        ((String.join (params.map text)).toList ++ ')' :: ret.text.toList).length := by
      have hLength := length_le_length_join hTypes
      rw [List.length_append, List.length_cons]
      omega
    have hOpen := Text.dropLead?_append ['('] ((String.join (params.map text)).toList ++ ')' :: ret.text.toList)
    rw [List.singleton_append] at hOpen
    unfold readPrototype?
    rw [List.cons_append, hOpen, Option.bind_eq_bind, Option.bind_some, readParameters?_join hTypes hCount]
    simp [hRet]

/-- A list of types before another type is read from one text only. -/
theorem parsePrototype_eq_ok_iff {t : String} {params : List Descriptor} {ret : Descriptor} :
    parsePrototype t = .ok (params, ret) ↔
      t = "(" ++ String.join (params.map text) ++ ")" ++ ret.text ∧
        (∀ e ∈ params, parse e.text = .ok e ∧ e ≠ void) ∧ parse ret.text = .ok ret := by
  have hRead : parsePrototype t = .ok (params, ret) ↔ readPrototype? t.toList = some (params, ret) := by
    unfold parsePrototype
    cases readPrototype? t.toList <;> simp
  have hText : t = "(" ++ String.join (params.map text) ++ ")" ++ ret.text ↔
      t.toList = '(' :: (String.join (params.map text)).toList ++ ')' :: ret.text.toList := by
    rw [← String.toList_inj]
    simp
  rw [hRead, readPrototype?_eq_some_iff, hText, parse_eq_ok_iff]
  exact and_congr_right fun _ => and_congr_left fun _ => forall₂_congr fun _ _ => parse_text_iff.symm

end Descriptor

namespace MethodReference

/-- The parts of a reference can be told from each other: there is no arrow in the class and no parenthesis in the
name, and the types are accepted where they stand. -/
structure Readable (m : MethodReference) : Prop where
  definer : Descriptor.parse m.definer.text = .ok m.definer
  arrow : ¬ ['-', '>'] <:+: m.definer.text.toList
  name : m.name ≠ ""
  parenthesis : '(' ∉ m.name.toList
  params : ∀ e ∈ m.params, Descriptor.parse e.text = .ok e ∧ e ≠ .void
  ret : Descriptor.parse m.ret.text = .ok m.ret

theorem parse_eq_ok_iff {t : String} {m : MethodReference} : parse t = .ok m ↔ read? t.toList = some m := by
  unfold parse
  cases read? t.toList <;> simp

theorem toList_text (m : MethodReference) :
    m.text.toList = m.definer.text.toList ++ '-' :: '>' :: (m.name.toList ++ '(' ::
      ((String.join (m.params.map Descriptor.text)).toList ++ ')' :: m.ret.text.toList)) := by
  simp [text, signature]

/-- A method reference is read from what it is written as and from nothing else. -/
theorem parse_eq_ok_iff_readable {t : String} {m : MethodReference} :
    parse t = .ok m ↔ m.text = t ∧ m.Readable := by
  rw [parse_eq_ok_iff]
  constructor
  · intro h
    obtain ⟨⟨definer, member⟩, hArrow, h⟩ := Option.bind_eq_some_iff.mp h
    obtain ⟨⟨name, rest⟩, hName, h⟩ := Option.bind_eq_some_iff.mp h
    obtain ⟨⟨params, ret⟩, hTypes, h⟩ := Option.bind_eq_some_iff.mp h
    dsimp only at hName hTypes h
    split at h
    · cases h
    rename_i hSome
    obtain ⟨d, hDefiner, hSame⟩ := Option.bind_eq_some_iff.mp h
    obtain rfl := Option.some.inj hSame
    obtain ⟨hRest, hParams, hRet⟩ := Descriptor.readPrototype?_eq_some_iff.mp hTypes
    have hClass := Descriptor.text_of_read? hDefiner
    refine ⟨?_, ?_, ?_, ?_, ?_, fun e he => Descriptor.parse_text_iff.mpr (hParams e he), ?_⟩
    · refine String.toList_inj.mp ?_
      rw [Text.cutAt?_eq_append hArrow, Text.cutAt?_eq_append hName, toList_text]
      simp [hClass, (List.cons.inj hRest).2]
    · exact Descriptor.parse_eq_ok_iff.mpr (hClass.symm ▸ hDefiner)
    · exact hClass.symm ▸ Text.not_infix_of_cutAt? (List.cons_ne_nil _ _) hArrow
    · rintro hEmpty
      have hNil := congrArg String.toList hEmpty
      rw [String.toList_ofList] at hNil
      exact hSome (by simp [hNil])
    · simpa using Text.not_mem_of_cutAt? hName
    · exact Descriptor.parse_eq_ok_iff.mpr hRet
  · rintro ⟨rfl, h⟩
    have hTypes : Descriptor.readPrototype? ('(' :: ((String.join (m.params.map Descriptor.text)).toList ++
        ')' :: m.ret.text.toList)) = some (m.params, m.ret) :=
      Descriptor.readPrototype?_eq_some_iff.mpr ⟨rfl, fun e he => Descriptor.parse_text_iff.mp (h.params e he),
        Descriptor.parse_eq_ok_iff.mp h.ret⟩
    unfold read?
    rw [toList_text, Text.cutAt?_of_not_infix h.arrow]
    generalize (String.join (m.params.map Descriptor.text)).toList ++ ')' :: m.ret.text.toList = types at hTypes ⊢
    simp [Text.cutAt?_of_not_mem h.parenthesis, hTypes, Descriptor.parse_eq_ok_iff.mp h.definer, h.name]

end MethodReference

namespace FieldReference

/-- The parts of a reference can be told from each other: there is no arrow in the class and no colon in the name, and
the types are accepted. -/
structure Readable (f : FieldReference) : Prop where
  definer : Descriptor.parse f.definer.text = .ok f.definer
  arrow : ¬ ['-', '>'] <:+: f.definer.text.toList
  colon : ':' ∉ f.name.toList
  type : Descriptor.parse f.type.text = .ok f.type

theorem parse_eq_ok_iff {t : String} {f : FieldReference} : parse t = .ok f ↔ read? t.toList = some f := by
  unfold parse
  cases read? t.toList <;> simp

theorem toList_text (f : FieldReference) :
    f.text.toList = f.definer.text.toList ++ '-' :: '>' :: (f.name.toList ++ ':' :: f.type.text.toList) := by
  simp [text]

/-- A field reference is read from what it is written as and from nothing else. -/
theorem parse_eq_ok_iff_readable {t : String} {f : FieldReference} :
    parse t = .ok f ↔ f.text = t ∧ f.Readable := by
  rw [parse_eq_ok_iff]
  constructor
  · intro h
    have hText := text_of_parse (parse_eq_ok_iff.mpr h)
    obtain ⟨⟨definer, member⟩, hArrow, h⟩ := Option.bind_eq_some_iff.mp h
    obtain ⟨⟨name, type⟩, hColon, h⟩ := Option.bind_eq_some_iff.mp h
    obtain ⟨d, hDefiner, h⟩ := Option.bind_eq_some_iff.mp h
    obtain ⟨e, hType, hSame⟩ := Option.bind_eq_some_iff.mp h
    obtain rfl := Option.some.inj hSame
    have hClass := Descriptor.text_of_read? hDefiner
    refine ⟨hText, ?_, ?_, ?_, ?_⟩
    · exact Descriptor.parse_eq_ok_iff.mpr (hClass.symm ▸ hDefiner)
    · exact hClass.symm ▸ Text.not_infix_of_cutAt? (List.cons_ne_nil _ _) hArrow
    · simpa using Text.not_mem_of_cutAt? hColon
    · exact Descriptor.parse_eq_ok_iff.mpr ((Descriptor.text_of_read? hType).symm ▸ hType)
  · rintro ⟨rfl, h⟩
    rw [read?, toList_text, Text.cutAt?_of_not_infix h.arrow]
    simp [Text.cutAt?_of_not_mem h.colon, Descriptor.parse_eq_ok_iff.mp h.definer,
      Descriptor.parse_eq_ok_iff.mp h.type]

end FieldReference

/-- Types, lists of types and references are each read from the one text that they are written as. A type other than
void is accepted if it is some marks of arrays and then the letter of a primitive type or a class name without a
semicolon between `L` and `;`. Any list of such types is read back, whatever the class names in it are, and so is every
reference that has been read. -/
theorem texts_decode :
    (∀ t e, Descriptor.parse t = .ok e ↔ e.text = t ∧ (t = "V" ∨ Descriptor.IsType t.toList)) ∧
      (∀ t params ret, Descriptor.parsePrototype t = .ok (params, ret) ↔
        t = "(" ++ String.join (params.map Descriptor.text) ++ ")" ++ ret.text ∧
          (∀ e ∈ params, Descriptor.parse e.text = .ok e ∧ e ≠ .void) ∧ Descriptor.parse ret.text = .ok ret) ∧
      (∀ t m, MethodReference.parse t = .ok m ↔ m.text = t ∧ m.Readable) ∧
      (∀ t m, MethodReference.parse t = .ok m → MethodReference.parse m.text = .ok m) ∧
      (∀ t f, FieldReference.parse t = .ok f ↔ f.text = t ∧ f.Readable) ∧
      ∀ t f, FieldReference.parse t = .ok f → FieldReference.parse f.text = .ok f := by
  refine ⟨fun t e => Descriptor.parse_eq_ok_iff_isType, fun t params ret => Descriptor.parsePrototype_eq_ok_iff,
    fun t m => MethodReference.parse_eq_ok_iff_readable, fun t m h => ?_,
    fun t f => FieldReference.parse_eq_ok_iff_readable, fun t f h => ?_⟩
  · rwa [(MethodReference.parse_eq_ok_iff_readable.mp h).1]
  · rwa [(FieldReference.parse_eq_ok_iff_readable.mp h).1]

/-- A method and a field with the separators of references in their names. -/
def arrowMethod : MethodReference := ⟨⟨"L(:;"⟩, "f:->g", [.int, ⟨"L(->;"⟩, ⟨"[J"⟩], .void⟩

@[inherit_doc arrowMethod]
def arrowField : FieldReference := ⟨⟨"[L(:;"⟩, "f->(g", .int⟩

theorem texts_decode_arrowMethod :
    Descriptor.parsePrototype "(IL(->;[J)V" = .ok (arrowMethod.params, arrowMethod.ret) ∧
      MethodReference.parse "L(:;->f:->g(IL(->;[J)V" = .ok arrowMethod ∧
      MethodReference.parse arrowMethod.text = .ok arrowMethod ∧
      FieldReference.parse "[L(:;->f->(g:I" = .ok arrowField ∧
      FieldReference.parse arrowField.text = .ok arrowField := by
  obtain ⟨_, hPrototype, _, hMethod, _, hField⟩ := texts_decode
  have hReadMethod : MethodReference.parse "L(:;->f:->g(IL(->;[J)V" = .ok arrowMethod := by decide +kernel
  have hReadField : FieldReference.parse "[L(:;->f->(g:I" = .ok arrowField := by decide +kernel
  refine ⟨(hPrototype _ _ _).mpr ⟨by decide +kernel, ?_, by decide +kernel⟩, hReadMethod,
    hMethod _ _ hReadMethod, hReadField, hField _ _ hReadField⟩
  decide +kernel

end Dalvik
