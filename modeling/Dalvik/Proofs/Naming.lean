import Dalvik.Reference

/-!
Types and members are written as the texts that they were read from: the readers keep every character of a
descriptor, and the separators of a reference are where its parts meet.
-/

namespace Dalvik

namespace Descriptor

theorem eq_append_of_readType? {s d r : List Char} (h : readType? s = some (d, r)) : s = d ++ r := by
  induction s generalizing d with
  | nil => cases h
  | cons c s ih =>
      rw [readType?] at h
      split at h
      · rename_i hArray
        obtain ⟨⟨e, rest⟩, hElement, hSame⟩ := Option.map_eq_some_iff.mp h
        obtain ⟨rfl, rfl⟩ := Prod.mk.inj hSame
        rw [hArray, ih hElement]
        rfl
      split at h
      · obtain ⟨rfl, rfl⟩ := Prod.mk.inj (Option.some.inj h)
        rfl
      split at h
      · rename_i hClass
        obtain ⟨⟨name, rest⟩, hName, hSame⟩ := Option.map_eq_some_iff.mp h
        obtain ⟨rfl, rfl⟩ := Prod.mk.inj hSame
        rw [hClass, Text.cutAt?_eq_append hName]
        simp
      · cases h

theorem text_of_read? {s : List Char} {d : Descriptor} (h : read? s = some d) :
    d.text.toList = s := by
  unfold read? at h
  split at h
  · rename_i hVoid
    rw [← Option.some.inj h, hVoid]
    rfl
  · split at h
    · rename_i hType
      rw [← Option.some.inj h, eq_append_of_readType? hType]
      simp
    · cases h

/-- A descriptor is written as the text that it was read from. -/
theorem text_of_parse {s : String} {d : Descriptor} (h : parse s = .ok d) : d.text = s := by
  unfold parse at h
  split at h
  · rename_i hRead
    rw [← Except.ok.inj h]
    exact String.toList_inj.mp (text_of_read? hRead)
  · cases h

theorem eq_append_of_readParameters? {count : Nat} {s rest : List Char} {ds : List Descriptor}
    (h : readParameters? count s = some (ds, rest)) :
    s = (String.join (ds.map text)).toList ++ ')' :: rest := by
  induction count generalizing s ds with
  | zero => cases h
  | succ count ih =>
      unfold readParameters? at h
      split at h
      · obtain ⟨rfl, rfl⟩ := Prod.mk.inj (Option.some.inj h)
        rfl
      · obtain ⟨⟨d, r⟩, hType, h⟩ := Option.bind_eq_some_iff.mp h
        obtain ⟨⟨es, r'⟩, hRest, hSame⟩ := Option.bind_eq_some_iff.mp h
        obtain ⟨rfl, rfl⟩ := Prod.mk.inj (Option.some.inj hSame)
        rw [eq_append_of_readType? hType, ih hRest]
        simp

theorem eq_of_readPrototype? {s : List Char} {params : List Descriptor} {ret : Descriptor}
    (h : readPrototype? s = some (params, ret)) :
    s = '(' :: (String.join (params.map text)).toList ++ ')' :: ret.text.toList := by
  obtain ⟨r, hOpen, h⟩ := Option.bind_eq_some_iff.mp h
  obtain ⟨⟨ds, rest⟩, hParams, h⟩ := Option.bind_eq_some_iff.mp h
  obtain ⟨e, hRet, hSame⟩ := Option.bind_eq_some_iff.mp h
  obtain ⟨rfl, rfl⟩ := Prod.mk.inj (Option.some.inj hSame)
  rw [text_of_read? hRet, List.cons_append, ← eq_append_of_readParameters? hParams]
  exact Text.dropLead?_eq_append hOpen

end Descriptor

end Dalvik
