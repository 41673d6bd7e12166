/-!
Cutting a text at the first place where a separator stands, and taking a fixed beginning or end off
a text.
-/

namespace Dalvik.Text

/-- The rest of a text after `lead`, if the text starts with it. -/
def dropLead? (lead : List Char) (s : List Char) : Option (List Char) :=
  if lead.isPrefixOf s then some (s.drop lead.length) else none

/-- The part of a text before `tail`, if the text ends with it. -/
def dropTail? (tail : List Char) (s : List Char) : Option (List Char) :=
  if tail.isSuffixOf s then some (s.take (s.length - tail.length)) else none

/-- What stands before and after the first occurrence of `sep`. -/
def cutAt? (sep : List Char) : List Char → Option (List Char × List Char)
  | [] => none
  | c :: r =>
    match dropLead? sep (c :: r) with
    | some rest => some ([], rest)
    | none => (cutAt? sep r).map fun cut => (c :: cut.1, cut.2)

/-- What stands before the first character with the property and what stands after it. -/
def cutWhere? (p : Char → Bool) : List Char → Option (List Char × List Char)
  | [] => none
  | c :: r => if p c then some ([], r) else (cutWhere? p r).map fun cut => (c :: cut.1, cut.2)

/-- The text between a given first and last character. The two are different places of the text. -/
def enclosed? (first last : Char) (s : List Char) : Option (List Char) :=
  (dropLead? [first] s).bind (dropTail? [last])

/-- Text items with a separator between each two. -/
def separated (sep : String) : List String → String
  | [] => ""
  | [s] => s
  | s :: t :: r => s ++ sep ++ separated sep (t :: r)

theorem dropLead?_eq_append {lead s rest : List Char} (h : dropLead? lead s = some rest) :
    s = lead ++ rest := by
  unfold dropLead? at h
  split at h
  · rename_i hLead
    obtain ⟨t, rfl⟩ := List.isPrefixOf_iff_prefix.1 hLead
    simpa using h
  · cases h

theorem cutAt?_eq_append {sep s before after : List Char} (h : cutAt? sep s = some (before, after)) :
    s = before ++ sep ++ after := by
  induction s generalizing before after with
  | nil => simp [cutAt?] at h
  | cons c r ih =>
    unfold cutAt? at h
    split at h
    · rename_i rest hLead
      obtain ⟨rfl, rfl⟩ := by simpa using h
      simpa using dropLead?_eq_append hLead
    · simp only [Option.map_eq_some_iff, Prod.mk.injEq] at h
      obtain ⟨⟨x, y⟩, hxy, rfl, rfl⟩ := h
      simp [ih hxy]

end Dalvik.Text
