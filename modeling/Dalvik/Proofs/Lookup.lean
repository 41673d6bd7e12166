import Mathlib.Data.List.Nodup

/-!
Association lists in which no key occurs twice.
-/

namespace Dalvik.Lookup

variable {κ α : Type} [BEq κ] [LawfulBEq κ]

theorem mem_of_lookup {entries : List (κ × α)} {k : κ} {v : α} (h : entries.lookup k = some v) :
    (k, v) ∈ entries := by
  obtain ⟨before, after, rfl, _⟩ := List.lookup_eq_some_iff.mp h
  simp

theorem lookup_of_mem {entries : List (κ × α)} {k : κ} {v : α}
    (hKeys : (entries.map Prod.fst).Nodup) (h : (k, v) ∈ entries) :
    entries.lookup k = some v := by
  induction entries with
  | nil => simp at h
  | cons e r ih =>
      rw [List.map_cons, List.nodup_cons] at hKeys
      rcases List.mem_cons.mp h with rfl | hRest
      · simp
      · have hKey : k ∈ r.map Prod.fst := List.mem_map_of_mem hRest
        have hOther : (k == e.1) = false := beq_false_of_ne fun hSame => hKeys.1 (hSame ▸ hKey)
        rw [List.lookup_cons, hOther]
        exact ih hKeys.2 hRest

theorem lookup_eq_none_iff_not_mem {entries : List (κ × α)} {k : κ} :
    entries.lookup k = none ↔ k ∉ entries.map Prod.fst := by
  simp only [List.lookup_eq_none_iff, List.mem_map, not_exists, not_and]
  exact ⟨fun h e he hSame => by simpa [hSame] using h e he,
    fun h e he => bne_iff_ne.mpr fun hSame => h e he hSame.symm⟩

theorem lookup_map_snd {κ α β : Type} [BEq κ] (f : α → β) (entries : List (κ × α)) (k : κ) :
    (entries.map fun p => (p.1, f p.2)).lookup k = (entries.lookup k).map f := by
  induction entries with
  | nil => rfl
  | cons p entries ih =>
      rw [List.map_cons, List.lookup_cons, List.lookup_cons]
      cases k == p.1 with
      | true => rfl
      | false => exact ih

/-- An update at one key, where a new entry starts from a default, is one of the function that a list with that default
stands for. -/
theorem lookup_updated {κ α : Type} [DecidableEq κ] {key : κ} {default : α} (f : α → α)
    (updated : List (κ × α) → List (κ × α))
    (hNil : updated [] = [(key, f default)])
    (hCons : ∀ e r, updated (e :: r) = if e.1 = key then (key, f e.2) :: r else e :: updated r)
    (k : κ) (entries : List (κ × α)) :
    ((updated entries).lookup k).getD default =
      if k = key then f ((entries.lookup k).getD default) else (entries.lookup k).getD default := by
  induction entries with
  | nil => by_cases h : k = key <;> simp [hNil, List.lookup_cons, beq_false_of_ne, h]
  | cons e r ih =>
      obtain ⟨key', v⟩ := e
      rw [hCons]
      by_cases hKey : key' = key
      · subst hKey
        by_cases h : k = key' <;> simp [List.lookup_cons, beq_false_of_ne, h]
      · rw [if_neg hKey, List.lookup_cons, List.lookup_cons]
        by_cases h : k = key'
        · subst h
          simp [hKey]
        · simpa [beq_false_of_ne h] using ih

/-- In a list that is made from the values of some things, each thing is found by its own key. -/
theorem lookup_filterMap {ι : Type} {things : List ι} {key : ι → κ}
    (hKeys : ∀ i ∈ things, ∀ j ∈ things, key i = key j → i = j) {i : ι} (hi : i ∈ things)
    (value : ι → Option α) :
    (things.filterMap fun i => (value i).map fun v => (key i, v)).lookup (key i) = value i := by
  induction things with
  | nil => simp at hi
  | cons a r ih =>
      have hRest (h : i ∈ r) := ih (fun i hi j hj => hKeys i (.tail _ hi) j (.tail _ hj)) h
      rw [List.filterMap_cons]
      by_cases hHead : key a = key i
      · obtain rfl : a = i := hKeys a (.head _) i hi hHead
        cases hValue : value a with
        | some v => simp
        | none =>
            by_cases hAgain : a ∈ r
            · exact (hRest hAgain).trans hValue
            · simp only [Option.map_none, lookup_eq_none_iff_not_mem, List.map_filterMap,
                List.mem_filterMap, not_exists, not_and]
              intro j hj hEntry
              obtain ⟨v, _, hKey⟩ : ∃ v, value j = some v ∧ key j = key a := by simpa using hEntry
              exact hAgain (hKeys j (.tail _ hj) a (.head _) hKey ▸ hj)
      · have hTail : i ∈ r := (List.mem_cons.mp hi).resolve_left fun h => hHead (h ▸ rfl)
        cases value a with
        | none => exact hRest hTail
        | some v =>
            have hOther : (key i == key a) = false := beq_false_of_ne (Ne.symm hHead)
            simp only [Option.map_some, List.lookup_cons, hOther]
            exact hRest hTail

/-- The keys in a list that is made from the values of some things are keys of things, in their order. -/
theorem keys_filterMap_sublist {ι κ α : Type} (things : List ι) (key : ι → κ) (value : ι → Option α) :
    ((things.filterMap fun i => (value i).map fun v => (key i, v)).map Prod.fst).Sublist (things.map key) := by
  induction things with
  | nil => exact List.Sublist.refl _
  | cons i things ih =>
      cases hValue : value i with
      | none =>
          rw [List.filterMap_cons_none (by rw [hValue]; rfl)]
          exact ih.cons _
      | some v =>
          rw [List.filterMap_cons_some (by rw [hValue]; rfl)]
          exact ih.cons_cons _

end Dalvik.Lookup
