import Dalvik.Proofs.Ledger
import Dalvik.Proofs.Refinement

/-!
The identities that a heap hands out. Whatever it is asked for, different instances have different identities, and string
literals share one exactly if they have the same text. No identity is handed out again that a register refers to; one that
is only inside an array or a box, or in the result or the exception, is safe if it is below the first one to hand out.
-/

namespace Dalvik

namespace Heap

/-- What a heap can be asked for. -/
inductive Request where
  /-- An identity for an object of which nothing is tracked. -/
  | object (type : Descriptor)
  | string (text : String)
  | box (type : Descriptor) (v : Value)
  | handle (m : MethodReference)
  | array (type : Descriptor) (length : Option Nat) (elements : Option (List Value))
  | intern (text : String)
  | literal (l : Literal)
  deriving DecidableEq, Repr

/-- The text of the literal whose shared instance is asked for. -/
def Request.text? : Request → Option String
  | intern text => some text
  | literal (.string text) => some text
  | _ => none

/-- What a heap answers. -/
def answer (h : Heap) : Request → Value × Heap
  | .object type => (.object h.alloc.1 type, h.alloc.2)
  | .string text => h.newString text
  | .box type v => h.newBox type v
  | .handle m => h.newMethod m
  | .array type length elements => h.newArray type length elements
  | .intern text => h.intern text
  | .literal l => h.literal l

/-- What a heap answers to one request after another, and the heap after that. -/
def answers (h : Heap) : List Request → List (Request × Value) × Heap
  | [] => ([], h)
  | r :: rs =>
    let (v, h) := h.answer r
    let (rest, h) := h.answers rs
    ((r, v) :: rest, h)

variable {h k : Heap} {r : Request} {v : Value} {first : Nat} {asked : List (Request × Value)}

/-- The shared instance of a literal is kept for its text, and what is kept for other texts stays. -/
theorem answer_of_text {t : String} (ht : r.text? = some t) : h.answer r = h.intern t := by
  cases r with
  | intern text =>
      obtain rfl := Option.some.inj ht
      rfl
  | literal l =>
      cases l with
      | string text =>
          obtain rfl := Option.some.inj ht
          rfl
      | _ => cases ht
  | _ => cases ht

/-- Every other instance has the next identity, and nothing is kept for a text. -/
theorem answer_of_no_text (ht : r.text? = none) :
    (h.answer r).2.interned = h.interned ∧
      (((h.answer r).1.id? = some h.next ∧ (h.answer r).2.next = h.next + 1) ∨
        ((h.answer r).1.id? = none ∧ (h.answer r).2 = h)) := by
  cases r with
  | intern text => cases ht
  | literal l =>
      cases l with
      | string text => cases ht
      | _ => exact ⟨rfl, .inr ⟨rfl, rfl⟩⟩
  | _ => exact ⟨rfl, .inl ⟨rfl, rfl⟩⟩

theorem grows_answer (h : Heap) (r : Request) : h.Grows (h.answer r).2 := by
  cases r with
  | intern text => exact grows_internId h text
  | literal l => exact grows_literal h l
  | _ => exact grows_alloc h

/-- What is kept after a text has been asked for has been kept before, or is its instance. -/
theorem lookup_intern {t u : String} {i : Nat} (hLookup : (h.intern u).2.interned.lookup t = some i) :
    h.interned.lookup t = some i ∨ u = t ∧ (h.internId u).1 = i := by
  cases hText : h.interned.lookup u with
  | some id =>
      rw [intern, internId_of_some hText] at hLookup
      exact .inl hLookup
  | none =>
      rw [intern, internId_of_none hText] at hLookup
      rw [internId_of_none hText]
      by_cases hSame : t = u
      · subst hSame
        exact .inr ⟨rfl, by simpa using hLookup⟩
      · exact .inl (by simpa [List.lookup_cons, beq_false_of_ne hSame] using hLookup)

/-- What a heap remembers of its answers. None of them has an identity below `first`. -/
structure Remembers (first : Nat) (asked : List (Request × Value)) (h : Heap) : Prop where
  sound : h.Sound
  start : first ≤ h.next
  range : ∀ p ∈ asked, ∀ i ∈ p.2.id?, first ≤ i ∧ i < h.next
  texts : ∀ p ∈ asked, ∀ t ∈ p.1.text?, ∃ i, p.2 = .string i t ∧ h.interned.lookup t = some i
  interned : ∀ t i, h.interned.lookup t = some i → ∃ p ∈ asked, p.1.text? = some t ∧ p.2 = .string i t
  shared : ∀ p ∈ asked, ∀ i ∈ p.2.id?, ∀ t, h.interned.lookup t = some i → p.1.text? = some t
  apart : asked.Pairwise fun p q => ∀ i ∈ p.2.id?, i ∈ q.2.id? → ∃ t, p.1.text? = some t ∧ q.1.text? = some t

theorem remembers_after (s : State) : Remembers (after s).next [] (after s) where
  sound := sound_after s
  start := Nat.le_refl _
  range := by simp
  texts := by simp
  interned := by simp [after]
  shared := by simp
  apart := .nil

/-- The identity of a new answer is new, or has been kept for its text. -/
theorem Remembers.add (h₀ : Remembers first asked h) (hGrows : h.Grows k)
    (hId : ∀ i ∈ v.id?, i < k.next ∧ (h.next ≤ i ∨ ∃ t, r.text? = some t ∧ h.interned.lookup t = some i))
    (hText : ∀ t ∈ r.text?, ∃ i, v = .string i t ∧ k.interned.lookup t = some i)
    (hKept : ∀ t i, k.interned.lookup t = some i →
      h.interned.lookup t = some i ∨ r.text? = some t ∧ v = .string i t) :
    Remembers first (asked ++ [(r, v)]) k := by
  -- an identity that is met again is one of a text
  have hMet (p) (hp : p ∈ asked) (i) (hi : i ∈ p.2.id?) (hAgain : i ∈ v.id?) :
      ∃ t, p.1.text? = some t ∧ r.text? = some t := by
    rcases (hId i hAgain).2 with hNew | ⟨t, ht, hLookup⟩
    · exact absurd (h₀.range p hp i hi).2 (Nat.not_lt_of_le hNew)
    · exact ⟨t, h₀.shared p hp i hi t hLookup, ht⟩
  refine ⟨hGrows.sound h₀.sound, Nat.le_trans h₀.start hGrows.next, fun p hp i hi => ?_, fun p hp t ht => ?_,
    fun t i hLookup => ?_, fun p hp i hi t hLookup => ?_,
    List.pairwise_append.mpr ⟨h₀.apart, List.pairwise_singleton _ _, by simpa using hMet⟩⟩
  · rcases List.mem_append.mp hp with hOld | hLast
    · have hRange := h₀.range p hOld i hi
      exact ⟨hRange.1, Nat.lt_of_lt_of_le hRange.2 hGrows.next⟩
    · obtain rfl := List.mem_singleton.mp hLast
      obtain ⟨hLess, hNew | ⟨t, _, hLookup⟩⟩ := hId i hi
      · exact ⟨Nat.le_trans h₀.start hNew, hLess⟩
      · obtain ⟨q, hq, _, hString⟩ := h₀.interned t i hLookup
        exact ⟨(h₀.range q hq i (by rw [hString]; rfl)).1, hLess⟩
  · rcases List.mem_append.mp hp with hOld | hLast
    · obtain ⟨i, hString, hLookup⟩ := h₀.texts p hOld t ht
      exact ⟨i, hString, hGrows.kept t i hLookup⟩
    · obtain rfl := List.mem_singleton.mp hLast
      exact hText t ht
  · rcases hKept t i hLookup with hOld | hNew
    · obtain ⟨p, hp, hAsked⟩ := h₀.interned t i hOld
      exact ⟨p, List.mem_append_left _ hp, hAsked⟩
    · exact ⟨(r, v), by simp, hNew⟩
  · rcases List.mem_append.mp hp with hOld | hLast
    · rcases hGrows.fresh t i hLookup with hThen | hNew
      · exact h₀.shared p hOld i hi t hThen
      · exact absurd (h₀.range p hOld i hi).2 (Nat.not_lt_of_le hNew)
    · obtain rfl := List.mem_singleton.mp hLast
      rcases hKept t i hLookup with hOld | ⟨hSame, _⟩
      · rcases (hId i hi).2 with hNew | ⟨u, hu, hOther⟩
        · exact absurd (h₀.sound.below t i hOld) (Nat.not_lt_of_le hNew)
        · rwa [h₀.sound.distinct t u i hOld hOther]
      · exact hSame

/-- Every answer is remembered with those before it. -/
theorem Remembers.answer (h₀ : Remembers first asked h) (r : Request) :
    Remembers first (asked ++ [(r, (h.answer r).1)]) (h.answer r).2 := by
  refine h₀.add (grows_answer h r) (fun i hi => ?_) (fun t ht => ?_) fun t i hLookup => ?_
  · cases ht : r.text? with
    | none =>
        rcases (answer_of_no_text ht).2 with ⟨hId, hNext⟩ | ⟨hId, _⟩ <;> rw [hId] at hi
        · obtain rfl := Option.some.inj hi
          exact ⟨by omega, .inl (Nat.le_refl _)⟩
        · cases hi
    | some t =>
        rw [answer_of_text ht] at hi ⊢
        obtain rfl := Option.some.inj hi
        have hLookup := lookup_internId h t
        have hGrows := grows_internId h t
        exact ⟨(hGrows.sound h₀.sound).below t _ hLookup,
          (hGrows.fresh t _ hLookup).elim (fun hOld => .inr ⟨t, rfl, hOld⟩) .inl⟩
  · rw [answer_of_text ht]
    exact ⟨_, rfl, lookup_internId h t⟩
  · cases hText : r.text? with
    | none => exact .inl ((answer_of_no_text hText).1 ▸ hLookup)
    | some u =>
        rw [answer_of_text hText] at hLookup ⊢
        rcases lookup_intern hLookup with hOld | ⟨rfl, rfl⟩
        · exact .inl hOld
        · exact .inr ⟨rfl, rfl⟩

/-- So is every sequence of answers. -/
theorem Remembers.answers (h₀ : Remembers first asked h) (rs : List Request) :
    Remembers first (asked ++ (h.answers rs).1) (h.answers rs).2 := by
  induction rs generalizing h asked with
  | nil => simpa [Heap.answers] using h₀
  | cons r rs ih => simpa [Heap.answers] using ih (h₀.answer r)

/-- Answers that tell instances apart: two have the same identity only as literals, literals have the same one exactly if
they have the same text, and a value is taken for a literal exactly if it was the answer to one. -/
structure Distinguishes (asked : List (Request × Value)) (h : Heap) : Prop where
  apart : asked.Pairwise fun p q => ∀ i ∈ p.2.id?, i ∈ q.2.id? → ∃ t, p.1.text? = some t ∧ q.1.text? = some t
  shared : ∀ p ∈ asked, ∀ q ∈ asked, ∀ t u, p.1.text? = some t → q.1.text? = some u →
    ∃ i j, p.2 = .string i t ∧ q.2 = .string j u ∧ (i = j ↔ t = u)
  interned : ∀ v, h.isInterned v = true ↔ ∃ p ∈ asked, (∃ t, p.1.text? = some t) ∧ p.2 = v

theorem Remembers.distinguishes (h₀ : Remembers first asked h) : Distinguishes asked h where
  apart := h₀.apart
  shared p hp q hq t u ht hu := by
    obtain ⟨i, hi, hLeft⟩ := h₀.texts p hp t ht
    obtain ⟨j, hj, hRight⟩ := h₀.texts q hq u hu
    refine ⟨i, j, hi, hj, fun hSame => ?_, fun hSame => ?_⟩
    · exact h₀.sound.distinct t u i hLeft (hSame ▸ hRight)
    · subst hSame
      exact Option.some.inj (hLeft.symm.trans hRight)
  interned v := by
    constructor
    · intro hv
      cases v with
      | string i t =>
          obtain ⟨p, hp, ht, hString⟩ := h₀.interned t i (of_decide_eq_true hv)
          exact ⟨p, hp, ⟨t, ht⟩, hString⟩
      | _ => cases hv
    · rintro ⟨p, hp, ⟨t, ht⟩, rfl⟩
      obtain ⟨i, hString, hLookup⟩ := h₀.texts p hp t ht
      rw [hString]
      exact decide_eq_true hLookup

/-- Asked for enough objects, a heap hands out every identity from the next one on. -/
theorem exists_answer {i : Nat} (h : Heap) (type : Descriptor) (hi : h.next ≤ i) (n : Nat) (hn : i < h.next + n) :
    ∃ p ∈ (h.answers (List.replicate n (.object type))).1, p.2.id? = some i := by
  induction n generalizing h with
  | zero => omega
  | succ n ih =>
      rcases Nat.eq_or_lt_of_le hi with rfl | hLater
      · exact ⟨_, .head _, rfl⟩
      · obtain ⟨p, hp, hId⟩ := ih h.alloc.2 hLater (by simp only [alloc]; omega)
        exact ⟨p, .tail _ hp, hId⟩

end Heap

end Dalvik
