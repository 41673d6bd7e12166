import Dalvik.Listing.Reader
import Dalvik.Proofs.Moving

/-!
Methods that have been read from listings. They are valid, and labels, which the ranges of handlers are
given by, are places of the body.
-/

namespace Dalvik

namespace Listing.OpenMethod

/-- A label stands for the start of an instruction or for the end of the body, which stay where they are
when labels are resolved. -/
theorem hasPlace_place (m : OpenMethod) (code : List (Instruction String)) (f : String → Address)
    (name : String) :
    Code.HasPlace (code.map (Instruction.mapTargets f))
      (m.place (Instruction.addressesFrom 0 code) (Instruction.totalSize code) name) := by
  rw [← Instruction.addressesFrom_map_mapTargets f, ← Instruction.totalSize_map_mapTargets f]
  generalize code.map (Instruction.mapTargets f) = code
  change Code.HasPlace code (m.place (Code.addresses code) (Code.size code) name)
  unfold place
  cases h : (m.labels.lookup name).bind fun index => (Code.addresses code)[index]? with
  | none => exact ⟨code.length, Nat.le_refl _, Code.addressAt_length code⟩
  | some a =>
      obtain ⟨n, _, hn⟩ := Option.bind_eq_some_iff.mp h
      rw [Code.addresses_getElem?] at hn
      split at hn
      · rename_i hBound
        exact ⟨n, Nat.le_of_lt hBound, Option.some.inj hn⟩
      · cases hn

theorem forall_addHandler {P : Address → Prop} {tries : List TryBlock} {start stop : Address}
    (hStart : P start) (hStop : P stop) (h : Handler)
    (hTries : ∀ b ∈ tries, P b.start ∧ P b.stop) :
    ∀ b ∈ addHandler tries start stop h, P b.start ∧ P b.stop := by
  induction tries with
  | nil => simp [addHandler, hStart, hStop]
  | cons first rest ih =>
      have hFirst := hTries first (.head _)
      have hRest := fun b hb => hTries b (.tail _ hb)
      unfold addHandler
      split
      · exact List.forall_mem_cons.mpr ⟨hFirst, hRest⟩
      · exact List.forall_mem_cons.mpr ⟨hFirst, ih hRest⟩

/-- The handlers of a method are collected range by range, and every range is between two labels. -/
theorem forall_foldl_addHandler {P : Address → Prop} {place : String → Address}
    (hPlace : ∀ name, P (place name)) (catches : List CatchLine) {tries : List TryBlock}
    (hTries : ∀ b ∈ tries, P b.start ∧ P b.stop) :
    ∀ b ∈ catches.foldl (fun tries c =>
        addHandler tries (place c.start) (place c.stop) ⟨c.type, place c.handler⟩) tries,
      P b.start ∧ P b.stop := by
  induction catches generalizing tries with
  | nil => exact hTries
  | cons c catches ih => exact ih (forall_addHandler (hPlace _) (hPlace _) _ hTries)

/-- A method that is complete is valid, and handlers cover ranges of its instructions. -/
theorem close_ends (m : OpenMethod) :
    Ends m.close (fun method => method.validate = .ok () ∧ method.Bounded) fun _ => True := by
  unfold close
  rw [ends_bind]
  refine ends_of_all fun _ => ?_
  rw [ends_bind]
  refine ends_of_all fun _ => ?_
  rw [ends_bind]
  cases hValid : Method.validate _ with
  | error e => trivial
  | ok _ =>
      exact ⟨hValid, forall_foldl_addHandler (m.hasPlace_place _ _) _ fun b hb => nomatch hb⟩

end Listing.OpenMethod

namespace Listing.OpenClass

/-- The methods that have been read so far are valid and bounded. -/
def Complete (c : OpenClass) : Prop := ∀ m ∈ c.methods, m.validate = .ok () ∧ m.Bounded

variable {c : OpenClass}

theorem complete_empty : empty.Complete := fun _ hm => nomatch hm

theorem addHeader_ends (h : c.Complete) (number : Nat) (line : List Char) :
    Ends (c.addHeader number line) Complete fun _ => True := by
  unfold addHeader
  split
  · split
    · trivial
    · rw [ends_bind]
      exact ends_of_all fun _ => h
  · split
    · split
      · trivial
      · rw [ends_bind]
        exact ends_of_all fun _ => h
    · split
      · exact h
      · trivial

/-- A line only adds a method that is valid and bounded. -/
theorem addLine_ends (h : c.Complete) (line : List Char × Nat) :
    Ends (c.addLine line) Complete fun _ => True := by
  unfold addLine
  dsimp only
  split
  · exact h
  · cases hCurrent : c.current with
    | none => exact addHeader_ends h line.2 _
    | some m =>
        dsimp only
        split
        · rw [ends_bind]
          exact m.close_ends.imp (fun _ hm => List.forall_mem_cons.mpr ⟨hm, h⟩) fun _ _ => trivial
        · rw [ends_bind]
          exact ends_of_all fun _ => h

theorem foldlM_addLine_ends (h : c.Complete) (lines : List (List Char × Nat)) :
    Ends (lines.foldlM addLine c) Complete fun _ => True := by
  induction lines generalizing c with
  | nil => exact h
  | cons line lines ih =>
      rw [List.foldlM_cons, ends_bind]
      exact (addLine_ends h line).imp (fun _ => ih) fun _ _ => trivial

end Listing.OpenClass

/-- Every method that is read from a listing is valid, and its handlers cover ranges of its
instructions. -/
theorem ClassDefinition.bounded_of_read {listing : String} {d : ClassDefinition}
    (h : read listing = .ok d) : ∀ m ∈ d.methods, m.validate = .ok () ∧ m.Bounded := by
  obtain ⟨c, hLines, hClose⟩ := except_bind_eq_ok.mp h
  have hComplete := (Listing.OpenClass.foldlM_addLine_ends Listing.OpenClass.complete_empty _).of_eq_ok hLines
  unfold Listing.OpenClass.close at hClose
  split at hClose
  · cases hClose
  · split at hClose
    · cases hClose
    · obtain rfl := Except.ok.inj hClose
      exact fun m hm => hComplete m (List.mem_reverse.mp hm)

end Dalvik
