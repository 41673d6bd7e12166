import Dalvik.Proofs.Stability

/-!
Numbers for instructions that do not depend on what an instruction names. Edits change the number of a
method by those of the instructions that they take and bring, whatever the graph is like.
-/

namespace Dalvik

/-- A number for each instruction that does not depend on the places and the registers it names. -/
structure Weight where
  of : Instruction Address → Nat
  mapTargets : ∀ (f : Address → Address) (i : Instruction Address), of (i.mapTargets f) = of i
  mapRegisters : ∀ (f : Register → Register) (i : Instruction Address), of (i.mapRegisters f) = of i

namespace Weight

variable (w : Weight)

/-- The number of some instructions together. -/
def total (code : Code) : Nat := (code.map w.of).sum

@[simp] theorem total_nil : w.total [] = 0 := rfl

@[simp] theorem total_cons (i : Instruction Address) (code : Code) :
    w.total (i :: code) = w.of i + w.total code := by
  simp [total]

@[simp] theorem total_append (code code' : Code) :
    w.total (code ++ code') = w.total code + w.total code' := by
  simp [total]

@[simp] theorem total_map_mapTargets (f : Address → Address) (code : Code) :
    w.total (code.map (Instruction.mapTargets f)) = w.total code := by
  simp [total, Function.comp_def, w.mapTargets]

@[simp] theorem total_map_mapRegisters (f : Register → Register) (code : Code) :
    w.total (code.map (Instruction.mapRegisters f)) = w.total code := by
  simp [total, Function.comp_def, w.mapRegisters]

/-- A splice of one instruction exchanges its number for those of the new ones. -/
theorem total_splice {m : Method} {p : Nat} {i : Instruction Address} (hi : m.code[p]? = some i)
    (new : Code) (retarget : Bool) :
    w.total (m.splice p 1 new retarget).1.code + w.of i = w.total m.code + w.total new := by
  obtain ⟨hp, rfl⟩ := List.getElem?_eq_some_iff.mp hi
  have hSplit : m.code = m.code.take p ++ m.code[p] :: m.code.drop (p + 1) := by simp
  have hOld := congrArg w.total hSplit
  simp only [total_append, total_cons] at hOld
  simp only [Method.splice, Method.relocate, total_map_mapTargets, total_append]
  omega

end Weight

/-- From one body to another, some instructions are exchanged for others. Which ones is told only as far
as numbers go. -/
def Code.Exchanges (code old new code' : Code) : Prop :=
  ∀ w : Weight, w.total code' + w.total old = w.total code + w.total new

namespace Graph

theorem reapplyNodes_method (m : Machine) (a : Address) (ids : List NodeId) (g : Graph) :
    (reapplyNodes m a ids g).2.method = g.method := by
  induction ids generalizing g with
  | nil => rfl
  | cons id ids ih =>
      have hNode : (reapplyNode m a id g).2.method = g.method := by
        unfold reapplyNode
        split
        · rfl
        · split <;> rfl
      rw [reapplyNodes, stateful_bind_apply]
      rcases hRun : reapplyNode m a id g with ⟨e | same, g'⟩ <;> rw [hRun] at hNode
      · exact hNode
      · cases same with
        | true => exact (ih g').trans hNode
        | false => exact hNode

end Graph

namespace Edit

variable {d : Draft}

/-- What is replaced is the instruction at the address. -/
theorem replaceMany_method (a : Address) (new : Code) :
    Leads (replaceMany a new) d fun _ d' =>
      ∃ p, d.graph.method.code.indexOf? a = some p ∧
        d'.graph.method = (d.graph.method.splice p 1 new true).1 := by
  unfold Leads
  rw [replaceMany, index_bind]
  cases d.graph.method.code.indexOf? a with
  | none => trivial
  | some p => exact ⟨p, rfl, Graph.relocate_method _ _⟩

theorem replaceMany_yields {p : Nat} (hp : p < d.graph.method.code.length) (new : Code) :
    Yields (replaceMany (d.graph.method.code.addressAt p) new) d fun _ d' =>
      d'.graph.method = (d.graph.method.splice p 1 new true).1 := by
  unfold Yields
  rw [replaceMany, index_bind, Code.indexOf?_addressAt hp]
  exact Graph.relocate_method _ _

theorem replaceMany_exchanges (a : Address) (new : Code) :
    Leads (replaceMany a new) d fun _ d' =>
      ∃ i, d.graph.method.code.at? a = some i ∧
        d.graph.method.code.Exchanges [i] new d'.graph.method.code := by
  refine (replaceMany_method a new).imp fun _ d' hAll => ?_
  obtain ⟨p, hp, hMethod⟩ := hAll
  obtain ⟨hBound, rfl⟩ := Code.indexOf?_eq_some_iff.mp hp
  have hi := List.getElem?_eq_getElem hBound
  refine ⟨_, Code.at?_addressAt hi, fun w => ?_⟩
  rw [hMethod]
  simpa using w.total_splice hi new true

theorem removeEach_exchanges (combined : Relocation) (as : List Address) :
    Leads (removeEach combined as) d fun _ d' =>
      ∃ old : Code, old.length = as.length ∧
        d.graph.method.code.Exchanges old [] d'.graph.method.code := by
  induction as generalizing combined d with
  | nil => exact ⟨[], rfl, fun w => by simp⟩
  | cons a as ih =>
      unfold Leads
      cases hp : d.graph.method.code.indexOf? a with
      | none =>
          rw [removeEach, index_bind, hp]
          trivial
      | some p =>
          obtain ⟨hBound, rfl⟩ := Code.indexOf?_eq_some_iff.mp hp
          rw [removeEach_cons hp]
          refine (ih _).imp fun _ d' hAll => ?_
          obtain ⟨old, hLength, hLater⟩ := hAll
          refine ⟨d.graph.method.code[p] :: old, by simp [hLength], fun w => ?_⟩
          have hFirst := w.total_splice (List.getElem?_eq_getElem hBound) [] false
          have hRest := hLater w
          rw [Graph.removeAt, Graph.relocate_method] at hRest
          simp only [Weight.total_cons, Weight.total_nil, Graph.withMethod, Method.without] at hFirst hRest ⊢
          omega

theorem removeAll_exchanges (as : List Address) :
    Leads (removeAll as) d fun _ d' =>
      ∃ old : Code, (as ≠ [] → old ≠ []) ∧
        d.graph.method.code.Exchanges old [] d'.graph.method.code := by
  unfold Leads
  cases hCheck : d.graph.checkRemoval (Graph.ascending as) with
  | error e =>
      rw [removeAll_of_error hCheck]
      trivial
  | ok _ =>
      rw [removeAll_of_ok hCheck]
      refine (removeEach_exchanges _ _).imp fun _ d' hAll => ?_
      obtain ⟨old, hLength, hExchanges⟩ := hAll
      refine ⟨old, fun hSome hNone => hSome ?_, hExchanges⟩
      rw [hNone, List.length_nil, List.length_reverse] at hLength
      have hEmpty := List.length_eq_zero_iff.mp hLength.symm
      exact List.eq_nil_iff_forall_not_mem.mpr fun a ha => by
        simpa [hEmpty] using Graph.mem_ascending.mpr ha

theorem refresh_method (m : Machine) (a : Address) :
    Leads (refresh m a) d fun _ d' => d'.graph.method = d.graph.method := by
  have hMethod : (refresh m a d).2.graph.method = d.graph.method := by
    rcases refresh_graph m a d with hSame | hAgain
    · rw [hSame]
    · rw [hAgain]
      exact Graph.reapplyNodes_method m a _ d.graph
  unfold Leads
  split
  · rename_i hRun
    rwa [hRun] at hMethod
  · trivial

end Edit

end Dalvik
