import Dalvik.Proofs.Likeness

/-!
A step depends only on the registers that its instruction reads. Two steps of the same instruction, from states
that agree on these and on what passes between instructions, use up the same and lead to the same places, where
the states agree wherever those before the steps did. What the instruction assigns they agree on, too, except in
a handler, which is entered with the registers as they were.
-/

namespace Dalvik

/-- Two states hold the same in a register, or neither has it. -/
def State.Shares (s t : State) (r : Register) : Prop := s.registers[r]? = t.registers[r]?

/-- Two states agree on some registers, and on what an instruction assigns unless an exception has kept it
from that. -/
structure State.Answers (i : Instruction Address) (keep : Register → Prop) (s t : State) : Prop where
  coincides : s.Coincides keep t
  written : s.exception = none → ∀ r, i.writes? = some r → s.registers[r]? = t.registers[r]?

namespace Semantics.Context

open Run (Agree)

variable {c : Context} {keep : Register → Prop} {i : Instruction Address} {pre pre' : State} {o o' : Outcome}

/-- A handler's state is the one before the instruction, with the exception. -/
theorem answers_entering (hPre : pre.Agrees keep pre') (v : Value) :
    State.Answers i keep { pre with result := none, exception := some v }
      { pre' with result := none, exception := some v } :=
  ⟨⟨hPre.pass _ _ _ _, rfl, rfl⟩, nofun⟩

theorem successors_answer (hPre : pre.Agrees keep pre') (ho : o.Agrees keep i o') (a : Address) :
    Concur (Paired (State.Answers i keep)) (c.successors a pre o) (c.successors a pre' o') := by
  obtain ⟨hFlow, hHazard, hPost, hWritten⟩ := ho
  exact paired_successors rfl rfl hFlow hHazard (fun hNot => ⟨hPost, fun _ => hWritten hNot⟩)
    fun _ v => answers_entering hPre v

/-- Steps of an instruction from states that agree on what it reads. -/
structure Responds (i : Instruction Address) (keep : Register → Prop) (x y : Step) : Prop where
  post : x.post.Coincides keep y.post
  successors : Paired (State.Answers i keep) x.successors y.successors

theorem apply_responds {a : Address} (hi : c.method.code.at? a = some i) (hReads : ∀ r ∈ i.reads, keep r)
    (hPre : pre.Coincides keep pre') : Agree (c.apply a pre) (c.apply a pre') (Responds i keep) := by
  rw [apply_eq c pre hi, apply_eq c pre' hi]
  refine (execute_agrees hPre.agrees hPre.agrees.resting hReads (fun _ _ => hPre.result)
    (fun _ _ => hPre.exception) a).bind fun o o' ho => Run.agree_ofExcept ?_
  have hLeads := successors_answer (c := c) hPre.agrees ho a
  generalize c.successors a pre o = x, c.successors a pre' o' = y at hLeads
  cases hLeads with
  | ok hPaired => exact .ok ⟨ho.post, hPaired⟩
  | error e => exact .error e

end Semantics.Context

namespace Machine

open Semantics.Context (Responds)

/-- Steps from two states that agree on what the instruction reads use up the same of the heap and the budget,
and fail alike or lead to the same places. There the states agree wherever those before the step did, and
what has been assigned is the same, too, unless the place is a handler's. -/
theorem apply_depends_on_reads (m : Machine) (method : Method) (depth : Nat) (a : Address) {pre pre' : State}
    (hShape : pre.SameShape pre') (hResult : pre.result = pre'.result)
    (hException : pre.exception = pre'.exception)
    (hReads : ∀ i, method.code.at? a = some i → ∀ r ∈ i.reads, pre.Shares pre' r) (s : Supply) :
    ((m.context method depth).apply a pre s).2 = ((m.context method depth).apply a pre' s).2 ∧
      Concur (fun x y => ∃ i, method.code.at? a = some i ∧ Responds i (pre.Shares pre') x y)
        ((m.context method depth).apply a pre s).1 ((m.context method depth).apply a pre' s).1 := by
  cases hi : method.code.at? a with
  | none =>
      have hNone : (m.context method depth).method.code.at? a = none := hi
      rw [Semantics.Context.apply_of_at?_eq_none hNone, Semantics.Context.apply_of_at?_eq_none hNone]
      exact ⟨rfl, .error _⟩
  | some i =>
      have hPre : pre.Coincides (pre.Shares pre') pre' := ⟨⟨hShape, fun _ hr => hr⟩, hResult, hException⟩
      obtain ⟨hSupply, hStep⟩ :=
        Semantics.Context.apply_responds (c := m.context method depth) hi (hReads i hi) hPre s
      exact ⟨hSupply, hStep.imp fun x y h => ⟨i, rfl, h⟩⟩

/-- A method that writes an element of an array at a place that is not known. -/
def puttingMethod : Method where
  reference := ⟨⟨"La;"⟩, "run", [], .void⟩
  flags := { static := true }
  locals := 4
  code := [.arrayPut 2 0 2, .returnVoid, .moveException 3, .returnVoid]
  tries := [⟨0, 2, [⟨none, 3⟩]⟩]

/-- A state of `puttingMethod` in which two registers hold the same array. -/
def puttingState (v : Option Value) : State where
  locals := [some (.array 7 ⟨"[I"⟩ (some 1) (some [.int 0])), some (.array 7 ⟨"[I"⟩ (some 1) (some [.int 0])),
    some (.unknown .int), v]
  params := []
  result := none
  exception := none

/-- What a step of `puttingMethod` depends on. -/
def puttingContext : Semantics.Context := (⟨.empty, {}⟩ : Machine).context puttingMethod 0

theorem apply_depends_on_reads_puttingMethod :
    (∀ i, puttingMethod.code.at? 0 = some i → ∀ r ∈ i.reads,
      (puttingState none).Shares (puttingState (some (.int 3))) r) ∧
    ∀ s, (puttingContext.apply 0 (puttingState none) s).2 =
        (puttingContext.apply 0 (puttingState (some (.int 3))) s).2 ∧
      Concur (fun x y => ∃ i, puttingMethod.code.at? 0 = some i ∧
          Responds i ((puttingState none).Shares (puttingState (some (.int 3)))) x y)
        (puttingContext.apply 0 (puttingState none) s).1
        (puttingContext.apply 0 (puttingState (some (.int 3))) s).1 := by
  have hReads : ∀ i, puttingMethod.code.at? 0 = some i → ∀ r ∈ i.reads,
      (puttingState none).Shares (puttingState (some (.int 3))) r := by
    intro i hi
    obtain rfl : .arrayPut 2 0 2 = i := Option.some.inj hi
    unfold State.Shares
    decide
  exact ⟨hReads, apply_depends_on_reads ⟨.empty, {}⟩ puttingMethod 0 0 ⟨rfl, rfl⟩ rfl rfl hReads⟩

end Machine

end Dalvik
