import Dalvik.Method

/-!
Editing the body of a method. An edit moves instructions, and every place that is jumped to or that
bounds a range of handlers moves with them.
-/

namespace Dalvik

/-- Where an edit moves instructions, and where control that went to an old address goes. The end of
the method counts as a place that control can be sent to. -/
structure Relocation where
  insns : List (Address × Address)
  labels : List (Address × Address)
  deriving DecidableEq, Repr

namespace Relocation

/-- The edit that has not happened. -/
def empty : Relocation := ⟨[], []⟩

/-- The new address of an instruction that is still there. -/
def insn? (r : Relocation) (a : Address) : Option Address := r.insns.lookup a

/-- Where control that went to an old address goes. -/
def label (r : Relocation) (a : Address) : Address := (r.labels.lookup a).getD a

/-- Two edits one after the other as one edit. -/
def andThen (first second : Relocation) : Relocation :=
  if first.labels.isEmpty then second
  else
    { insns := first.insns.filterMap fun p => (second.insn? p.2).map fun a => (p.1, a)
      labels := first.labels.map fun p => (p.1, second.label p.2) }

/-- An ascending list of pairs with one more pair, in place of that with the same key if there is
one. -/
def insertPair (p : Address × Address) : List (Address × Address) → List (Address × Address)
  | [] => [p]
  | q :: r =>
    if p.1 < q.1 then p :: q :: r
    else if p.1 = q.1 then p :: r
    else q :: insertPair p r

/-- The edit where an instruction counts as moved to where control that went to it goes. -/
def followLabel (r : Relocation) (a : Address) : Relocation :=
  { r with insns := insertPair (a, r.label a) r.insns }

end Relocation

/-- The block with its places moved. -/
def TryBlock.relocate (r : Relocation) (b : TryBlock) : TryBlock where
  start := r.label b.start
  stop := r.label b.stop
  handlers := b.handlers.map fun h => { h with target := r.label h.target }

namespace Code

/-- Where the instruction at a position moves to, when `removed` instructions from `index` on are
replaced by `added` others. -/
def survivor? (index removed added i : Nat) : Option Nat :=
  if i < index then some i
  else if i < index + removed then none
  else some (i - removed + added)

/-- Where control that went to the instruction at a position goes. In place of a removed one stands
what has taken its place; `retarget` says whether that holds of what is inserted before an
instruction, too. -/
def landing (index removed added : Nat) (retarget : Bool) (i : Nat) : Nat :=
  if i = index && retarget then index
  else (survivor? index removed added i).getD index

end Code

namespace Method

/-- The method with its places moved, without the blocks that cover nothing any more. -/
def relocate (m : Method) (r : Relocation) : Method :=
  { m with
    code := m.code.map (Instruction.mapTargets r.label)
    tries := (m.tries.map (TryBlock.relocate r)).filter fun b => b.start < b.stop }

/-- The method with `removed` instructions from a position on replaced by others, which jump to
places of the old method. If nothing is removed, `retarget` says whether control that went to the
instruction at the position goes to the new ones. -/
def splice (m : Method) (index removed : Nat) (new : Code) (retarget : Bool) :
    Method × Relocation :=
  let code : Code := m.code.take index ++ new ++ m.code.drop (index + removed)
  let old := m.code.addresses.zipIdx
  let r : Relocation :=
    { insns := old.filterMap fun p =>
        (Code.survivor? index removed new.length p.2).map fun i => (p.1, code.addressAt i)
      labels :=
        (old.map fun p => (p.1, code.addressAt (Code.landing index removed new.length retarget p.2)))
          ++ [(m.stop, code.size)] }
  ({ m with code }.relocate r, r)

/-- The method after a splice that does not go beyond its end. -/
def trySplice (m : Method) (index removed : Nat) (new : Code) (retarget : Bool) :
    Except Error (Method × Relocation) :=
  if index + removed ≤ m.code.length then .ok (m.splice index removed new retarget)
  else .error .outOfBounds

/-- The number of a register after `count` local registers have been added to `locals`. -/
def shiftRegister (locals count : Nat) (r : Register) : Register :=
  if locals ≤ r then r + count else r

/-- Whether there are numbers for `count` more local registers and for the parameters after them. -/
def hasRoom (m : Method) (count : Nat) : Bool :=
  m.locals + count < Register.limit &&
    m.code.all fun i => (i.reads ++ i.writes?.toList).all fun r =>
      shiftRegister m.locals count r < Register.limit

/-- The method with more local registers, as long as all have numbers. The parameters move up. -/
def addLocals (m : Method) (count : Nat) : Method :=
  { m with
    locals := m.locals + count
    code := m.code.map (Instruction.mapRegisters (shiftRegister m.locals count)) }

/-- The method after local registers have been added, if there are numbers for all. -/
def tryAddLocals (m : Method) (count : Nat) : Except Error Method :=
  if m.hasRoom count then .ok (m.addLocals count) else .error .outOfBounds

end Method

end Dalvik
