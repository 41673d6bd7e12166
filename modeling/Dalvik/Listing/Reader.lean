import Dalvik.Listing.Opcode
import Dalvik.Method

/-!
Reading a class listing line by line. A label stands for the instruction that follows it, wherever in
the method it is used, so that labels become addresses only when a method is complete.
-/

namespace Dalvik

/-- A class with its methods. -/
structure ClassDefinition where
  name : Descriptor
  methods : List Method
  deriving DecidableEq, Repr

namespace Listing

/-- A handler as a listing states it: the type, the ends of the range and the target. -/
structure CatchLine where
  type : Option Descriptor
  start : String
  stop : String
  handler : String
  deriving DecidableEq, Repr

/-- A method of which some lines have been read. The code and the handlers are held in reverse. A
defined label is held with the number of instructions before it. -/
structure OpenMethod where
  reference : MethodReference
  flags : AccessFlags
  headerLine : Nat
  locals : Nat
  code : List (Instruction String)
  labels : List (String × Nat)
  catches : List CatchLine

namespace OpenMethod

/-- A complaint about a line of the method. -/
def complain (m : OpenMethod) (line : Nat) (c : Complaint) : Error :=
  .listing m.reference.text line c

/-- Reads a method header: flags, and the reference without the class. -/
def ofHeader (definer : Descriptor) (line : Nat) (header : List Char) : Except Error OpenMethod := do
  let complain (c : Complaint) : Error := .listing (String.ofList (Text.trim header)) line c
  let words := Text.words header
  match words.getLast? with
  | none => throw (complain .missingMethodName)
  | some signature =>
    let flags ← words.dropLast.mapM fun w =>
      match AccessFlag.ofKeyword? (String.ofList w) with
      | some flag => Except.ok flag
      | none => .error (complain (.unknownFlag (String.ofList w)))
    let reference ←
      (MethodReference.parse (definer.text ++ "->" ++ String.ofList signature)).mapError .malformed
    let flags := AccessFlags.ofList flags
    return {
      reference
      flags := if reference.isConstructor then flags.insert .constructor else flags
      headerLine := line
      locals := 0
      code := []
      labels := []
      catches := [] }

/-- Reads a `.catch` line. -/
def addCatch (m : OpenMethod) (number : Nat) (line : List Char) : Except Error OpenMethod :=
  match readCatch? line with
  | none => .error (m.complain number .badCatch)
  | some parts => do
    let type ←
      if parts.type = "all".toList then pure none
      else
        let d ← (Descriptor.parse (String.ofList parts.type)).mapError Error.malformed
        pure (some d)
    let added := { type, start := parts.start, stop := parts.stop, handler := parts.handler }
    return { m with catches := added :: m.catches }

/-- Reads a line that starts with a dot. Directives of no effect on the code are passed over. -/
def addDirective (m : OpenMethod) (number : Nat) (line : List Char) : Except Error OpenMethod :=
  match Text.dropLead? ".locals".toList line with
  | some rest =>
    match Text.unsigned? 0x10000 (Text.trim rest) with
    | some n => .ok { m with locals := n }
    | none => .error (m.complain number .badLocals)
  | none =>
    if ".registers".toList.isPrefixOf line then .error (m.complain number .registersDirective)
    else if ".catch".toList.isPrefixOf line then m.addCatch number line
    else .ok m

/-- Reads a line inside a method. -/
def addLine (m : OpenMethod) (number : Nat) (line : List Char) : Except Error OpenMethod :=
  if line.head? = some '.' then m.addDirective number line
  else
    match labelName? line with
    | some name =>
      if (m.labels.lookup name).isSome then
        .error (m.complain number (.duplicateLabel (String.ofList line)))
      else .ok { m with labels := (name, m.code.length) :: m.labels }
    | none =>
      match readLine m.locals line with
      | .ok i => .ok { m with code := i :: m.code }
      | .error c => .error (m.complain number c)

/-- Complains about a label that is used and not defined. -/
def requireLabel (m : OpenMethod) (name : String) : Except Error Unit :=
  if (m.labels.lookup name).isSome then .ok ()
  else .error (m.complain m.headerLine (.undefinedLabel name))

/-- The place that a label stands for in code with given addresses: that of the instruction after
the label, and the end of the code if there is none. -/
def place (m : OpenMethod) (addresses : List Address) (stop : Address) (name : String) : Address :=
  ((m.labels.lookup name).bind fun index => addresses[index]?).getD stop

/-- The blocks with one more handler. Handlers for the same range are kept together. -/
def addHandler (tries : List TryBlock) (start stop : Address) (h : Handler) : List TryBlock :=
  match tries with
  | [] => [⟨start, stop, [h]⟩]
  | b :: r =>
    if b.start = start ∧ b.stop = stop then { b with handlers := b.handlers ++ [h] } :: r
    else b :: addHandler r start stop h

/-- The method that the lines make up. Every label that is used has to be defined, and the method
has to be valid. -/
def close (m : OpenMethod) : Except Error Method := do
  let code := m.code.reverse
  let catches := m.catches.reverse
  code.forM fun i => i.targets.forM m.requireLabel
  catches.forM fun c => [c.start, c.stop, c.handler].forM m.requireLabel
  let place := m.place (Instruction.addressesFrom 0 code) (Instruction.totalSize code)
  let method : Method :=
    { reference := m.reference
      flags := m.flags
      locals := m.locals
      code := code.map (Instruction.mapTargets place)
      tries := catches.foldl (fun tries c =>
        addHandler tries (place c.start) (place c.stop) ⟨c.type, place c.handler⟩) [] }
  method.validate
  return method

end OpenMethod

/-- A class of which some lines have been read. The methods are held in reverse. -/
structure OpenClass where
  name : Option Descriptor
  methods : List Method
  current : Option OpenMethod

namespace OpenClass

/-- The class before its first line. -/
def empty : OpenClass := ⟨none, [], none⟩

/-- A complaint about a line outside methods. -/
def complain (line : Nat) (c : Complaint) : Error := .listing "<class>" line c

/-- Reads a line outside methods. -/
def addHeader (c : OpenClass) (number : Nat) (line : List Char) : Except Error OpenClass :=
  match Text.dropLead? ".class".toList line with
  | some rest =>
    match (Text.words rest).getLast? with
    | none => .error (complain number .missingClassName)
    | some name => do
      let name ← (Descriptor.parse (String.ofList name)).mapError Error.malformed
      return { c with name := some name }
  | none =>
    match Text.dropLead? ".method".toList line with
    | some rest =>
      match c.name with
      | none => .error (complain number .methodBeforeClass)
      | some name => do
        let m ← OpenMethod.ofHeader name number rest
        return { c with current := some m }
    | none =>
      if ".source".toList.isPrefixOf line || ".super".toList.isPrefixOf line then .ok c
      else .error (complain number (.unexpected (String.ofList line)))

/-- Reads a line. Comments and blank lines are passed over. -/
def addLine (c : OpenClass) (line : List Char × Nat) : Except Error OpenClass :=
  let text := Text.trim (dropComment line.1)
  if text.isEmpty then .ok c
  else
    match c.current with
    | none => c.addHeader line.2 text
    | some m =>
      if text = ".end method".toList then do
        let method ← m.close
        return { c with methods := method :: c.methods, current := none }
      else do
        let m ← m.addLine line.2 text
        return { c with current := some m }

/-- The class that the lines make up. -/
def close (c : OpenClass) : Except Error ClassDefinition :=
  match c.current with
  | some m => .error (m.complain m.headerLine .missingEnd)
  | none =>
    match c.name with
    | none => .error (complain 0 .missingClass)
    | some name => .ok { name, methods := c.methods.reverse }

end OpenClass

end Listing

/-- Reads a class listing. -/
def ClassDefinition.read (listing : String) : Except Error ClassDefinition := do
  let c ← ((Text.lines listing.toList).zipIdx 1).foldlM Listing.OpenClass.addLine .empty
  c.close

end Dalvik
