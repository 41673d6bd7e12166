import Dalvik.Pass

/-!
Calling directly what is called by reflection. The arguments are taken out of their array into fresh
registers, numbers out of their boxes, and a number that is returned is put into one.
-/

namespace Dalvik

/-- The class that holds a value of a primitive type as an object, and its method that gives the value
back. -/
structure Boxing where
  type : Descriptor
  getter : String

/-- How values of a primitive type are boxed. -/
def Descriptor.boxing? (d : Descriptor) : Option Boxing :=
  if d = .boolean then some ⟨⟨"Ljava/lang/Boolean;"⟩, "booleanValue"⟩
  else if d = .byte then some ⟨⟨"Ljava/lang/Byte;"⟩, "byteValue"⟩
  else if d = .char then some ⟨⟨"Ljava/lang/Character;"⟩, "charValue"⟩
  else if d = .short then some ⟨⟨"Ljava/lang/Short;"⟩, "shortValue"⟩
  else if d = .int then some ⟨.integerBox, "intValue"⟩
  else if d = .long then some ⟨⟨"Ljava/lang/Long;"⟩, "longValue"⟩
  else if d = .float then some ⟨⟨"Ljava/lang/Float;"⟩, "floatValue"⟩
  else if d = .double then some ⟨⟨"Ljava/lang/Double;"⟩, "doubleValue"⟩
  else none

namespace Unreflection

/-- How a method is called by reflection. -/
def reflectiveCall : MethodReference :=
  ⟨.reflectedMethod, "invoke", [.object, .arrayOf .object], .object⟩

/-- A reflective call whose target is known, with the way in which the target can be called. -/
structure Site where
  address : Address
  target : MethodReference
  kind : InvokeKind
  deriving DecidableEq, Repr

/-- The number of arguments that a value stands for: an array of arguments by its length, and null for
no argument. -/
def argumentCount? : Value → Option Nat
  | .array _ _ length _ => length
  | .null _ => some 0
  | _ => none

/-- How a method with given flags is called. -/
def kindOf (flags : AccessFlags) : InvokeKind :=
  if flags.static then .static else if flags.priv then .direct else .virtual

/-- The site of an executed reflective call. All executions agree on its target and on the number of
arguments, which is right, and the calling class has access to the target. -/
def site? (cs : Classes) (g : Graph) (a : Address) : Instruction Address → Option Site
  | .invoke .virtual m args => do
    let handle ← args[0]?
    let argv ← args[2]?
    let target ← g.agreed? a fun n => (n.pre.peek? handle).bind Value.method?
    let count ← g.agreed? a fun n => (n.pre.peek? argv).bind argumentCount?
    let (_, flags) ← cs.lookup? target.definer target.name target.params
    if m = reflectiveCall && count = target.params.length && !target.isConstructor
        && (target.definer = g.method.reference.definer || flags.pub) then
      some ⟨a, target, kindOf flags⟩
    else none
  | _ => none

/-- The sites of a method, in order. -/
def sites (cs : Classes) (g : Graph) : List Site :=
  g.method.code.located.filterMap fun p =>
    if g.isReached p.1 then site? cs g p.1 p.2 else none

/-- Casts an object to the box of a primitive type, and takes the value out of it. -/
def unbox (r : Register) (type : Descriptor) : Code :=
  match type.boxing? with
  | none => []
  | some box =>
    [.checkCast r box.type, .invoke .virtual ⟨box.type, box.getter, [], type⟩ [r], .moveResult r]

/-- Puts a result of a primitive type into a box. The box is the result then. -/
def rebox (r : Register) (type : Descriptor) : Code :=
  match type.boxing? with
  | none => []
  | some box => [.moveResult r, .invoke .static ⟨box.type, "valueOf", [type], box.type⟩ [r]]

/-- Makes an object that is to be an argument of a type into one. -/
def adapt (r : Register) (type : Descriptor) : Code :=
  if type.isPrimitive then unbox r type
  else if type = .object then []
  else [.checkCast r type]

/-- Takes an argument out of the array of arguments. -/
def fetch (argv index : Register) (r : Register) (position : Nat) (type : Descriptor) : Code :=
  [.const index (.int (Int32.ofNat position)), .arrayGet r argv index] ++ adapt r type

/-- The number of fresh registers that the direct call at a site takes: one for numbers, one for the
receiver and one for each argument. -/
def Site.registerCount (s : Site) : Nat := s.target.params.length + 2

/-- The direct call at a site, with its fresh registers from `scratch` on. -/
def lower (s : Site) (receiver argv scratch : Register) : Code :=
  let index := scratch
  let self := scratch + 1
  let param (i : Nat) : Register := scratch + 2 + i
  let params := (List.range s.target.params.length).map param
  let bind : Code :=
    if s.kind = .static then [] else [.move self receiver, .checkCast self s.target.definer]
  let args := if s.kind = .static then params else self :: params
  let fetched := s.target.params.zipIdx.flatMap fun p => fetch argv index (param p.2) p.2 p.1
  bind ++ fetched ++ [.invoke s.kind s.target args] ++ rebox index s.target.ret

/-- What is moved from the result of a reflective call of a method that returns nothing is null. -/
def nullResult (a : Address) : Edit Unit := do
  let code := (← Edit.method).code
  match code.next? a with
  | none => return ()
  | some next =>
    match code.at? next with
    | some (.moveResult dst) => do
      let _ ← Edit.replace next (.const dst .null)
      return ()
    | _ => return ()

/-- Makes a reflective call a direct one. -/
def carryOut (s : Site) : Edit Unit := do
  let scratch := (← Edit.method).locals
  Edit.addLocals s.registerCount
  match (← Edit.method).code.at? s.address with
  | some (.invoke _ _ (_ :: receiver :: argv :: _)) => do
    if s.target.ret.isVoid then nullResult s.address
    let _ ← Edit.replaceMany s.address (lower s receiver argv scratch)
    return ()
  | _ => throw (.noInstruction s.address)

/-- Makes reflective calls direct ones, the last one first, so that edits leave the addresses of pending
sites alone. A graph that is not complete decides nothing. -/
def perform (cs : Classes) : Pass PassResult := do
  let g ← Pass.graph
  let found := if g.isComplete then sites cs g else []
  if found.isEmpty then return .unchanged
  else do
    found.reverse.forM fun s => do
      Pass.edit (carryOut s)
      Pass.count .unreflection
    Pass.edit Edit.markStale
    return .stale

end Unreflection

end Dalvik
