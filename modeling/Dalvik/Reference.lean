import Dalvik.Descriptor

/-!
References to the members of classes, and how they are written.
-/

namespace Dalvik

/-- A text that is not of the form that its place asks for. -/
inductive Malformed where
  | descriptor (text : String)
  | method (text : String)
  | field (text : String)
  deriving DecidableEq, Repr

/-- The wording of a malformed text. -/
def Malformed.message : Malformed → String
  | descriptor text => s!"malformed type descriptor `{text}`"
  | method text => s!"malformed method reference `{text}`"
  | field text => s!"malformed field reference `{text}`"

/-- Reads a descriptor, or says that it is malformed. -/
def Descriptor.parse (text : String) : Except Malformed Descriptor :=
  match Descriptor.parse? text with
  | some d => .ok d
  | none => .error (.descriptor text)

/-- Reads a list of parameter types and a result type, or says that it is malformed. -/
def Descriptor.parsePrototype (text : String) : Except Malformed (List Descriptor × Descriptor) :=
  match Descriptor.readPrototype? text.toList with
  | some p => .ok p
  | none => .error (.descriptor text)

/-- A method by its class, its name and its types. -/
structure MethodReference where
  definer : Descriptor
  name : String
  params : List Descriptor
  ret : Descriptor
  deriving DecidableEq, Repr

namespace MethodReference

/-- Constructors have a name that no other method has. -/
def isConstructor (m : MethodReference) : Bool := m.name = "<init>"

/-- The reference without its class. -/
def signature (m : MethodReference) : String :=
  m.name ++ "(" ++ String.join (m.params.map Descriptor.text) ++ ")" ++ m.ret.text

/-- The written reference. -/
def text (m : MethodReference) : String := m.definer.text ++ "->" ++ m.signature

/-- Reads a reference. The class ends at the first arrow and the name, which is not empty, at the
first parenthesis after it. -/
def read? (s : List Char) : Option MethodReference := do
  let (definer, member) ← Text.cutAt? ['-', '>'] s
  let (name, rest) ← Text.cutAt? ['('] member
  let (params, ret) ← Descriptor.readPrototype? ('(' :: rest)
  if name.isEmpty then none
  else
    let definer ← Descriptor.read? definer
    return { definer, name := String.ofList name, params, ret }

/-- Reads a reference, or says that it is malformed. -/
def parse (text : String) : Except Malformed MethodReference :=
  match read? text.toList with
  | some m => .ok m
  | none => .error (.method text)

end MethodReference

/-- A field by its class, its name and its type. -/
structure FieldReference where
  definer : Descriptor
  name : String
  type : Descriptor
  deriving DecidableEq, Repr

namespace FieldReference

/-- The written reference. -/
def text (f : FieldReference) : String := f.definer.text ++ "->" ++ f.name ++ ":" ++ f.type.text

/-- Reads a reference. The class ends at the first arrow and the name at the first colon after
it. -/
def read? (s : List Char) : Option FieldReference := do
  let (definer, member) ← Text.cutAt? ['-', '>'] s
  let (name, type) ← Text.cutAt? [':'] member
  let definer ← Descriptor.read? definer
  let type ← Descriptor.read? type
  return { definer, name := String.ofList name, type }

/-- Reads a reference, or says that it is malformed. -/
def parse (text : String) : Except Malformed FieldReference :=
  match read? text.toList with
  | some f => .ok f
  | none => .error (.field text)

end FieldReference

end Dalvik
