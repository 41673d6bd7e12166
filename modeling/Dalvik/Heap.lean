import Dalvik.State

/-!
Identities of instances. A heap hands them out in order, and keeps one for each text that a string
literal has loaded.
-/

namespace Dalvik

/-- The next identity to hand out, and the identities of the texts of string literals. -/
structure Heap where
  next : Nat
  interned : List (String × Nat)
  deriving DecidableEq, Repr

namespace Heap

/-- A heap that has handed out nothing. -/
def empty : Heap := ⟨0, []⟩

/-- A heap that hands out identities above those of the instances that the registers of a state refer
to. -/
def after (s : State) : Heap where
  next := (s.assigned.filterMap fun p => p.2.id?).foldl (fun next id => max next (id + 1)) 0
  interned := []

/-- A new identity. -/
def alloc (h : Heap) : Nat × Heap := (h.next, { h with next := h.next + 1 })

/-- A string that is no other instance. -/
def newString (h : Heap) (text : String) : Value × Heap :=
  (.string h.alloc.1 text, h.alloc.2)

/-- The identity that stands for the text of a string literal. -/
def internId (h : Heap) (text : String) : Nat × Heap :=
  match h.interned.lookup text with
  | some id => (id, h)
  | none => (h.alloc.1, { h.alloc.2 with interned := (text, h.alloc.1) :: h.interned })

/-- The instance that every string literal with a text loads. -/
def intern (h : Heap) (text : String) : Value × Heap :=
  (.string (h.internId text).1 text, (h.internId text).2)

/-- Whether a value is the instance that string literals with its text load. -/
def isInterned (h : Heap) (v : Value) : Bool :=
  match v with
  | .string id text => h.interned.lookup text = some id
  | _ => false

/-- A new array. -/
def newArray (h : Heap) (type : Descriptor) (length : Option Nat) (elements : Option (List Value)) :
    Value × Heap :=
  (.array h.alloc.1 type length elements, h.alloc.2)

/-- A new box of a value. -/
def newBox (h : Heap) (type : Descriptor) (v : Value) : Value × Heap :=
  (.boxed h.alloc.1 type v, h.alloc.2)

/-- A new handle of a method. -/
def newMethod (h : Heap) (m : MethodReference) : Value × Heap :=
  (.method h.alloc.1 .reflectedMethod m, h.alloc.2)

/-- The value that a literal loads. -/
def literal (h : Heap) : Literal → Value × Heap
  | .int v => (.int v, h)
  | .long v => (.long v, h)
  | .float v => (.float v, h)
  | .double v => (.double v, h)
  | .boolean v => (.boolean v, h)
  | .char v => (.char v, h)
  | .short v => (.short v, h)
  | .byte v => (.byte v, h)
  | .null => (.null .object, h)
  | .string text => h.intern text
  | .type d => (.type d, h)

/-- The values that literals load, one after another. -/
def literals (h : Heap) : List Literal → List Value × Heap
  | [] => ([], h)
  | l :: ls =>
    let (v, h) := h.literal l
    let (vs, h) := h.literals ls
    (v :: vs, h)

end Heap

end Dalvik
