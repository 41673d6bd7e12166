import Dalvik.Literal

/-!
The abstract values of registers. A value is known, or it is some value of a type; an instance is
known by its identity, and as far as its contents are tracked by these too.
-/

namespace Dalvik

/-- An abstract value. Instances carry an identity, which is what reference comparisons look at.
An array may be known by its length alone, or not even by that. -/
inductive Value where
  | int (v : Int32)
  | long (v : Int64)
  | float (v : Single)
  | double (v : Double)
  | boolean (v : Bool)
  | char (v : UInt16)
  | short (v : Int16)
  | byte (v : Int8)
  | null (d : Descriptor)
  | type (d : Descriptor)
  /-- An allocated instance whose constructor has not run. -/
  | uninit (d : Descriptor)
  | unknown (d : Descriptor)
  | string (id : Nat) (v : String)
  | boxed (id : Nat) (d : Descriptor) (v : Value)
  | method (id : Nat) (d : Descriptor) (m : MethodReference)
  /-- An instance with contents that are not tracked. -/
  | object (id : Nat) (d : Descriptor)
  | array (id : Nat) (d : Descriptor) (length : Option Nat) (elements : Option (List Value))
  deriving Repr

namespace Value

mutual

/-- Whether two values are the same, identities and bits included. -/
def same : Value → Value → Bool
  | int a, int b => a = b
  | long a, long b => a = b
  | float a, float b => a = b
  | double a, double b => a = b
  | boolean a, boolean b => a = b
  | char a, char b => a = b
  | short a, short b => a = b
  | byte a, byte b => a = b
  | null a, null b => a = b
  | type a, type b => a = b
  | uninit a, uninit b => a = b
  | unknown a, unknown b => a = b
  | string i a, string j b => i = j && a = b
  | boxed i a v, boxed j b w => i = j && a = b && same v w
  | method i a m, method j b n => i = j && a = b && m = n
  | object i a, object j b => i = j && a = b
  | array i a m none, array j b n none => i = j && a = b && m = n
  | array i a m (some v), array j b n (some w) => i = j && a = b && m = n && sameAll v w
  | _, _ => false

/-- Whether two lists hold the same values. -/
def sameAll : List Value → List Value → Bool
  | [], [] => true
  | v :: vs, w :: ws => same v w && sameAll vs ws
  | _, _ => false

end

mutual

theorem same_refl : ∀ v : Value, same v v = true
  | int _ | long _ | float _ | double _ | boolean _ | char _ | short _ | byte _ | null _ | type _
  | uninit _ | unknown _ | string _ _ | method _ _ _ | object _ _ | array _ _ _ none => by
    simp [same]
  | boxed _ _ v => by simp [same, same_refl v]
  | array _ _ _ (some vs) => by simp [same, sameAll_refl vs]

theorem sameAll_refl : ∀ vs : List Value, sameAll vs vs = true
  | [] => by simp [sameAll]
  | v :: vs => by simp [sameAll, same_refl v, sameAll_refl vs]

end

mutual

theorem eq_of_same : ∀ {v w : Value}, same v w = true → v = w
  | boxed _ _ v, w, h => by
    cases w with
    | boxed _ _ w =>
      simp only [same, Bool.and_eq_true, decide_eq_true_eq] at h
      obtain ⟨⟨rfl, rfl⟩, hvw⟩ := h
      rw [eq_of_same hvw]
    | array _ _ _ e => cases e <;> simp [same] at h
    | _ => simp [same] at h
  | array _ _ _ (some vs), w, h => by
    cases w with
    | array _ _ _ e =>
      cases e with
      | none => simp [same] at h
      | some ws =>
        simp only [same, Bool.and_eq_true, decide_eq_true_eq] at h
        obtain ⟨⟨⟨rfl, rfl⟩, rfl⟩, hvw⟩ := h
        rw [eq_of_sameAll hvw]
    | _ => simp [same] at h
  | array _ _ _ none, w, h => by
    cases w with
    | array _ _ _ e => cases e <;> simp_all [same]
    | _ => simp [same] at h
  | int _, w, h | long _, w, h | float _, w, h | double _, w, h | boolean _, w, h | char _, w, h
  | short _, w, h | byte _, w, h | null _, w, h | type _, w, h | uninit _, w, h | unknown _, w, h
  | string _ _, w, h | method _ _ _, w, h | object _ _, w, h => by
    cases w with
    | array _ _ _ e => cases e <;> simp [same] at h
    | _ => simp_all [same]

theorem eq_of_sameAll : ∀ {vs ws : List Value}, sameAll vs ws = true → vs = ws
  | [], ws, h => by cases ws <;> simp_all [sameAll]
  | v :: vs, ws, h => by
    cases ws <;> simp [sameAll] at h
    rw [eq_of_same h.1, eq_of_sameAll h.2]

end

instance : DecidableEq Value := fun v w =>
  decidable_of_iff (same v w = true) ⟨eq_of_same, fun h => h ▸ same_refl v⟩

/-- What a new array slot or field of a type holds. -/
def zero (d : Descriptor) : Value :=
  if d = .boolean then boolean false
  else if d = .byte then byte 0
  else if d = .short then short 0
  else if d = .char then char 0
  else if d = .int then int 0
  else if d = .long then long 0
  else if d = .float then float (.zero false)
  else if d = .double then double (.zero false)
  else null d

/-- The type of a value. -/
def descriptor : Value → Descriptor
  | int _ => .int
  | long _ => .long
  | float _ => .float
  | double _ => .double
  | boolean _ => .boolean
  | char _ => .char
  | short _ => .short
  | byte _ => .byte
  | null d => d
  | type _ => .classObject
  | uninit d => d
  | unknown d => d
  | string _ _ => .string
  | boxed _ d _ => d
  | method _ d _ => d
  | object _ d => d
  | array _ d _ _ => d

/-- Whether the value is more than some value of a type. -/
def isKnown : Value → Bool
  | unknown _ => false
  | _ => true

/-- Whether the value is known, and with an array every element at every depth, too. -/
def isFullyKnown : Value → Bool
  | unknown _ => false
  | boxed _ _ v => v.isKnown
  | array _ _ _ none => false
  | array _ _ _ (some vs) => allFullyKnown vs
  | _ => true
where
  /-- Whether every value of a list is fully known. -/
  allFullyKnown : List Value → Bool
    | [] => true
    | v :: vs => v.isFullyKnown && allFullyKnown vs

/-- Whether the value is an instance whose contents a callee could change. -/
def isMutable : Value → Bool
  | object _ _ => true
  | array _ _ _ _ => true
  | _ => false

/-- The identity of an instance. -/
def id? : Value → Option Nat
  | string id _ => some id
  | boxed id _ _ => some id
  | method id _ _ => some id
  | object id _ => some id
  | array id _ _ _ => some id
  | _ => none

/-- The 32-bit integer that a value of one of the narrow kinds stands for. -/
def int32? : Value → Option Int32
  | int v => some v
  | boolean v => some (if v then 1 else 0)
  | char v => some (Int32.ofNat v.toNat)
  | short v => some v.toInt32
  | byte v => some v.toInt32
  | _ => none

/-- The number of a `long` value. -/
def int64? : Value → Option Int64
  | long v => some v
  | _ => none

/-- The number of a `float` value. -/
def single? : Value → Option Single
  | float v => some v
  | _ => none

/-- The number of a `double` value. -/
def double? : Value → Option Double
  | double v => some v
  | _ => none

/-- The text of a string. -/
def text? : Value → Option String
  | string _ v => some v
  | _ => none

/-- The method that a handle stands for. -/
def method? : Value → Option MethodReference
  | method _ _ m => some m
  | _ => none

/-- The value in a box. -/
def unboxed? : Value → Option Value
  | boxed _ _ v => some v
  | _ => none

/-- The elements of an array whose contents are tracked. -/
def elements? : Value → Option (List Value)
  | array _ _ _ elements => elements
  | _ => none

/-- The number of a `byte` value. -/
def byte? : Value → Option UInt8
  | byte v => some v.toUInt8
  | _ => none

/-- The unit of a `char` value. -/
def char? : Value → Option UInt16
  | char v => some v
  | _ => none

/-- The contents of an array in which every element is a `byte`. -/
def bytes? (v : Value) : Option (List UInt8) :=
  v.elements?.bind fun es => es.mapM byte?

/-- The contents of an array in which every element is a `char`. -/
def chars? (v : Value) : Option (List UInt16) :=
  v.elements?.bind fun es => es.mapM char?

/-- The literal that loads a value. A string literal loads the shared instance of its text, which
may be another than this one. -/
def literal? : Value → Option Literal
  | int v => some (.int v)
  | long v => some (.long v)
  | float v => some (.float v)
  | double v => some (.double v)
  | boolean v => some (.boolean v)
  | char v => some (.char v)
  | short v => some (.short v)
  | byte v => some (.byte v)
  | null _ => some .null
  | type d => some (.type d)
  | string _ v => some (.string v)
  | _ => none

/-- A 32-bit integer seen as a value of one of the narrow types. -/
def ofInt32? (d : Descriptor) (v : Int32) : Option Value :=
  if d = .int then some (int v)
  else if d = .boolean then some (boolean (v ≠ 0))
  else if d = .byte then some (byte v.toInt8)
  else if d = .short then some (short v.toInt16)
  else if d = .char then some (char v.toUInt32.toUInt16)
  else if d = .float then some (float ⟨v.toBitVec⟩)
  else none

/-- The bits of a register as an instruction for a given type sees them. What is not known adopts
the type; what the type cannot be read from stays as it is. -/
def coerce (v : Value) (d : Descriptor) : Value :=
  match v with
  | unknown _ => unknown d
  | long n => if d = .double then double ⟨n.toBitVec⟩ else v
  | double x => if d = .long then long (Int64.ofBitVec x.bits) else v
  | _ =>
    match v.int32?.bind (ofInt32? d) with
    | some w => w
    | none => if v = int 0 ∧ d.isReference then null d else v

/-- An array with given elements of a given type. -/
def arrayOf (id : Nat) (elementType : Descriptor) (elements : List Value) : Value :=
  array id elementType.arrayOf (some elements.length) (some elements)

mutual

/-- How a value is written. -/
def text : Value → String
  | int v => toString v.toInt
  | long v => toString v.toInt
  | float v => v.text
  | double v => v.text
  | boolean v => if v then "true" else "false"
  | char v => String.ofList (Text.quoteUnit v)
  | short v => toString v.toInt
  | byte v => toString v.toInt
  | null _ => "null"
  | type d => "class " ++ d.text
  | uninit d => "uninitialized " ++ d.text
  | unknown _ => "Unknown"
  | string _ v => String.ofList (Text.quote v.toList)
  | boxed _ d v => d.binaryName ++ "(" ++ v.text ++ ")"
  | method _ _ m => "method " ++ m.text
  | object id d => d.text ++ "@" ++ toString id
  | array _ _ _ (some vs) => "[" ++ Text.separated ", " (texts vs) ++ "]"
  | array _ _ (some n) none => "[?; " ++ toString n ++ "]"
  | array _ _ none none => "[?]"

/-- How the values of a list are written. -/
def texts : List Value → List String
  | [] => []
  | v :: vs => v.text :: texts vs

end

end Value

end Dalvik
