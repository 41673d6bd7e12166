import Dalvik.Framework.Method
import Dalvik.Listing.Reader

/-!
The classes that are known: those of the framework by name alone, and local ones with their methods.
-/

namespace Dalvik

namespace Descriptor

/-- The framework classes that can be found by name. -/
def framework : List Descriptor :=
  [object, string, classObject, integerBox, throwable, reflectedMethod, arithmeticException,
    nullPointerException, indexException, negativeSizeException, classCastException,
    numberFormatException, classNotFoundException, ⟨"Ljava/lang/Boolean;"⟩, ⟨"Ljava/lang/Byte;"⟩,
    ⟨"Ljava/lang/Character;"⟩, ⟨"Ljava/lang/Short;"⟩, ⟨"Ljava/lang/Long;"⟩, ⟨"Ljava/lang/Float;"⟩,
    ⟨"Ljava/lang/Double;"⟩, ⟨"Ljava/lang/Math;"⟩, ⟨"Ljava/lang/System;"⟩,
    ⟨"Ljava/lang/StringBuilder;"⟩, anyException, runtimeException, ⟨"Ljava/lang/Error;"⟩,
    ⟨"Ljava/io/PrintStream;"⟩]

/-- The classes of which no instance ever changes. -/
def immutableClasses : List Descriptor :=
  [string, classObject, integerBox, ⟨"Ljava/lang/Boolean;"⟩, ⟨"Ljava/lang/Byte;"⟩,
    ⟨"Ljava/lang/Character;"⟩, ⟨"Ljava/lang/Short;"⟩, ⟨"Ljava/lang/Long;"⟩, ⟨"Ljava/lang/Float;"⟩,
    ⟨"Ljava/lang/Double;"⟩]

/-- The exceptions of which it is known that they are runtime exceptions. -/
def runtimeExceptions : List Descriptor :=
  [arithmeticException, nullPointerException, indexException, negativeSizeException,
    classCastException, numberFormatException]

/-- Whether a class of the framework has this name. -/
def isFramework (d : Descriptor) : Bool := d ∈ framework

/-- Whether no value of the type ever changes. -/
def isImmutable (d : Descriptor) : Bool := d.isPrimitive || d ∈ immutableClasses

/-- Whether the type is one of the known runtime exceptions. -/
def isRuntimeException (d : Descriptor) : Bool := d ∈ runtimeExceptions

end Descriptor

/-- The method of a class with a reference. -/
def ClassDefinition.method? (c : ClassDefinition) (m : MethodReference) : Option Method :=
  c.methods.find? fun method => method.reference = m

/-- The local classes, no two of one name. -/
structure Classes where
  locals : List ClassDefinition
  deriving DecidableEq, Repr

namespace Classes

/-- No local class. -/
def empty : Classes := ⟨[]⟩

/-- The local class with a name. -/
def find? (cs : Classes) (name : Descriptor) : Option ClassDefinition :=
  cs.locals.find? fun c => c.name = name

/-- The classes with one in place of that of the same name, or added. -/
def insert (cs : Classes) (c : ClassDefinition) : Classes :=
  if (cs.find? c.name).isSome then
    ⟨cs.locals.map fun old => if old.name = c.name then c else old⟩
  else ⟨cs.locals ++ [c]⟩

/-- Whether a local class has a name. -/
def isLocal (cs : Classes) (name : Descriptor) : Bool := (cs.find? name).isSome

/-- Whether a class can be found by the name that a text is. Of an array only the type of its
innermost elements has to be found, unless the elements are no references. -/
def knowsFrom (cs : Classes) : List Char → Bool
  | [] => cs.isLocal ⟨""⟩
  | c :: r =>
    if c = '[' then
      let element : Descriptor := ⟨String.ofList r⟩
      !element.isReference || knowsFrom cs r
    else
      let name : Descriptor := ⟨String.ofList (c :: r)⟩
      cs.isLocal name || name.isFramework

/-- Whether a class can be found by name. -/
def knows (cs : Classes) (name : Descriptor) : Bool := cs.knowsFrom name.text.toList

/-- A local method with a body. -/
def method? (cs : Classes) (m : MethodReference) : Option Method :=
  ((cs.find? m.definer).bind fun c => c.method? m).filter fun method => !method.isBodiless

/-- The method of a class with a name and parameter types, with its flags, as reflection finds it. A
local class hides the framework class of its name. -/
def lookup? (cs : Classes) (definer : Descriptor) (name : String) (params : List Descriptor) :
    Option (MethodReference × AccessFlags) :=
  match cs.find? definer with
  | some c =>
    (c.methods.find? fun m => m.reference.name = name && m.reference.params = params).map
      fun m => (m.reference, m.flags)
  | none => (FrameworkMethod.lookup? definer name params).map fun f => (f.reference, f.flags)

/-- The methods with one in place of the first of the same reference. -/
def replaceMethod (new : Method) : List Method → List Method
  | [] => []
  | m :: ms => if m.reference = new.reference then new :: ms else m :: replaceMethod new ms

/-- The classes with a method in place of the local one with its reference, if there is one. -/
def update (cs : Classes) (m : Method) : Classes :=
  ⟨cs.locals.map fun c =>
    if c.name = m.reference.definer then { c with methods := replaceMethod m c.methods } else c⟩

/-- Whether a handler for a type catches an exception, if that does not hang on classes that are not
known. -/
def catches? (handler : Option Descriptor) (thrown : Descriptor) : Option Bool :=
  match handler with
  | none => some true
  | some h =>
    if h = thrown ∨ h = .throwable then some true
    else if thrown.isRuntimeException then
      if h = .anyException ∨ h = .runtimeException then some true
      else if h.isFramework then some false
      else none
    else none

end Classes

end Dalvik
