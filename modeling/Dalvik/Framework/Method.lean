import Dalvik.Access
import Dalvik.Reference

/-!
The framework methods whose effect is known, with what their declarations say.
-/

namespace Dalvik

/-- A framework method whose effect is known. -/
inductive FrameworkMethod where
  | classForName
  | className
  | classMethod
  | classDeclaredMethod
  | stringOfBytes
  | stringOfChars
  | stringOfString
  | stringLength
  | stringEquals
  | stringOfInt
  | stringToString
  | integerOfInt
  | integerToInt
  | integerOfString
  deriving DecidableEq, Repr

namespace FrameworkMethod

/-- Every method. -/
def all : List FrameworkMethod :=
  [classForName, className, classMethod, classDeclaredMethod, stringOfBytes, stringOfChars,
    stringOfString, stringLength, stringEquals, stringOfInt, stringToString, integerOfInt,
    integerToInt, integerOfString]

/-- How calls name the method. -/
def reference : FrameworkMethod → MethodReference
  | classForName => ⟨.classObject, "forName", [.string], .classObject⟩
  | className => ⟨.classObject, "getName", [], .string⟩
  | classMethod => ⟨.classObject, "getMethod", [.string, .arrayOf .classObject], .reflectedMethod⟩
  | classDeclaredMethod =>
    ⟨.classObject, "getDeclaredMethod", [.string, .arrayOf .classObject], .reflectedMethod⟩
  | stringOfBytes => ⟨.string, "<init>", [.arrayOf .byte], .void⟩
  | stringOfChars => ⟨.string, "<init>", [.arrayOf .char], .void⟩
  | stringOfString => ⟨.string, "<init>", [.string], .void⟩
  | stringLength => ⟨.string, "length", [], .int⟩
  | stringEquals => ⟨.string, "equals", [.object], .boolean⟩
  | stringOfInt => ⟨.string, "valueOf", [.int], .string⟩
  | stringToString => ⟨.string, "toString", [], .string⟩
  | integerOfInt => ⟨.integerBox, "valueOf", [.int], .integerBox⟩
  | integerToInt => ⟨.integerBox, "intValue", [], .int⟩
  | integerOfString => ⟨.integerBox, "parseInt", [.string], .int⟩

/-- Whether the method has no receiver. -/
def isStatic : FrameworkMethod → Bool
  | classForName | stringOfInt | integerOfInt | integerOfString => true
  | _ => false

/-- The flags of the declaration. -/
def flags (f : FrameworkMethod) : AccessFlags :=
  { pub := true, static := f.isStatic, constructor := f.reference.isConstructor }

/-- Whether a call has no effect beyond its result, and throws only for a null receiver. -/
def isPure : FrameworkMethod → Bool
  | className | stringLength | stringEquals | stringOfInt | stringToString | integerOfInt
  | integerToInt => true
  | _ => false

/-- The method that a call names. -/
def find? (m : MethodReference) : Option FrameworkMethod :=
  all.find? fun f => f.reference = m

/-- The method of a class with a name and parameter types. -/
def lookup? (definer : Descriptor) (name : String) (params : List Descriptor) :
    Option FrameworkMethod :=
  all.find? fun f =>
    f.reference.definer = definer && f.reference.name = name && f.reference.params = params

end FrameworkMethod

namespace MethodReference

/-- Whether a call is known to have no effect beyond its result. -/
def isPure (m : MethodReference) : Bool := ((FrameworkMethod.find? m).map (·.isPure)).getD false

end MethodReference

end Dalvik
