import Dalvik.Listing.Reader

/-!
Writing methods and classes as listings. Every place that is jumped to, or that bounds a range of
handlers, gets a label named after its address.
-/

namespace Dalvik

namespace Method

/-- The places that have a label. -/
def labelled (m : Method) : List Address :=
  m.code.flatMap Instruction.targets ++
    m.tries.flatMap fun b => [b.start, b.stop] ++ b.handlers.map Handler.target

/-- The line of a handler. -/
def catchLine (b : TryBlock) (h : Handler) : String :=
  "    .catch " ++ ((h.type.map Descriptor.text).getD "all") ++ " \x7b" ++ Address.label b.start ++
    " .. " ++ Address.label b.stop ++ "\x7d " ++ Address.label h.target ++ "\n"

/-- The line of a label, if a place has one. -/
def labelLine (labels : List Address) (a : Address) : String :=
  if a ∈ labels then "  " ++ Address.label a ++ "\n" else ""

/-- The words of the header that declare flags. Constructors are known by their name. -/
def headerWords (m : Method) : String :=
  String.join ((m.flags.toList.filter fun f => f ≠ .constructor).map fun f => f.keyword ++ " ")

/-- The listing of a method. -/
def listing (m : Method) : String :=
  let labels := m.labelled
  let catches := m.tries.flatMap fun b => b.handlers.map (catchLine b)
  let lines := m.code.located.map fun (a, i) =>
    labelLine labels a ++ "    " ++ i.text m.registerName ++ "\n"
  ".method " ++ m.headerWords ++ m.reference.signature ++ "\n" ++
    "    .locals " ++ toString m.locals ++ "\n" ++
    String.join catches ++ String.join lines ++ labelLine labels m.stop ++ ".end method\n"

end Method

/-- The listing of a class. -/
def ClassDefinition.listing (c : ClassDefinition) : String :=
  ".class " ++ c.name.text ++ "\n" ++
    String.join (c.methods.map fun m => "\n" ++ m.listing)

end Dalvik
