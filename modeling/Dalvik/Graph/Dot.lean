import Dalvik.Graph
import Dalvik.Text.Quoted

/-!
Execution graphs in the notation of Graphviz.
-/

namespace Dalvik.Graph

/-- The name of a node in a drawing. -/
def dotName (id : NodeId) : String := "n" ++ toString (id + 1) ++ "_1"

/-- A text inside double quotes of a drawing. -/
def dotEscape (s : String) : String :=
  String.ofList (s.toList.flatMap fun c => if c = '\\' ∨ c = '"' then ['\\', c] else [c])

/-- The line of a node. -/
def dotNode (g : Graph) (n : NodeId × Node) : String :=
  let insn :=
    match g.method.code.at? n.2.address with
    | some i => i.text g.method.registerName
    | none => "?"
  "  " ++ dotName n.1 ++ " [label = \"" ++ toString n.2.address ++ ": " ++ dotEscape insn ++ "\"" ++
    (if n.2.truncated then ", style=dashed" else "") ++ "];\n"

/-- The lines of the links from a node. -/
def dotEdges (n : NodeId × Node) : String :=
  String.join (n.2.children.map fun c => "  " ++ dotName n.1 ++ " -> " ++ dotName c ++ ";\n")

/-- The drawing of a graph. -/
def dot (g : Graph) : String :=
  "digraph execution \x7b\n  node [shape=rect];\n  edge [minlen=1; dir=forward];\n\n" ++
    String.join (g.live.map g.dotNode) ++ "\n" ++ String.join (g.live.map dotEdges) ++ "\x7d\n"

end Dalvik.Graph
