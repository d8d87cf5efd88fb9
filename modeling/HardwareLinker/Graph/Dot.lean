import HardwareLinker.Graph.Edges

/-!
The module graph in the graph description language DOT: nodes are numbered in name order, edges
carry their weight.
-/

namespace HardwareLinker.Graph

/-- Label text: quotes and backslashes are escaped, line feeds end a left-aligned line. -/
def escapeLabel (s : String) : String :=
  String.ofList (s.toList.flatMap fun c =>
    if c == '"' || c == '\\' then ['\\', c]
    else if c == '\n' then ['\\', 'l']
    else [c])

def dotNode (index : Nat) (name : String) : String :=
  "    " ++ toString index ++ " [ label = \"" ++ escapeLabel name ++ "\" ]\n"

def dotEdge (a b : Nat) (weight : String) : String :=
  "    " ++ toString a ++ " -> " ++ toString b ++ " [ label = \"" ++ escapeLabel weight ++ "\" ]\n"

variable {α : Type} [Scalar α]

def toDot (g : Graph α) : String :=
  let names := g.moduleNames
  let nodes := names.zipIdx.map fun (name, i) => dotNode i name
  let edges := g.edges.map fun (a, b, w) => dotEdge (names.idxOf a) (names.idxOf b) (Scalar.text w)
  "digraph \x7b\n" ++ String.join nodes ++ String.join edges ++ "\x7d\n"

end HardwareLinker.Graph
