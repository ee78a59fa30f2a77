import ValueRange.Graph.Solve

/-! Graphs as plain lists of vertices and edges, and in the dot language. Values are ovals,
operations are boxes, and the edges from a bound to its sigma are dashed. -/

namespace ValueRange

/-- A vertex: a node or an operation, with the number of its component if that is known. -/
structure Vertex where
  id : String
  label : String
  isOperation : Bool
  component : Option Nat
deriving DecidableEq, Repr, Inhabited

/-- An edge between a node and an operation. Control edges run from a bound to its sigma. -/
structure Edge where
  source : String
  target : String
  label : String
  isControl : Bool
deriving DecidableEq, Repr, Inhabited

/-- A graph as lists of vertices and edges. -/
structure Drawing where
  vertices : List Vertex
  edges : List Edge
deriving DecidableEq, Repr, Inhabited

namespace Graph

/-- The name of a node's vertex. -/
def nodeName (n : NodeId) : String := "v" ++ toString n

/-- The name of an operation's vertex. -/
def opName (o : OpId) : String := "o" ++ toString o

variable (g : Graph)

/-- The number of a node's component, if components are known. -/
def component? (n : NodeId) : Option Nat := g.components.map fun cs => cs.numberOf.getD n 0

/-- The vertex of a node. -/
def nodeVertex (n : NodeId) : Vertex := ⟨nodeName n, g.nodeText n, false, g.component? n⟩

/-- The vertex of an operation. -/
def opVertex (o : OpId) (op : Operation) : Vertex :=
  let label := op.kind.text ++ if op.intersect.isMax then "" else " " ++ op.intersect.text
  ⟨opName o, label, true, g.component? op.sink⟩

/-- The edges of an operation. -/
def opEdges (o : OpId) (op : Operation) : List Edge :=
  op.kind.operands.map (fun n => ⟨nodeName n, opName o, "", false⟩) ++
    [⟨opName o, nodeName op.sink, "", false⟩] ++
    match op.kind.bound? with
    | some (n, c) => [⟨nodeName n, opName o, c.symbol, true⟩]
    | none => []

/-- The graph as lists, with its current ranges. -/
def drawing : Drawing :=
  let ops := g.ops.toList.zipIdx
  ⟨(List.range g.nodes.size).map g.nodeVertex ++ ops.map fun (op, o) => g.opVertex o op,
    ops.flatMap fun (op, o) => opEdges o op⟩

end Graph

namespace Drawing

/-- The line of a vertex. -/
def vertexLine (v : Vertex) : String :=
  let shape := if v.isOperation then "box" else "oval"
  let color := match v.component with
    | some i =>
      ", colorscheme=spectral11, style=\"filled\", fillcolor=\"" ++ toString (i % 11 + 1) ++ "\""
    | none => ""
  v.id ++ " [shape=\"" ++ shape ++ "\", label=" ++ Text.quoted v.label ++ color ++ "]"

/-- The line of an edge. -/
def edgeLine (e : Edge) : String :=
  let style := if e.isControl then "dashed" else "solid"
  let label := if e.label = "" then "" else ", label=" ++ Text.quoted e.label
  e.source ++ " -> " ++ e.target ++ " [style=\"" ++ style ++ "\"" ++ label ++ "]"

/-- The lines of a graph in the dot language. -/
def dotLines (d : Drawing) : List String :=
  ["digraph\x7b"] ++ d.vertices.map vertexLine ++ d.edges.map edgeLine ++ ["\x7d"]

end Drawing

end ValueRange
