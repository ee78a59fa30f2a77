import ValueRange.Narrowing
import ValueRange.Program.Basic
import ValueRange.Range.Arithmetic
import ValueRange.Range.Bitwise
import ValueRange.Range.Conversion
import ValueRange.Range.Region

/-! Constraint graphs. A node holds the range of one value of a program, and an operation constrains
its sink by the ranges of its sources. A sigma operation may be bounded by another node, against
which its source was compared; its intersection is then derived from that node's range. -/

namespace ValueRange

/-- The place of a node in its graph. -/
abbrev NodeId := Nat

/-- The place of an operation in its graph. -/
abbrev OpId := Nat

/-- What an operation computes from its sources. -/
inductive Kind where
  | unary (op : UnaryOp) (source : NodeId) (sourceType targetType : IntType)
  | sigma (source : NodeId) (bound : Option (NodeId × Comparison))
  | binary (op : BinaryOp) (lhs rhs : NodeId)
  | phi (sources : List NodeId)
deriving DecidableEq, Repr, Inhabited

/-- The nodes that an operation reads, with repetitions. -/
def Kind.operands : Kind → List NodeId
  | unary _ source _ _ => [source]
  | sigma source _ => [source]
  | binary _ lhs rhs => [lhs, rhs]
  | phi sources => sources

/-- The node that bounds a sigma, with the comparison. -/
def Kind.bound? : Kind → Option (NodeId × Comparison)
  | sigma _ bound => bound
  | _ => none

/-- The name of an operation. -/
def Kind.text : Kind → String
  | unary op _ _ _ => op.text
  | sigma _ _ => "sigma"
  | binary op _ _ => op.text
  | phi _ => "phi"

/-- An operation. The intersection is applied to what the operation computes; that of a bounded
sigma is unbounded until the range of its bound is known. -/
structure Operation where
  sink : NodeId
  kind : Kind
  intersect : Range
deriving DecidableEq, Repr, Inhabited

/-- A node: a value of the program with what the analysis needs of it, its range once the solution is
started, its trend once that is frozen, the operation that defines it, the operations that read it,
once for each reading, and the sigmas that it bounds. -/
structure Node where
  value : ValueId
  label : String
  type : IntType
  const : Option Int
  hint : Option Hint
  range : Option Range
  trend : Option Trend
  definition : Option OpId
  uses : List OpId
  bounds : List OpId
deriving DecidableEq, Repr, Inhabited

/-- What a branch tells about a value: that it lies in a range, or how it compares with another
value. -/
inductive Fact where
  | within (r : Range)
  | against (c : Comparison) (bound : ValueId)
deriving DecidableEq, Repr, Inhabited

/-- What a test tells about one of its operands on each of its edges. -/
structure BranchFact where
  yes : BlockId
  no : BlockId
  onYes : Fact
  onNo : Fact
deriving DecidableEq, Repr, Inhabited

/-- What a switch tells about its operand in each of its targets; the others tell nothing. -/
structure SwitchFact where
  cases : List (BlockId × Range)
deriving DecidableEq, Repr, Inhabited

/-- The strongly connected components of a graph in an order in which each depends on earlier ones
only: for each node the number of its component, and for each component its nodes. -/
structure Components where
  numberOf : Array Nat
  members : Array (List NodeId)
deriving DecidableEq, Repr, Inhabited

/-- How a graph is to be built and solved. A width of zero takes the widest type of the input. -/
structure Options where
  narrowing : Narrowing
  width : Int
  tracing : Bool
deriving DecidableEq, Repr, Inhabited

/-- A constraint graph with the state of its solution. It cannot be extended once its solution is
started. The log holds the lines of a trace, if one is asked for. -/
structure Graph where
  sentinels : Sentinels
  narrowing : Narrowing
  tracing : Bool
  nodes : Array Node
  ops : Array Operation
  branches : Array (ValueId × BranchFact)
  switches : Array (ValueId × SwitchFact)
  started : Bool
  solved : Bool
  components : Option Components
  log : Array String
deriving Repr, Inhabited

namespace Graph

/-- A graph without nodes. -/
def empty (s : Sentinels) (o : Options) : Graph :=
  ⟨s, o.narrowing, o.tracing, #[], #[], #[], #[], false, false, none, #[]⟩

variable (g : Graph)

/-- The node of a value. -/
def nodeOf? (v : ValueId) : Option NodeId := g.nodes.findIdx? fun n => n.value == v

/-- The range of a node, if it has one. -/
def range? (n : NodeId) : Option Range := (g.nodes[n]?).bind (·.range)

/-- The range of a node, which is unbounded before it has one. -/
def range (n : NodeId) : Range := (g.range? n).getD g.sentinels.max

/-- The type of a node's value. -/
def typeOf (n : NodeId) : IntType := ((g.nodes[n]?).map (·.type)).getD .void

/-- The trend of a node, once it is frozen. -/
def trend (n : NodeId) : Option Trend := (g.nodes[n]?).bind (·.trend)

/-- The name of a node's value. -/
def label (n : NodeId) : String := ((g.nodes[n]?).map (·.label)).getD ""

/-- The operations that read a node. -/
def uses (n : NodeId) : List OpId := ((g.nodes[n]?).map (·.uses)).getD []

/-- The sigmas that a node bounds. -/
def bounds (n : NodeId) : List OpId := ((g.nodes[n]?).map (·.bounds)).getD []

/-- The operation that defines a node. -/
def definition (n : NodeId) : Option OpId := (g.nodes[n]?).bind (·.definition)

/-- The sink of an operation. -/
def sink (o : OpId) : NodeId := ((g.ops[o]?).map (·.sink)).getD 0

/-- The range of a value. It is unbounded for a value that the graph does not know, and before the
solution is started. -/
def rangeOf (v : ValueId) : Range :=
  match g.nodeOf? v with
  | some n => if g.started then g.range n else g.sentinels.max
  | none => g.sentinels.max

/-- Changes the range of a node. -/
def setRange (n : NodeId) (r : Range) : Graph :=
  { g with nodes := g.nodes.modify n fun x => { x with range := some r } }

/-- Changes the intersection of an operation. -/
def setIntersect (o : OpId) (r : Range) : Graph :=
  { g with ops := g.ops.modify o fun x => { x with intersect := r } }

/-- The facts that tests tell about a value, in the order in which they were recorded. -/
def branchFacts (v : ValueId) : List BranchFact :=
  (g.branches.toList.filter fun e => e.1 == v).map (·.2)

/-- The facts that switches tell about a value. -/
def switchFacts (v : ValueId) : List SwitchFact :=
  (g.switches.toList.filter fun e => e.1 == v).map (·.2)

/-- What a test tells in a block. -/
def BranchFact.at? (f : BranchFact) (b : BlockId) : Option Fact :=
  if b = f.yes then some f.onYes else if b = f.no then some f.onNo else none

/-- What the branch into a block tells about a value. -/
def factAt? (v : ValueId) (b : BlockId) : Option Fact :=
  match (g.branchFacts v).findSome? fun f => BranchFact.at? f b with
  | some fact => some fact
  | none => (g.switchFacts v).findSome? fun f => (f.cases.lookup b).map .within

end Graph

end ValueRange
