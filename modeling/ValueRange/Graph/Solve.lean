import ValueRange.Graph.Eval
import ValueRange.Graph.Builder
import ValueRange.Graph.Components

/-! Solving constraint graphs, component by component. A component is widened, which takes a side
that moves to its sentinel at once; then the intersections that its nodes bound are resolved, and
what widening lost is regained by narrowing. At last the nodes of later components get a first
range. -/

namespace ValueRange.Graph

/-- An operator that updates the sink of an operation. From the sink's trend and range and from the
range that the operation computes, `step` answers the new range of the sink, if it changes; each
change lowers the rank of the range. -/
structure Meet where
  step : Sentinels → Option Trend → (old new : Range) → Option Range
  rank : Range → Nat

/-- Grows a range to hold a new one. A side that moves goes to its sentinel. -/
def widen (s : Sentinels) (old new : Range) : Option Range :=
  if new.isEmpty then none
  else if old.isEmpty then some new
  else
    let r := if new.lower < old.lower then
        if old.upper < new.upper then s.max else s.interval s.negInf old.upper
      else if old.upper < new.upper then s.interval old.lower s.posInf
      else old
    if r.Same old then none else some r

/-- A range from new bounds, if it is another one and not empty. -/
def update (s : Sentinels) (old : Range) (lower upper : Int) : Option Range :=
  let r := s.interval lower upper
  if r.isEmpty || decide (r.Same old) then none else some r

/-- Replaces unbounded sides of a range by finite ones. Finite sides never move. -/
def narrow (s : Sentinels) (old new : Range) : Option Range :=
  if old.isEmpty || new.isEmpty then none
  else update s old
    (if old.lowerUnbounded && !new.lowerUnbounded then new.lower else old.lower)
    (if old.upperUnbounded && !new.upperUnbounded then new.upper else old.upper)

/-- Moves the sides of a range that its trend names whenever that is tighter. -/
def crop (s : Sentinels) (trend : Option Trend) (old new : Range) : Option Range :=
  if old.isEmpty || new.isEmpty then none
  else update s old
    (if trend.any Trend.lowers then Max.max old.lower new.lower else old.lower)
    (if trend.any Trend.raises then Min.min old.upper new.upper else old.upper)

/-- Widening. A range changes from empty once, and then each side once. -/
def Meet.widening : Meet where
  step s _ := widen s
  rank r := if r.isEmpty then 3
    else (if r.lowerUnbounded then 0 else 1) + (if r.upperUnbounded then 0 else 1)

/-- Narrowing of unbounded sides, each of which changes once. -/
def Meet.narrowing : Meet where
  step s _ := narrow s
  rank r := (if r.lowerUnbounded then 1 else 0) + (if r.upperUnbounded then 1 else 0)

/-- Cropping, which takes at least one integer from a range. -/
def Meet.cropping : Meet where
  step := crop
  rank r := (r.upper - r.lower).toNat

/-- The operator that a choice of narrowing stands for. -/
def meetOf : Narrowing → Except Fault Meet
  | .cousot => .ok .narrowing
  | .crop => .ok .cropping
  | .other code => .error (.unknownNarrowing code)

/-- Whether an operation defines a node of a component. -/
def inside (g : Graph) (pos : Nat) (o : OpId) : Bool :=
  match g.components with
  | some cs => cs.numberOf.getD (g.sink o) 0 == pos
  | none => false

/-- A queue with the operations of a list that are not in it yet. -/
def enqueue (queue : List OpId) (os : List OpId) : List OpId :=
  os.foldl (fun q o => if o ∈ q then q else q ++ [o]) queue

/-- Applies an operator to the operations of a queue. Where it changes a sink, the operations of the
component that read the sink are queued again. -/
def iterateQueue (m : Meet) (pos : Nat) : (steps : Nat) → (queue : List OpId) → Graph → Graph
  | 0, _, g => g
  | _, [], g => g
  | steps + 1, o :: queue, g =>
    match g.ops[o]? with
    | none => iterateQueue m pos steps queue g
    | some op =>
      match m.step g.sentinels (g.trend op.sink) (g.range op.sink) (g.eval op) with
      | none => iterateQueue m pos steps queue g
      | some r =>
        let g := g.setRange op.sink r
        iterateQueue m pos steps (enqueue queue ((g.uses op.sink).filter (g.inside pos))) g

/-- A bound on the steps of an iteration: each change of a range lowers its rank and queues each
operation at most once. -/
def stepBound (g : Graph) (m : Meet) (defs : List OpId) : Nat :=
  defs.length + defs.foldl (fun n o => n + m.rank (g.range (g.sink o))) 0 * g.ops.size

/-- Applies an operator to the operations of a component until no sink changes. -/
def iterate (m : Meet) (pos : Nat) (defs : List OpId) (g : Graph) : Graph :=
  iterateQueue m pos (g.stepBound m defs) defs g

/-- The operations that define nodes of a component. -/
def definitions (g : Graph) (comp : List NodeId) : List OpId := comp.filterMap g.definition

/-- Whether some node of a component has a range that is not empty. -/
def hasEntry (g : Graph) (comp : List NodeId) : Bool := comp.any fun n => !(g.range n).isEmpty

/-- The trend of a range. -/
def trendOf (r : Range) : Trend :=
  if r.isMax then .unknown
  else if r.lowerUnbounded then .minus
  else if r.upperUnbounded then .plus
  else .zero

/-- Records the trend of a node, unless it has one already. -/
def freezeNode (s : Sentinels) (x : Node) : Node :=
  { x with trend := some (x.trend.getD (trendOf (x.range.getD s.max))) }

/-- Records the trends of nodes that have none yet. -/
def freeze (comp : List NodeId) (g : Graph) : Graph :=
  let nodes := comp.foldl (fun ns n => ns.modify n (freezeNode g.sentinels)) g.nodes
  { g with nodes }

/-- Resolves the intersection of a sigma from the range of the node that bounds it. -/
def resolve (g : Graph) (n : NodeId) (o : OpId) : Graph :=
  match ((g.ops[o]?).bind (·.kind.bound?)) with
  | some (_, c) => g.setIntersect o (Range.region g.sentinels c (g.range n))
  | none => g

/-- Resolves the intersections that the nodes of a component bound, of those operations that pass a
test. -/
def resolveBounds (test : Graph → OpId → Bool) (comp : List NodeId) (g : Graph) : Graph :=
  comp.foldl (fun g n =>
    (g.bounds n).foldl (fun g o => if test g o then g.resolve n o else g) g) g

/-- Evaluates an operation into its sink. -/
def assign (g : Graph) (o : OpId) : Graph :=
  match g.ops[o]? with
  | some op => g.setRange op.sink (g.eval op)
  | none => g

/-- Gives the components that depend on component `pos` their first ranges: the intersections that
it bounds are resolved, and the operations that it feeds are evaluated. -/
def propagate (pos : Nat) (comp : List NodeId) (g : Graph) : Graph :=
  let outside (g : Graph) (o : OpId) : Bool := !g.inside pos o
  let g := g.resolveBounds outside comp
  comp.foldl (fun g n =>
    (g.uses n ++ g.bounds n).foldl (fun g o => if outside g o then g.assign o else g) g) g

/-- The text of a node. A range that is not there yet cannot be written. -/
def nodeText (g : Graph) (n : NodeId) : String :=
  g.label n ++ " " ++ ((g.range? n).map Range.text).getD brokenText

/-- Adds a line about a component to the log, if a trace is asked for. -/
def record (pos : Nat) (comp : List NodeId) (phase : Phase) (g : Graph) : Graph :=
  if g.tracing then
    let nodes := ", ".intercalate (comp.map g.nodeText)
    let line := "scc " ++ toString pos ++ " " ++ phase.text ++ ": " ++ nodes
    { g with log := g.log.push line }
  else g

/-- Solves a component whose number is `pos`. A component without any range that is not empty is
neither widened nor narrowed. -/
def solveComponent (pos : Nat) (comp : List NodeId) : GraphM Unit := do
  modify (record pos comp .discovered)
  let entry := (← get).hasEntry comp
  let defs := (← get).definitions comp
  if entry then modify (iterate .widening pos defs)
  modify (freeze comp)
  modify (record pos comp .widened)
  modify (resolveBounds (fun _ _ => true) comp)
  modify (record pos comp .intersectsFixed)
  if entry then
    let m ← liftM (meetOf (← get).narrowing)
    modify (iterate m pos defs)
  modify (record pos comp .narrowed)
  modify (propagate pos comp)
  modify (record pos comp .propagated)

/-- The range that a node starts with: that of its constant, nothing if it is defined, else that of
its hint. -/
def startRange (s : Sentinels) (n : Node) : Range :=
  match n.const, n.definition, n.hint with
  | some c, _, _ => s.singleton c
  | none, some _, _ => s.empty
  | none, none, some h => s.ofHint h
  | none, none, none => s.max

/-- Starts the solution, which gives each node its first range. It is started once. -/
def seed (g : Graph) : Graph :=
  if g.started then g
  else
    let nodes := g.nodes.map fun n => { n with range := some (startRange g.sentinels n) }
    { g with started := true, nodes }

/-- Computes the range of every node. A solved graph stays as it is. -/
def solve : GraphM Unit := do
  if (← get).solved then return
  modify seed
  let cs ← liftM (← get).findComponents
  modify fun g => { g with components := some cs }
  for (comp, pos) in cs.members.toList.zipIdx do
    solveComponent pos comp
  modify fun g => { g with solved := true }

/-- The number of a node's component. -/
def componentOf (g : Graph) (n : NodeId) : Except Fault Nat :=
  match g.components with
  | none => .error .noComponents
  | some cs =>
    match cs.numberOf[n]? with
    | some i => .ok i
    | none => .error .missing

/-- The number of components. -/
def componentCount (g : Graph) : Except Fault Nat :=
  match g.components with
  | none => .error .noComponents
  | some cs => .ok cs.members.size

end ValueRange.Graph
