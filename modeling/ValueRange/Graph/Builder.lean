import ValueRange.Graph.Basic

/-! Building constraint graphs. A step may fail, and then keeps what it did before: the nodes of an
operation's sources are made before its sink is checked. -/

namespace ValueRange

/-- A step that changes a graph and may fail; a failure keeps the changes made before it. -/
abbrev GraphM := ExceptT Fault (StateM Graph)

namespace Graph

/-- The sentinels for an analysis of some functions. -/
def sentinelsFor (p : Program) (o : Options) (fs : List FuncId) : Sentinels :=
  .ofWidth (if o.width = 0 then p.maxWidth fs else o.width)

/-- The node of a value as it is added. It has no range yet. -/
def newNode (p : Program) (v : ValueId) : Node :=
  let x := p.value v
  ⟨v, p.valueText v, x.type, x.const, x.hint, none, none, none, [], []⟩

/-- Adds an operation with an existing sink and sources. -/
def pushOperation (sink : NodeId) (kind : Kind) (intersect : Range) (g : Graph) : Graph :=
  let o := g.ops.size
  let nodes := g.nodes.modify sink fun x => { x with definition := some o }
  let nodes := kind.operands.foldl (fun ns src =>
    ns.modify src fun x => { x with uses := x.uses ++ [o] }) nodes
  let nodes := match kind.bound? with
    | some (n, _) => nodes.modify n fun x => { x with bounds := x.bounds ++ [o] }
    | none => nodes
  { g with nodes, ops := g.ops.push ⟨sink, kind, intersect⟩ }

/-- Fails once the solution is started. -/
def checkOpen : GraphM Unit := do
  if (← get).started then throw .graphFrozen

/-- The node of a value, which is made if there is none. -/
def addValue (p : Program) (v : ValueId) : GraphM NodeId := do
  match (← get).nodeOf? v with
  | some n => return n
  | none =>
    checkOpen
    modifyGet fun g => (g.nodes.size, { g with nodes := g.nodes.push (newNode p v) })

/-- Defines a value by an operation, unless it is defined already. -/
def addOperation (p : Program) (v : ValueId) (kind : Kind) (intersect : Range) : GraphM OpId := do
  checkOpen
  let sink ← addValue p v
  if ((← get).definition sink).isSome then throw (.redefined (p.valueText v))
  modifyGet fun g => (g.ops.size, g.pushOperation sink kind intersect)

/-- Whether some operand is not tracked. Operands are looked at in order up to the first such one,
and fail if they are missing. -/
def hasUntracked (p : Program) : List (Option ValueId) → Except Fault Bool
  | [] => .ok false
  | none :: _ => .error .missing
  | some v :: rest => if p.isInteger v then hasUntracked p rest else .ok true

/-- The operand at a position. -/
def operandAt (args : List (Option ValueId)) (i : Nat) : GraphM ValueId :=
  match args[i]? with
  | some (some v) => return v
  | _ => throw .missing

/-- Adds the sigma of a value in a block, with what the branch into the block tells. -/
def addSigma (p : Program) (b : BlockId) (result source : ValueId) : GraphM OpId := do
  let src ← addValue p source
  match (← get).factAt? source b with
  | some (.against c bound) =>
    let n ← addValue p bound
    addOperation p result (.sigma src (some (n, c))) (← get).sentinels.max
  | some (.within r) => addOperation p result (.sigma src none) r
  | none => addOperation p result (.sigma src none) (← get).sentinels.max

/-- Adds the operation that computes the result of an instruction of a block. An instruction that is
not modelled leaves its result unconstrained and has none. -/
def addInstr (p : Program) (b : BlockId) (i : Instr) : GraphM (Option OpId) := do
  match i.result with
  | none => return none
  | some v =>
    if !p.isInteger v then return none
    if ← liftM (hasUntracked p i.args) then
      let _ ← addValue p v
      return none
    match i.op with
    | .unary op =>
      let a ← operandAt i.args 0
      let src ← addValue p a
      return some (← addOperation p v (.unary op src (p.typeOf a) (p.typeOf v))
        (← get).sentinels.max)
    | .binary op =>
      let lhs ← addValue p (← operandAt i.args 0)
      let rhs ← addValue p (← operandAt i.args 1)
      return some (← addOperation p v (.binary op lhs rhs) (← get).sentinels.max)
    | .phi =>
      let sources ← (i.args.filterMap id).mapM (addValue p)
      return some (← addOperation p v (.phi sources) (← get).sentinels.max)
    | .sigma => return some (← addSigma p b v (← operandAt i.args 0))
    | _ =>
      let _ ← addValue p v
      return none

/-- Adds sources to a phi. -/
def extendPhi (o : OpId) (sources : List NodeId) (g : Graph) : Graph :=
  { g with
    ops := g.ops.modify o fun (x : Operation) =>
      match x.kind with
      | Kind.phi old => { x with kind := .phi (old ++ sources) }
      | _ => x
    nodes := sources.foldl (fun ns src =>
      ns.modify src fun x => { x with uses := x.uses ++ [o] }) g.nodes }

/-- Whether an operation is a phi. -/
def isPhi (g : Graph) (o : OpId) : Bool :=
  match g.ops[o]? with
  | some ⟨_, .phi _, _⟩ => true
  | _ => false

/-- Defines a value as the union of others, or adds them to the union that defines it. Without
sources the value keeps its definition, if any. -/
def addBinding (p : Program) (v : ValueId) (sources : List ValueId) : GraphM (Option OpId) := do
  if sources.isEmpty then
    let n ← addValue p v
    return (← get).definition n
  let srcs ← sources.mapM (addValue p)
  let g ← get
  match (g.nodeOf? v).bind g.definition with
  | some o =>
    if !g.isPhi o then throw (.redefined (p.valueText v))
    checkOpen
    modify (extendPhi o srcs)
    return some o
  | none => return some (← addOperation p v (.phi srcs) g.sentinels.max)

/-- What a test of a value against another tells about it. -/
def factOf (p : Program) (s : Sentinels) (pred : Predicate) (other : ValueId) (yes no : BlockId) :
    Except Fault BranchFact :=
  match pred, (p.value other).const with
  | .known c, some n =>
    .ok ⟨yes, no, .within (Range.region s c (s.singleton n)),
      .within (Range.region s c.negate (s.singleton n))⟩
  | .known c, none => .ok ⟨yes, no, .against c other, .against c.negate other⟩
  | .other _, some _ => .error .regionOfUnknown
  | .other code, none => .error (.unknownPredicate code)

/-- Records a fact about a value. If the value is a copy or a sign extension, the fact also holds
of what it copies. -/
def addFact (p : Program) (v : ValueId) (f : BranchFact) : GraphM Unit := do
  modify fun g => { g with branches := g.branches.push (v, f) }
  match ((p.value v).site.bind p.instr?).map fun i => (i.op, i.args) with
  | some (Opcode.unary .copy, [arg]) | some (Opcode.unary .sext, [arg]) =>
    match arg with
    | none => throw .missing
    | some src =>
      if p.isInteger src && (p.value src).const.isNone then
        modify fun g => { g with branches := g.branches.push (src, f) }
  | _ => return

/-- Records what a test tells about its operands. -/
def addTest (p : Program) (pred : Predicate) (x y : Option ValueId) (yes no : BlockId) :
    GraphM Unit := do
  let some x := x | throw .missing
  if !p.isInteger x then return
  let some y := y | throw .missing
  if !p.isInteger y || yes == no then return
  let s := (← get).sentinels
  let xConst := (p.value x).const.isSome
  let yConst := (p.value y).const.isSome
  if xConst && yConst then return
  if !xConst then addFact p x (← liftM (factOf p s pred y yes no))
  if !yConst then
    let flipped ← liftM pred.flip
    addFact p y (← liftM (factOf p s (.known flipped) x yes no))

/-- The ranges that the cases of a switch give to their targets. A target that is also taken
otherwise has none. -/
def caseRanges (s : Sentinels) (cases : List (Int × BlockId)) (otherwise : BlockId) :
    List (BlockId × Range) :=
  cases.foldl (fun acc c =>
    if c.2 = otherwise then acc
    else match acc.lookup c.2 with
      | some r => acc.map fun e => if e.1 = c.2 then (e.1, r.union (s.singleton c.1)) else e
      | none => acc ++ [(c.2, s.singleton c.1)]) []

/-- Records what the terminator of a block tells about its operands. The facts have to be there
before the sigmas of the successors are added. -/
def addBranch (p : Program) (b : BlockId) : GraphM Unit := do
  match (p.block b).term with
  | some (.test pred x y yes no) => addTest p pred x y yes no
  | some (.switch on cases otherwise) =>
    let some on := on | throw .missing
    if p.isInteger on && (p.value on).const.isNone then
      modify fun g =>
        { g with switches := g.switches.push (on, ⟨caseRanges g.sentinels cases otherwise⟩) }
  | _ => return

/-- Adds the parameters, branches and instructions of a function. -/
def addFunction (p : Program) (f : FuncId) : GraphM Unit := do
  let func := p.func f
  for v in func.params do
    if p.isInteger v then
      let _ ← addValue p v
  for b in func.blocks do
    addBranch p b
  for b in func.blocks do
    for i in (p.block b).instrs do
      let _ ← addInstr p b i

end Graph

end ValueRange
