import ValueRange.Graph.Basic

/-! The range that an operation computes from the ranges of its sources. -/

namespace ValueRange.Graph

variable (g : Graph)

/-- The range of a unary operation. -/
def evalUnary (op : UnaryOp) (r : Range) (sourceType targetType : IntType) : Range :=
  match op with
  | .copy | .load | .store => r
  | .cast => r.convert targetType
  | .trunc => if targetType.unsigned then r.convert targetType else r.truncate targetType.width
  | .sext => r.signExtend
  | .zext => r.zeroExtend sourceType.width

/-- A sum, difference or product for a sink of type `t`. If a finite result leaves the type, it
wraps around, so that the sink may hold any value of the type. -/
def evalWrapping (s : Sentinels) (f : Range.Corner) (t : IntType) (a b : Range) : Range :=
  if a.overflows b f t then s.interval t.minValue t.maxValue else a.combine b f

/-- The range of a binary operation for a sink of type `t`. -/
def evalBinary (s : Sentinels) (op : BinaryOp) (t : IntType) (a b : Range) : Range :=
  match op with
  | .add => evalWrapping s Extended.add t a b
  | .sub => evalWrapping s Extended.sub t a b
  | .mul => evalWrapping s Extended.mul t a b
  | .udiv => a.udiv b
  | .sdiv => a.sdiv b
  | .urem => a.urem b
  | .srem => a.srem b
  | .shl => a.shl b
  | .lshr => a.lshr b
  | .ashr => a.ashr b
  | .and => a.and b
  | .or => a.or b
  | .xor => a.xor b

/-- The union of some ranges. -/
def unionAll (s : Sentinels) (rs : List Range) : Range := rs.foldl Range.union s.empty

/-- The range of an operation before its intersection. -/
def evalKind (sink : NodeId) : Kind → Range
  | .unary op source sourceType targetType =>
    evalUnary op (g.range source) sourceType targetType
  | .sigma source _ => g.range source
  | .binary op lhs rhs => evalBinary g.sentinels op (g.typeOf sink) (g.range lhs) (g.range rhs)
  | .phi sources => unionAll g.sentinels (sources.map g.range)

/-- The range of an operation. -/
def eval (op : Operation) : Range :=
  let r := g.evalKind op.sink op.kind
  if op.intersect.isMax then r else r.intersect op.intersect

/-- The text of an operation. -/
def operationText (op : Operation) : String :=
  let rhs := match op.kind with
    | .unary o source _ _ => o.text ++ " " ++ g.label source
    | .sigma source bound =>
      "sigma " ++ g.label source ++
      match bound with
      | some (n, c) => " " ++ c.symbol ++ " " ++ g.label n
      | none => ""
    | .binary o lhs rhs => o.text ++ " " ++ g.label lhs ++ ", " ++ g.label rhs
    | .phi sources => "phi " ++ ", ".intercalate (sources.map g.label)
  g.label op.sink ++ " = " ++ rhs ++
    if op.intersect.isMax then "" else " ∩ " ++ op.intersect.text

end ValueRange.Graph
