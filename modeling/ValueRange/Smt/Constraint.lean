import ValueRange.Smt.Term

/-! The constraints that the instructions of a function place on their results. -/

namespace ValueRange.Smt

/-- An operand, which may not be missing. -/
def present : Option ValueId → Except Fault ValueId
  | some v => .ok v
  | none => .error .missing

/-- Operand `i` of an instruction. -/
def operand (i : Instr) (n : Nat) : Except Fault (Option ValueId) :=
  match i.args[n]? with
  | some v => .ok v
  | none => .error .missing

/-- The constraint of a value, as it is used by those of other values. A constant has none. -/
def reference (p : Program) (v : ValueId) : Term :=
  if (p.value v).const.isSome then .truth else .ref v

/-- What the outcome of a test says. -/
def condition (pred : Predicate) (x y : ValueId) (taken : Bool) : Except Fault Term := do
  let pred ← if taken then pure pred else Predicate.known <$> pred.negate
  match pred with
  | .known c =>
    match Operator.ofComparison? c with
    | some op => return .apply op (.name x) (.name y)
    | none => return .truth
  | .other _ => return .truth

/-- What holds on entry to a block by the terminator of its only predecessor. -/
def branchCondition (p : Program) (b : BlockId) : Except Fault Term := do
  match (p.block b).preds with
  | [pred] =>
    match (p.block pred).term with
    | some (.test c x y yes no) =>
      let x ← present x
      if !p.isInteger x || yes == no then return .truth
      let holds ← condition c x (y.getD 0) (b == yes)
      let y ← present y
      return .conj [holds, reference p x, reference p y]
    | some (.switch on cases otherwise) =>
      if b == otherwise then return .truth
      let on ← present on
      let hits := cases.filter fun c => c.2 == b
      let equalities := hits.map fun c => Term.apply .equal (.name on) (.literal c.1)
      return .conj [.disj equalities, reference p on]
    | _ => return .truth
  | _ => return .truth

/-- The constraint of a result that equals an operand. -/
def copyTerms (p : Program) (v : ValueId) (arg : Option ValueId) : Except Fault (List Term) := do
  let x ← present arg
  return [.apply .equal (.name v) (.name x), reference p x]

/-- The constraint that an instruction of block `b` places on its result `v`, if it is modelled. -/
def instrConstraint (p : Program) (b : BlockId) (i : Instr) (v : ValueId) :
    Except Fault (Option Term) := do
  match i.op with
  | .sigma =>
    let x ← operand i 0
    let entry ← branchCondition p b
    return some (.conj (entry :: (← copyTerms p v x)))
  | .unary .copy | .unary .sext | .unary .load | .unary .store =>
    return some (.conj (← copyTerms p v (← operand i 0)))
  | .binary op =>
    match Operator.ofBinary? op with
    | none => return none
    | some op =>
      let x ← operand i 0
      let y ← operand i 1
      let x ← present x
      let y ← present y
      return some (.conj [.apply .equal (.name v) (.apply op (.name x) (.name y)),
        reference p x, reference p y])
  | .phi => return some (.disj (← i.args.mapM fun arg => .conj <$> copyTerms p v arg))
  | _ => return none

/-- The constraints of the instructions of a block. -/
def blockConstraints (p : Program) (b : BlockId) : Except Fault (List (ValueId × Term)) := do
  let found ← (p.block b).instrs.toList.mapM fun i =>
    match i.result with
    | none => .ok none
    | some v => do return (← instrConstraint p b i v).map fun t => (v, t)
  return found.filterMap id

/-- The constraint of each result of a function that has one. Other values are bounded by their
types and hints only. -/
def constraints (p : Program) (f : FuncId) : Except Fault (List (ValueId × Term)) := do
  return (← (p.func f).blocks.toList.mapM (blockConstraints p)).flatten

end ValueRange.Smt
