import ValueRange.Smt.Constraint

/-! Scripts that ask whether a value can satisfy its constraint together with some assertions. A
script declares the values that occur in it, defines the constraint of each value that the target
depends on after those that it refers to, and asserts the target's. Where definitions depend on each
other in a cycle, the reference that closes the cycle is replaced by truth; so if such a script is
satisfiable, that proves nothing. -/

namespace ValueRange.Smt

/-- A script: the declared values, the definitions and the assertions in order. -/
structure Script where
  declared : List ValueId
  definitions : List (ValueId × Term)
  assertions : List Term
deriving Repr, Inhabited

/-- The state of writing a script: the values whose definitions are begun and not written, the
declared values, and the definitions that are written. -/
structure Progress where
  pending : List ValueId
  declared : List ValueId
  definitions : List (ValueId × Term)
deriving Repr, Inhabited

/-- Declares a value once. Constants are not declared. -/
def Progress.declare (p : Program) (v : ValueId) (s : Progress) : Progress :=
  if (p.value v).const.isSome || s.declared.contains v then s
  else { s with declared := s.declared ++ [v] }

/-- Whether the definition of a value is begun. -/
def Progress.isBegun (s : Progress) (v : ValueId) : Bool :=
  s.pending.contains v || s.definitions.any fun d => d.1 == v

mutual

/-- Declares the values of a term and visits those that it refers to. A reference to a value whose
definition is pending becomes truth. -/
def cut (p : Program) (visit : ValueId → StateM Progress Unit) : Term → StateM Progress Term
  | .ref v => do
    if (← get).pending.contains v then return .truth
    visit v
    return .ref v
  | .name v => do
    modify (Progress.declare p v)
    return .name v
  | .conj terms => .conj <$> cutAll p visit terms
  | .disj terms => .disj <$> cutAll p visit terms
  | .apply op x y => do
    let x ← cut p visit x
    let y ← cut p visit y
    return .apply op x y
  | .literal n => return .literal n
  | .truth => return .truth

/-- Cuts terms from left to right. -/
def cutAll (p : Program) (visit : ValueId → StateM Progress Unit) :
    List Term → StateM Progress (List Term)
  | [] => return []
  | t :: ts => do
    let t ← cut p visit t
    let ts ← cutAll p visit ts
    return t :: ts

end

/-- Writes the definition of a value after those that it refers to. Each level has one more pending
value, so that their number bounds the depth. -/
def visit (p : Program) (cs : List (ValueId × Term)) :
    (depth : Nat) → ValueId → StateM Progress Unit
  | 0, _ => return
  | depth + 1, v => do
    if (← get).isBegun v then return
    modify fun s => Progress.declare p v { s with pending := v :: s.pending }
    let body ← cut p (visit p cs depth) ((cs.lookup v).getD .truth)
    modify fun s =>
      { s with pending := s.pending.erase v, definitions := s.definitions ++ [(v, body)] }

/-- The script of a target with further assertions, which follows definitions to a depth. -/
def scriptTo (p : Program) (depth : Nat) (target : ValueId) (assertions : List Term) :
    Except Fault Script := do
  let cs ← constraints p (p.value target).owner
  let visit := visit p cs depth
  let steps : StateM Progress (List Term) := do
    visit target
    cutAll p visit assertions
  let (assertions, s) := steps.run ⟨[], [], []⟩
  return ⟨s.declared, s.definitions, .ref target :: assertions⟩

/-- The script of a target with further assertions. -/
def script (p : Program) (target : ValueId) (assertions : List Term) : Except Fault Script :=
  scriptTo p p.values.size target assertions

/-- The lines that declare a value, with the bounds of its type and hint. -/
def declarationLines (p : Program) (v : ValueId) : List String :=
  let value := p.value v
  let name := nameText p v
  let atLeast (n : Int) : String := "(<= " ++ literalText n ++ " " ++ name ++ ")"
  let atMost (n : Int) : String := "(<= " ++ name ++ " " ++ literalText n ++ ")"
  let type := if value.type.isInteger then
      ["(assert (and " ++ atLeast value.type.minValue ++ " " ++ atMost value.type.maxValue ++ "))"]
    else []
  let lower := (value.hint.bind (·.lower)).toList.map fun n => "(assert " ++ atLeast n ++ ")"
  let upper := (value.hint.bind (·.upper)).toList.map fun n => "(assert " ++ atMost n ++ ")"
  ["(declare-const " ++ name ++ " Int)"] ++ type ++ lower ++ upper

/-- The lines of a script. -/
def Script.lines (p : Program) (s : Script) : List String :=
  s.declared.flatMap (declarationLines p) ++
    s.definitions.map (fun (v, t) =>
      "(define-fun " ++ refText p v ++ " () Bool " ++ t.text p ++ ")") ++
    s.assertions.map (fun t => "(assert " ++ t.text p ++ ")") ++ ["(check-sat)"]

end ValueRange.Smt
