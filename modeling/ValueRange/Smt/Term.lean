import ValueRange.Program.Basic

/-! Terms of formulas over the values of a function. Values are read as integers, and arithmetic
does not wrap. -/

namespace ValueRange.Smt

/-- An operator of two terms. -/
inductive Operator where
  | equal
  | distinct
  | less
  | lessEqual
  | greater
  | greaterEqual
  | plus
  | minus
  | times
  | other (name : String)
deriving DecidableEq, Repr, Inhabited

namespace Operator

/-- The name of an operator. -/
def text : Operator → String
  | equal => "="
  | distinct => "distinct"
  | less => "<"
  | lessEqual => "<="
  | greater => ">"
  | greaterEqual => ">="
  | plus => "+"
  | minus => "-"
  | times => "*"
  | other name => name

/-- The operators with names of their own. -/
def named : List Operator :=
  [equal, distinct, less, lessEqual, greater, greaterEqual, plus, minus, times]

/-- The operator with a name. -/
def ofText (s : String) : Operator := (named.find? fun op => op.text == s).getD (other s)

/-- The operator of a comparison. Unsigned comparisons of integers without a width have none. -/
def ofComparison? : Comparison → Option Operator
  | .eq => some equal
  | .ne => some distinct
  | .slt => some less
  | .sle => some lessEqual
  | .sgt => some greater
  | .sge => some greaterEqual
  | _ => none

/-- The operator of an instruction of two operands, of those that are modelled. -/
def ofBinary? : BinaryOp → Option Operator
  | .add => some plus
  | .sub => some minus
  | .mul => some times
  | _ => none

end Operator

/-- A term. `name v` stands for the value `v` itself, and `ref v` for the constraint that defines
it. -/
inductive Term where
  | conj (terms : List Term)
  | disj (terms : List Term)
  | ref (v : ValueId)
  | apply (op : Operator) (x y : Term)
  | literal (n : Int)
  | name (v : ValueId)
  | truth
deriving Repr, Inhabited

/-- The text of an integer. -/
def literalText (n : Int) : String :=
  if n < 0 then "(- " ++ toString (-n) ++ ")" else toString n

/-- The symbol of the constraint that defines a value. -/
def refText (p : Program) (v : ValueId) : String := "|r" ++ p.valueText v ++ "|"

/-- The text of a value. Constants are written as integers. -/
def nameText (p : Program) (v : ValueId) : String :=
  match (p.value v).const with
  | some n => literalText n
  | none => "|" ++ p.valueText v ++ "|"

/-- The text of an operator with any number of operands. -/
def joinText (op neutral : String) : List String → String
  | [] => neutral
  | [t] => t
  | ts => "(" ++ op ++ " " ++ " ".intercalate ts ++ ")"

mutual

/-- The text of a term. -/
def Term.text (p : Program) : Term → String
  | .conj terms => joinText "and" "true" (Term.texts p terms)
  | .disj terms => joinText "or" "false" (Term.texts p terms)
  | .ref v => refText p v
  | .apply op x y =>
    let operands := x.text p ++ " " ++ y.text p
    if op = .distinct then "(not (= " ++ operands ++ "))"
    else "(" ++ op.text ++ " " ++ operands ++ ")"
  | .literal n => literalText n
  | .name v => nameText p v
  | .truth => "true"

/-- The texts of terms. -/
def Term.texts (p : Program) : List Term → List String
  | [] => []
  | t :: ts => t.text p :: Term.texts p ts

end

end ValueRange.Smt
