import ValueRange.Source.Type

/-! Functions of Go packages in static single assignment form. Instructions are values that others
refer to by the place of their block and their place in it. -/

namespace ValueRange.Source

/-- A parameter or free variable. -/
structure Variable where
  name : String
  type : BasicType
deriving DecidableEq, Repr, Inhabited

/-- An operand. Constants that are no integers have no value; functions are known by their place in
the package. -/
inductive Operand where
  | param (i : Nat)
  | free (i : Nat)
  | result (block index : Nat)
  | const (type : BasicType) (value : Option Int)
  | func (i : Nat)
  | other (type : BasicType)
deriving DecidableEq, Repr, Inhabited

/-- What an instruction does, apart from its operands. The operands of a call are the called value
and the arguments; a detached call runs at another time. -/
inductive Action where
  | binary (token : String)
  | unary (token : String)
  | convert
  | retype
  | phi
  | call (throughInterface : Bool) (builtin : Option String) (callee : Option Nat)
  | detached
  | jump
  | test
  | ret (position : Option String)
  | other
deriving DecidableEq, Repr, Inhabited

/-- An instruction. Only values have a type. -/
structure Instr where
  action : Action
  name : String
  type : Option BasicType
  operands : List (Option Operand)
deriving DecidableEq, Repr, Inhabited

/-- A block with its immediate dominator. -/
structure Block where
  comment : String
  preds : List Nat
  succs : List Nat
  idom : Option Nat
  instrs : Array Instr
deriving DecidableEq, Repr, Inhabited

/-- A function. Functions of other packages, and those that are only mentioned, have no blocks
here, although they may have a body. -/
structure Func where
  name : String
  isListed : Bool
  hasBody : Bool
  isExported : Bool
  isClosure : Bool
  isMethod : Bool
  isLocal : Bool
  object : Option String
  objectIsLocal : Bool
  params : List Variable
  free : List Variable
  resultCount : Nat
  blocks : Array Block
deriving DecidableEq, Repr, Inhabited

/-- A package: its functions and those that they mention. -/
structure Package where
  functions : Array Func
deriving DecidableEq, Repr, Inhabited

namespace Func

variable (f : Func)

/-- The block at a place. -/
def block (b : Nat) : Block := f.blocks.getD b default

/-- The instruction that a result belongs to. -/
def instr? (b i : Nat) : Option Instr := (f.block b).instrs[i]?

/-- The last instruction of a block. -/
def last? (b : Nat) : Option Instr := (f.block b).instrs.back?

/-- The type of an operand. -/
def typeOf : Operand → BasicType
  | .param i => ((f.params[i]?).map (·.type)).getD .invalid
  | .free i => ((f.free[i]?).map (·.type)).getD .invalid
  | .result b i => ((f.instr? b i).bind (·.type)).getD .invalid
  | .const type _ => type
  | .func _ => .invalid
  | .other type => type

/-- The name of an operand. -/
def nameOf : Operand → String
  | .param i => ((f.params[i]?).map (·.name)).getD ""
  | .free i => ((f.free[i]?).map (·.name)).getD ""
  | .result b i => ((f.instr? b i).map (·.name)).getD ""
  | _ => ""

/-- A block and the blocks that dominate it, the nearest first, for at most so many steps. -/
def dominatorsWithin : (steps : Nat) → Nat → List Nat
  | 0, _ => []
  | steps + 1, b =>
    b :: match (f.block b).idom with
      | some d => dominatorsWithin steps d
      | none => []

/-- A block and the blocks that dominate it, the nearest first. -/
def dominators (b : Nat) : List Nat := f.dominatorsWithin f.blocks.size b

/-- The values of a function: its parameters, and the results of its instructions in order. -/
def values : List Operand :=
  (List.range f.params.length).map .param ++
    (List.range f.blocks.size).flatMap fun b =>
      ((List.range (f.block b).instrs.size).filter fun i =>
        ((f.instr? b i).bind (·.type)).isSome).map (.result b)

end Func

namespace Package

/-- The function at a place. -/
def func (p : Package) (i : Nat) : Func := p.functions.getD i default

/-- The functions that are to be analysed: the listed ones that have blocks. -/
def listed (p : Package) : List Nat :=
  (List.range p.functions.size).filter fun i =>
    (p.func i).isListed && !(p.func i).blocks.isEmpty

end Package

end ValueRange.Source
