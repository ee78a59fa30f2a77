import ValueRange.IntType
import ValueRange.Opcode
import ValueRange.Comparison

/-! Programs in static single assignment form. A program holds modules of functions; a function is
a list of blocks, each with instructions and a terminator. Comparisons are no instructions but part
of the terminator that branches on them, and the successors of a branch may start with sigma
instructions, which copy a compared value so that what the branch tells about it has a name.

Values, blocks, functions and modules are numbered by their place in the program, and refer to each
other by these numbers. -/

namespace ValueRange

/-- The place of a value in its program. -/
abbrev ValueId := Nat

/-- The place of a block in its program. -/
abbrev BlockId := Nat

/-- The place of a function in its program. -/
abbrev FuncId := Nat

/-- The place of a module in its program. -/
abbrev ModuleId := Nat

/-- The place of an instruction: its block and its position there. -/
structure Site where
  block : BlockId
  index : Nat
deriving DecidableEq, Repr, Inhabited

/-- A value: a parameter, a constant or the result of an instruction. Its number is unique within
the module. -/
structure Value where
  number : Nat
  name : String
  type : IntType
  const : Option Int
  hint : Option Hint
  site : Option Site
  owner : FuncId
deriving DecidableEq, Repr, Inhabited

/-- An instruction computes its result, if it has one, from its operands. An operand may be
missing. A call may know its callee. -/
structure Instr where
  op : Opcode
  result : Option ValueId
  args : List (Option ValueId)
  callee : Option FuncId
deriving DecidableEq, Repr, Inhabited

/-- What ends a block: a jump, a test of two operands, a switch over integers, a branch on a
condition that is not modelled, or a return. -/
inductive Terminator where
  | jump (target : BlockId)
  | test (pred : Predicate) (x y : Option ValueId) (yes no : BlockId)
  | switch (on : Option ValueId) (cases : List (Int × BlockId)) (otherwise : BlockId)
  | branch (targets : List BlockId)
  | ret (results : List (Option ValueId))
deriving DecidableEq, Repr, Inhabited

/-- The blocks that a terminator may transfer control to, with repetitions. -/
def Terminator.successors : Terminator → List BlockId
  | jump target => [target]
  | test _ _ _ yes no => [yes, no]
  | switch _ cases otherwise => cases.map (·.2) ++ [otherwise]
  | branch targets => targets
  | ret _ => []

/-- A block of a function, with the blocks that lead to it and the blocks that it leads to. -/
structure Block where
  owner : FuncId
  index : Nat
  name : String
  instrs : Array Instr
  term : Option Terminator
  preds : List BlockId
  succs : List BlockId
deriving DecidableEq, Repr, Inhabited

/-- A function. Its first block is its entry. An external function may be called from outside its
module, so that its parameters are never bound to the arguments of known calls. -/
structure Func where
  name : String
  params : Array ValueId
  blocks : Array BlockId
  external : Bool
  values : Array ValueId
  home : ModuleId
deriving DecidableEq, Repr, Inhabited

/-- A module: functions that share one numbering of values. -/
structure Module where
  functions : Array FuncId
  nextNumber : Nat
deriving DecidableEq, Repr, Inhabited

/-- A program: everything by its place. -/
structure Program where
  modules : Array Module
  functions : Array Func
  blocks : Array Block
  values : Array Value
deriving DecidableEq, Repr, Inhabited

namespace Program

/-- The program of one module without functions. -/
def start : Program := ⟨#[⟨#[], 0⟩], #[], #[], #[]⟩

variable (p : Program)

/-- The value at a place. -/
def value (v : ValueId) : Value := p.values.getD v default

/-- The block at a place. -/
def block (b : BlockId) : Block := p.blocks.getD b default

/-- The function at a place. -/
def func (f : FuncId) : Func := p.functions.getD f default

/-- The module at a place. -/
def moduleAt (m : ModuleId) : Module := p.modules.getD m default

/-- The instruction at a site. -/
def instr? (s : Site) : Option Instr := (p.block s.block).instrs[s.index]?

/-- The type of a value. -/
def typeOf (v : ValueId) : IntType := (p.value v).type

/-- Whether a value is an integer that the analysis tracks. -/
def isInteger (v : ValueId) : Bool := (p.typeOf v).isInteger

/-- The name that stands for a value in texts: a constant's numeral, a name, or a number. -/
def valueText (v : ValueId) : String :=
  let value := p.value v
  match value.const with
  | some n => toString n
  | none => if value.name = "" then "v" ++ toString value.number else value.name

/-- The name that stands for a block in texts. -/
def blockText (b : BlockId) : String :=
  let block := p.block b
  if block.name = "" then "b" ++ toString block.index else block.name

/-- The first value of a function with a name. Constants have the empty name. -/
def lookup (f : FuncId) (name : String) : Option ValueId :=
  (p.func f).values.find? fun v => (p.value v).name == name

/-- The first block of a function with a name. -/
def lookupBlock (f : FuncId) (name : String) : Option BlockId :=
  (p.func f).blocks.find? fun b => (p.block b).name == name

/-- The first function of a module with a name. -/
def lookupFunction (m : ModuleId) (name : String) : Option FuncId :=
  (p.moduleAt m).functions.find? fun f => (p.func f).name == name

/-- The results at position `i` of the returns of a function, in the order of its blocks. -/
def returns (f : FuncId) (i : Nat) : List (Option ValueId) :=
  (p.func f).blocks.toList.filterMap fun b =>
    match (p.block b).term with
    | some (.ret results) => results[i]?
    | _ => none

/-- The instructions of a function, in the order of its blocks. -/
def instrs (f : FuncId) : List Instr :=
  (p.func f).blocks.toList.flatMap fun b => (p.block b).instrs.toList

/-- The calls of a function within a module. -/
def calls (m : ModuleId) (callee : FuncId) : List Instr :=
  (p.moduleAt m).functions.toList.flatMap fun f =>
    (p.instrs f).filter fun i => i.op == .call && i.callee == some callee

/-- The number of signed bits that hold every tracked value of the functions. -/
def maxWidth (fs : List FuncId) : Int :=
  (fs.flatMap fun f => (p.func f).values.toList).foldl (fun w v =>
    if p.isInteger v then Max.max w (p.typeOf v).signedWidth else w) 0

end Program

end ValueRange
