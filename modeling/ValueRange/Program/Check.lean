import ValueRange.Program.Basic

/-! Structural checks of functions. A function without problems can be analysed. -/

namespace ValueRange

/-- What may be wrong with a function. -/
inductive Problem where
  | noBlocks
  | noTerminator (b : BlockId)
  | missingOperand (i : Instr)
  | foreignOperand (i : Instr) (v : ValueId)
  | invalidOperation (i : Instr)
  | operandCount (i : Instr) (wanted : Nat)
  | emptyPhi (i : Instr)
  | misplacedSigma (i : Instr) (b : BlockId)
  | missingComparand (b : BlockId)
  | missingSelector (b : BlockId)
deriving DecidableEq, Repr

namespace Program

variable (p : Program)

/-- How a problem names an instruction. -/
def instrLabel (i : Instr) : String :=
  match i.result with
  | some v => p.valueText v ++ " = " ++ i.op.text
  | none => i.op.text

/-- The text of a problem of a function. -/
def problemText (f : FuncId) (problem : Problem) : String :=
  (p.func f).name ++ ": " ++
  match problem with
  | .noBlocks => "function has no blocks"
  | .noTerminator b => "block " ++ p.blockText b ++ " has no terminator"
  | .missingOperand i => p.instrLabel i ++ ": nil operand"
  | .foreignOperand i v =>
    p.instrLabel i ++ ": operand " ++ p.valueText v ++ " belongs to another function"
  | .invalidOperation i => p.instrLabel i ++ ": invalid opcode"
  | .operandCount i wanted =>
    p.instrLabel i ++ ": want " ++ toString wanted ++
      (if wanted = 1 then " operand" else " operands") ++ ", got " ++ toString i.args.length
  | .emptyPhi i => p.instrLabel i ++ ": phi without operands"
  | .misplacedSigma i b =>
    p.instrLabel i ++ ": sigma in block " ++ p.blockText b ++ " with " ++
      toString (p.block b).preds.length ++ " predecessors"
  | .missingComparand b => "block " ++ p.blockText b ++ ": comparison with nil operand"
  | .missingSelector b => "block " ++ p.blockText b ++ ": switch on nil value"

/-- The problem of an operand, if any. -/
def operandProblem (f : FuncId) (i : Instr) : Option ValueId → Option Problem
  | none => some (.missingOperand i)
  | some v => if (p.value v).owner = f then none else some (.foreignOperand i v)

/-- The problem of an instruction's number of operands, if any. -/
def arityProblem (i : Instr) : Option Problem :=
  match i.op with
  | .invalid => some (.invalidOperation i)
  | .unary _ | .sigma => if i.args.length = 1 then none else some (.operandCount i 1)
  | .binary _ => if i.args.length = 2 then none else some (.operandCount i 2)
  | .phi => if i.args.isEmpty then some (.emptyPhi i) else none
  | _ => none

/-- A sigma copies what a branch tells, so its block has exactly one predecessor. -/
def sigmaProblem (b : BlockId) (i : Instr) : Option Problem :=
  if i.op = .sigma ∧ (p.block b).preds.length ≠ 1 then some (.misplacedSigma i b) else none

/-- The problems of an instruction. -/
def instrProblems (f : FuncId) (b : BlockId) (i : Instr) : List Problem :=
  i.args.filterMap (p.operandProblem f i) ++ (arityProblem i).toList ++ (p.sigmaProblem b i).toList

/-- The problem of the operands of a terminator, if any. -/
def termProblem (b : BlockId) : Option Terminator → Option Problem
  | some (.test _ x y _ _) => if x.isNone || y.isNone then some (.missingComparand b) else none
  | some (.switch on _ _) => if on.isNone then some (.missingSelector b) else none
  | _ => none

/-- The problems of a block. -/
def blockProblems (f : FuncId) (b : BlockId) : List Problem :=
  let block := p.block b
  (if block.term.isNone then [.noTerminator b] else []) ++
    block.instrs.toList.flatMap (p.instrProblems f b) ++ (termProblem b block.term).toList

/-- The problems of a function, in the order of its blocks. -/
def problems (f : FuncId) : List Problem :=
  let blocks := (p.func f).blocks.toList
  (if blocks.isEmpty then [.noBlocks] else []) ++ blocks.flatMap (p.blockProblems f)

/-- What the check of a function reports, or nothing if it passes. -/
def check (f : FuncId) : Option String :=
  match p.problems f with
  | [] => none
  | list => some ("\n".intercalate (list.map (p.problemText f)))

end Program

end ValueRange
