import ValueRange.Program.Basic
import ValueRange.Text.Space

/-! Listings of functions. -/

namespace ValueRange.Program

variable (p : Program)

/-- The texts of operands, if none is missing. -/
def operandTexts (args : List (Option ValueId)) : Except Fault (List String) :=
  args.mapM fun arg =>
    match arg with
    | some v => .ok (p.valueText v)
    | none => .error .missing

/-- The text of an instruction. It has none if an operand is missing. -/
def instrText (i : Instr) : Except Fault String := do
  let args ← p.operandTexts i.args
  let head := match i.result with
    | some v => p.valueText v ++ " = " ++ i.op.text ++ " " ++ (p.typeOf v).text
    | none => i.op.text
  let callee := match i.callee with
    | some f => " " ++ (p.func f).name
    | none => ""
  let operands := if args.isEmpty then "" else " " ++ ", ".intercalate args
  let hint := match i.result.bind fun v => (p.value v).hint with
    | some h => " " ++ h.text
    | none => ""
  return head ++ callee ++ operands ++ hint

/-- The text of an operand that may be missing. -/
def optionalText : Option ValueId → String
  | some v => p.valueText v
  | none => "<nil>"

/-- The text of a terminator. A return of a missing operand has none. -/
def termText : Option Terminator → Except Fault String
  | none => .ok "<no terminator>"
  | some (.jump target) => .ok ("jump " ++ p.blockText target)
  | some (.test pred x y yes no) =>
    .ok ("if " ++ p.optionalText x ++ " " ++ pred.text ++ " " ++ p.optionalText y ++ " then " ++
      p.blockText yes ++ " else " ++ p.blockText no)
  | some (.switch on cases otherwise) =>
    .ok ("switch " ++ p.optionalText on ++
      String.join (cases.map fun c => " " ++ toString c.1 ++ ":" ++ p.blockText c.2) ++
      " default:" ++ p.blockText otherwise)
  | some (.branch targets) => .ok ("branch " ++ ", ".intercalate (targets.map p.blockText))
  | some (.ret results) => do
    let texts ← p.operandTexts results
    return Text.trimEnd ("return " ++ ", ".intercalate texts)

/-- The lines of a block. -/
def blockLines (b : BlockId) : Except Fault (List String) := do
  let block := p.block b
  let preds := if block.preds.isEmpty then ""
    else " ; preds " ++ ", ".intercalate (block.preds.map p.blockText)
  let instrs := block.instrs.toList.map fun i =>
    match p.instrText i with
    | .ok text => "\t" ++ text
    | .error _ => "\t" ++ brokenText
  let term ← p.termText block.term
  return [p.blockText b ++ ":" ++ preds] ++ instrs ++ ["\t" ++ term]

/-- The lines of a function. -/
def listing (f : FuncId) : Except Fault (List String) := do
  let func := p.func f
  let params := func.params.toList.map fun v => p.valueText v ++ " " ++ (p.typeOf v).text
  let blocks ← func.blocks.toList.mapM p.blockLines
  return ("func " ++ func.name ++ "(" ++ ", ".intercalate params ++ "):") :: blocks.flatten

/-- The listing of a function as a text. -/
def listingText (f : FuncId) : Except Fault String := do
  return String.join ((← p.listing f).map (· ++ "\n"))

end ValueRange.Program
