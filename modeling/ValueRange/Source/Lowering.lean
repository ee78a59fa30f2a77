import ValueRange.Program.Builder
import ValueRange.Source.Function

/-! Lowering of Go functions to programs. Every integer becomes a value whose type represents it
exactly, and what is not modelled becomes an unknown value that its type bounds. The successors of a
branch on a comparison of integers start with sigmas of the compared values, and uses that a sigma
dominates refer to it. -/

namespace ValueRange.Source

/-- What lowering is told: the platform, which functions with a body may be called from elsewhere,
and what is known about the results of functions beyond their types. -/
structure Rules where
  platform : Platform
  isExternal : Nat → Bool
  resultHint : Nat → IntType → Option Hint

/-- A function as it is lowered: its place in the package and in the program, its blocks, the values
of its operands, and the sigmas at the start of its blocks. -/
structure Frame where
  source : Nat
  target : FuncId
  blocks : Array BlockId
  values : List (Operand × ValueId)
  sigmas : List ((Nat × Operand) × ValueId)
deriving DecidableEq, Repr, Inhabited

/-- The value that stands for an operand in a block of its function: the sigma in the nearest
dominator that has one, else the value itself. -/
def Frame.valueAt (frame : Frame) (f : Func) (v : Operand) (b : Nat) : Option ValueId :=
  match (f.dominators b).findSome? fun d => frame.sigmas.lookup (d, v) with
  | some s => some s
  | none => frame.values.lookup v

/-- The state of lowering: the program, which functions it declares, and the function at hand. -/
structure Lowering where
  program : Program
  declared : List (Nat × FuncId)
  frame : Frame
deriving Repr, Inhabited

/-- A step of lowering. -/
abbrev LowerM := StateM Lowering

namespace Lowering

/-- Extends the program. -/
def extend (b : Builder α) : LowerM α := fun s =>
  let (a, program) := b s.program
  (a, { s with program })

/-- Changes the program. -/
def edit (change : Program → Program) : LowerM Unit := modify fun s =>
  { s with program := change s.program }

/-- Records the value of an operand. -/
def record (v : Operand) (value : ValueId) : LowerM Unit := modify fun s =>
  { s with frame.values := (v, value) :: s.frame.values }

/-- Changes the instruction that defines a value. -/
def editInstr (v : ValueId) (change : ValueRange.Instr → ValueRange.Instr) : LowerM Unit :=
  edit fun p =>
    match (p.value v).site with
    | some site => p.modifyInstr site change
    | none => p

/-- The comparisons by their tokens. -/
def comparisons : List (String × Comparison) :=
  [("==", .eq), ("!=", .ne), ("<", .slt), ("<=", .sle), (">", .sgt), (">=", .sge)]

/-- The arithmetic by its tokens, of signed and of unsigned integers. -/
def arithmetic : List (String × BinaryOp × BinaryOp) :=
  [("+", .add, .add), ("-", .sub, .sub), ("*", .mul, .mul), ("/", .sdiv, .udiv),
   ("%", .srem, .urem), ("<<", .shl, .shl), (">>", .ashr, .lshr), ("&", .and, .and),
   ("|", .or, .or), ("^", .xor, .xor)]

/-- An operand that is resolved once every value is emitted: one in a block, or a value. -/
inductive Slot where
  | use (v : Option Operand) (block : Nat)
  | fixed (v : ValueId)
deriving DecidableEq, Repr, Inhabited

/-- A result whose operands are to be resolved. -/
structure Pending where
  result : ValueId
  slots : List Slot
deriving DecidableEq, Repr, Inhabited

section

variable (pkg : Package) (rules : Rules)

/-- The type of the values of an operand, if they are integers. -/
def typeOf? (f : Func) (v : Operand) : Option IntType := (f.typeOf v).integer? rules.platform

/-- The function of the program that stands for one of the package, which is made with its integer
parameters if there is none. -/
def declare (i : Nat) : LowerM FuncId := do
  match (← get).declared.lookup i with
  | some f => return f
  | none =>
    let source := pkg.func i
    let f ← extend (Program.addFunction 0 source.name)
    edit (Program.setExternal f (!source.hasBody || rules.isExternal i))
    for p in source.params do
      if let some t := p.type.integer? rules.platform then
        let _ ← extend (Program.addParam f p.name t (some (.ofType t)))
    modify fun s => { s with declared := (i, f) :: s.declared }
    return f

/-- The comparison of integers that a block branches on, with its operands. -/
def comparison? (f : Func) (b : Nat) : Option (Comparison × Operand × Operand) :=
  match f.last? b, (f.block b).succs with
  | some ⟨.test, _, _, [some (.result cb ci)]⟩, [yes, no] =>
    if yes = no then none
    else match f.instr? cb ci with
      | some ⟨.binary token, _, _, [some x, some y]⟩ =>
        match comparisons.lookup token, typeOf? rules f x with
        | some c, some _ => some (c, x, y)
        | _, _ => none
      | _ => none
  | _, _ => none

/-- The block of the program for a block of the function. -/
def blockOf (b : Nat) : LowerM BlockId := return (← get).frame.blocks.getD b 0

/-- The value of an operand in a block. Constants, and unknown values for free variables, are made
on first use; what is no integer has none. -/
def resolve (f : Func) (v : Operand) (b : Nat) : LowerM (Option ValueId) := do
  let frame := (← get).frame
  match frame.valueAt f v b with
  | some value => return some value
  | none =>
    match typeOf? rules f v with
    | none => return none
    | some t =>
      let value ← match v with
        | .const _ n => some <$> extend (Program.constant frame.target t (n.getD 0))
        | _ => do
          let entry ← blockOf 0
          extend (Program.emit entry .unknown (f.nameOf v) t [] (some (.ofType t)) none)
      match value with
      | some value =>
        record v value
        return some value
      | none => return none

/-- Adds the sigma of an operand to block `succ`, unless there is one. -/
def addSigma (f : Func) (b succ : Nat) (v : Operand) : LowerM (List Pending) := do
  match v with
  | .const _ _ => return []
  | _ =>
    if ((← get).frame.sigmas.lookup (succ, v)).isSome then return []
    let t := (typeOf? rules f v).getD .void
    let name := f.nameOf v ++ "." ++ toString succ
    match ← extend (Program.emit (← blockOf succ) .sigma name t [] none none) with
    | none => return []
    | some s =>
      modify fun st => { st with frame.sigmas := ((succ, v), s) :: st.frame.sigmas }
      return [⟨s, [.use (some v) b]⟩]

/-- Adds the sigmas of the comparison that a block branches on. A successor with other predecessors
gets none. -/
def addSigmas (f : Func) (b : Nat) : LowerM (List Pending) := do
  match comparison? rules f b with
  | none => return []
  | some (_, x, y) =>
    let lists ← (f.block b).succs.mapM fun succ => do
      if (f.block succ).preds.length = 1 then
        let first ← addSigma rules f b succ x
        let second ← addSigma rules f b succ y
        return first ++ second
      else return []
    return lists.flatten

/-- Emits the definition of a result. -/
def emitValue (v : Operand) (b : Nat) (op : Opcode) (name : String) (t : IntType)
    (hint : Option Hint) (slots : List Slot) : LowerM (Option Pending) := do
  match ← extend (Program.emit (← blockOf b) op name t [] hint none) with
  | none => return none
  | some value =>
    record v value
    return some ⟨value, slots⟩

/-- Emits an unknown value. -/
def emitUnknown (v : Operand) (b : Nat) (name : String) (t : IntType) (hint : Hint) :
    LowerM (Option Pending) := do
  let _ ← emitValue v b .unknown name t (some hint) []
  return none

/-- Emits a call of a known function. Only arguments for integer parameters are passed. -/
def emitCall (v : Operand) (b : Nat) (name : String) (t : IntType) (callee : Nat)
    (args : List (Option Operand)) : LowerM (Option Pending) := do
  let passed := ((pkg.func callee).params.zip args).filter fun (p, _) =>
    (p.type.integer? rules.platform).isSome
  let pending ← emitValue v b .call name t none (passed.map fun (_, arg) => .use arg b)
  let target ← declare pkg rules callee
  if let some p := pending then
    editInstr p.result fun i => { i with callee := some target }
    edit (Program.setHint p.result (some ((rules.resultHint callee t).getD (.ofType t))))
  return pending

/-- Emits the definition of the instruction at a place, if it is an integer. -/
def addInstr (f : Func) (b i : Nat) : LowerM (Option Pending) := do
  let v := Operand.result b i
  match f.instr? b i, typeOf? rules f v with
  | some instr, some t =>
    let use (n : Nat) : Slot := .use ((instr.operands[n]?).join) b
    let unknown := emitUnknown v b instr.name t (.ofType t)
    match instr.action with
    | .binary token =>
      match arithmetic.lookup token with
      | some (signed, unsigned) =>
        let op := if t.unsigned then unsigned else signed
        emitValue v b (.binary op) instr.name t none [use 0, use 1]
      | none => unknown
    | .unary token =>
      let complement (n : Int) : LowerM (Option Pending) := do
        let c ← extend (Program.constant (← get).frame.target t n)
        emitValue v b (.binary .sub) instr.name t none [.fixed c, use 0]
      if token = "-" ∧ !t.unsigned then complement 0
      else if token = "^" then complement (if t.unsigned then t.maxValue else -1)
      else unknown
    | .convert =>
      match ((instr.operands[0]?).join).bind (typeOf? rules f) with
      | some _ => emitValue v b (.unary .cast) instr.name t none [use 0]
      | none => unknown
    | .retype => emitValue v b (.unary .copy) instr.name t none [use 0]
    | .phi =>
      let edges := instr.operands.zip (f.block b).preds
      emitValue v b .phi instr.name t none (edges.map fun (edge, pred) => .use edge pred)
    | .call _ (some builtin) _ =>
      if builtin = "len" ∨ builtin = "cap" then
        emitUnknown v b instr.name t ⟨some 0, some t.maxValue⟩
      else unknown
    | .call _ none (some callee) =>
      emitCall pkg rules v b instr.name t callee (instr.operands.drop 1)
    | _ => unknown
  | _, _ => return none

/-- Resolves operands in order, up to the first that is no integer. -/
def resolveAll (f : Func) : List Slot → LowerM (Option (List ValueId))
  | [] => return some []
  | slot :: rest => do
    let value ← match slot with
      | .fixed v => pure (some v)
      | .use (some v) b => resolve rules f v b
      | .use none _ => pure none
    match value with
    | none => return none
    | some value => return (← resolveAll f rest).map (value :: ·)

/-- Resolves the operands of a result. If one is no integer, the result becomes unknown. -/
def settle (f : Func) (p : Pending) : LowerM Unit := do
  match ← resolveAll rules f p.slots with
  | some args => editInstr p.result fun i => { i with args := args.map some }
  | none =>
    editInstr p.result fun i => { i with op := .unknown, args := [] }
    edit fun program => program.setHint p.result (some (.ofType (program.typeOf p.result)))

/-- The terminator of a block. What ends in neither a jump nor a branch returns. -/
def terminator (f : Func) (b : Nat) : LowerM Terminator := do
  let succs ← (f.block b).succs.mapM blockOf
  match f.last? b with
  | some ⟨.jump, _, _, _⟩ => return .jump (succs.headD 0)
  | some ⟨.test, _, _, _⟩ =>
    match comparison? rules f b with
    | none => return .branch succs
    | some (c, x, y) =>
      let x ← resolve rules f x b
      let y ← resolve rules f y b
      return .test (.known c) x y (succs.headD 0) (succs.getD 1 0)
  | some ⟨.ret _, _, _, [some result]⟩ =>
    match ← resolve rules f result b with
    | some v => return .ret [some v]
    | none => return .ret []
  | _ => return .ret []

/-- The operands of the integer parameters with the parameters of a declared function. -/
def paramValues (f : Func) (params : List ValueId) : List (Operand × ValueId) :=
  ((List.range f.params.length).map Operand.param |>.filter fun v => (typeOf? rules f v).isSome).zip
    params

/-- Lowers the function at a place, which has blocks. -/
def lowerFunction (i : Nat) : LowerM Frame := do
  let f := pkg.func i
  let target ← declare pkg rules i
  let places := List.range f.blocks.size
  let blocks ← places.mapM fun b =>
    extend (Program.addBlock target ((f.block b).comment ++ "." ++ toString b))
  modify fun s =>
    let params := (s.program.func target).params.toList
    { s with frame := ⟨i, target, blocks.toArray, paramValues rules f params, []⟩ }
  let sigmas ← places.mapM (addSigmas rules f)
  let results ← places.mapM fun b =>
    (List.range (f.block b).instrs.size).mapM (addInstr pkg rules f b)
  for p in sigmas.flatten ++ (results.flatten).filterMap id do
    settle rules f p
  for b in places do
    let t ← terminator rules f b
    let block ← blockOf b
    edit (Program.terminate block t)
  return (← get).frame

end

end Lowering

/-- A lowered package: the program and its lowered functions. -/
structure Lowered where
  program : Program
  frames : List Frame
deriving Repr, Inhabited

/-- Lowers the listed functions of a package in order. -/
def Package.lower (pkg : Package) (rules : Rules) : Lowered :=
  let (frames, s) := (pkg.listed.mapM (Lowering.lowerFunction pkg rules)).run
    ⟨.start, [], default⟩
  ⟨s.program, frames⟩

/-- The rules for a package on its own: exported functions and closures may be called from
elsewhere, and nothing is known about results. -/
def Package.ownRules (pkg : Package) (platform : Platform) : Rules where
  platform := platform
  isExternal i := (pkg.func i).isClosure || (pkg.func i).isExported
  resultHint _ _ := none

end ValueRange.Source
