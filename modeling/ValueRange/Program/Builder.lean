import ValueRange.Program.Basic

/-! Building programs. Each step adds to a program and answers the place of what it added; places
that were given out before stay valid. The edges between blocks follow their terminators. -/

namespace ValueRange

/-- A step that extends a program. -/
abbrev Builder := StateM Program

namespace Program

/-- Adds a module without functions. -/
def addModule : Builder ModuleId := fun p =>
  (p.modules.size, { p with modules := p.modules.push ⟨#[], 0⟩ })

/-- Adds a function without blocks to a module. -/
def addFunction (m : ModuleId) (name : String) : Builder FuncId := fun p =>
  let f := p.functions.size
  (f, { p with
    functions := p.functions.push ⟨name, #[], #[], false, #[], m⟩
    modules := p.modules.modify m fun x => { x with functions := x.functions.push f } })

/-- Says whether a function is external. -/
def setExternal (f : FuncId) (flag : Bool) (p : Program) : Program :=
  { p with functions := p.functions.modify f fun x => { x with external := flag } }

/-- Adds a value to a function; it takes the next number of the function's module. -/
def addValue (f : FuncId) (name : String) (type : IntType) (const : Option Int)
    (hint : Option Hint) (site : Option Site) : Builder ValueId := fun p =>
  let v := p.values.size
  let home := (p.func f).home
  (v, { p with
    values := p.values.push ⟨(p.moduleAt home).nextNumber, name, type, const, hint, site, f⟩
    modules := p.modules.modify home fun x => { x with nextNumber := x.nextNumber + 1 }
    functions := p.functions.modify f fun x => { x with values := x.values.push v } })

/-- Adds a parameter to a function. -/
def addParam (f : FuncId) (name : String) (type : IntType) (hint : Option Hint) :
    Builder ValueId := do
  let v ← addValue f name type none hint none
  modify fun p =>
    { p with functions := p.functions.modify f fun x => { x with params := x.params.push v } }
  return v

/-- Adds an empty block to a function. -/
def addBlock (f : FuncId) (name : String) : Builder BlockId := fun p =>
  let b := p.blocks.size
  (b, { p with
    blocks := p.blocks.push ⟨f, (p.func f).blocks.size, name, #[], none, [], []⟩
    functions := p.functions.modify f fun x => { x with blocks := x.blocks.push b } })

/-- The constant of a function with a type and an integer, if there is one. -/
def constant? (p : Program) (f : FuncId) (type : IntType) (n : Int) : Option ValueId :=
  (p.func f).values.find? fun v => (p.value v).const == some n && p.typeOf v == type

/-- The constant of a function with a type and an integer, which is added once. -/
def constant (f : FuncId) (type : IntType) (n : Int) : Builder ValueId := do
  match (← get).constant? f type n with
  | some v => return v
  | none => addValue f "" type (some n) none none

/-- Appends an instruction to a block. -/
def pushInstr (b : BlockId) (i : Instr) (p : Program) : Program :=
  { p with blocks := p.blocks.modify b fun x => { x with instrs := x.instrs.push i } }

/-- Appends an instruction to a block and answers its result, which only an integer type has. The
hint and the callee belong to the result and to the instruction. -/
def emit (b : BlockId) (op : Opcode) (name : String) (type : IntType)
    (args : List (Option ValueId)) (hint : Option Hint) (callee : Option FuncId) :
    Builder (Option ValueId) := do
  let block := (← get).block b
  if type.isInteger then
    let v ← addValue block.owner name type none hint (some ⟨b, block.instrs.size⟩)
    modify (pushInstr b ⟨op, some v, args, callee⟩)
    return some v
  else
    modify (pushInstr b ⟨op, none, args, callee⟩)
    return none

/-- Changes the instruction at a site. -/
def modifyInstr (s : Site) (f : Instr → Instr) (p : Program) : Program :=
  { p with
    blocks := p.blocks.modify s.block fun x => { x with instrs := x.instrs.modify s.index f } }

/-- Changes the hint of a value. -/
def setHint (v : ValueId) (hint : Option Hint) (p : Program) : Program :=
  { p with values := p.values.modify v fun x => { x with hint := hint } }

/-- Replaces operand `i` of the instruction that defines a value. -/
def setArg (v : ValueId) (i : Nat) (arg : Option ValueId) (p : Program) : Except Fault Program :=
  match (p.value v).site with
  | none => .error .missing
  | some s =>
    match p.instr? s with
    | none => .error .missing
    | some instr =>
      if i < instr.args.length then
        .ok (p.modifyInstr s fun x => { x with args := x.args.set i arg })
      else .error .missing

/-- Records that one block leads to another. An edge is recorded once. -/
def addEdge (source target : BlockId) (p : Program) : Program :=
  if target ∈ (p.block source).succs then p
  else
    let blocks := p.blocks.modify source fun x => { x with succs := x.succs ++ [target] }
    { p with blocks := blocks.modify target fun x => { x with preds := x.preds ++ [source] } }

/-- Ends a block and records the edges to its successors. -/
def terminate (b : BlockId) (t : Terminator) (p : Program) : Program :=
  t.successors.foldl (fun p target => p.addEdge b target)
    { p with blocks := p.blocks.modify b fun x => { x with term := some t } }

/-- Ends a block that has no terminator yet. -/
def setTerminator (b : BlockId) (t : Terminator) (p : Program) : Except Fault Program :=
  match (p.block b).term with
  | some _ => .error (.terminated (p.blockText b))
  | none => .ok (p.terminate b t)

end Program

end ValueRange
