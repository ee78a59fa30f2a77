import ValueRange.Program.Builder
import ValueRange.Program.Check
import ValueRange.Program.Document

/-! Decoding the written form of a module into a program. An operand that reads as an integer is a
constant of the instruction's type, or in a comparison of the other operand's type; a constant may
also carry its type, as in `255:u8`. -/

namespace ValueRange

/-- Why a written module is refused; or, as a fault, why decoding it has no answer. -/
inductive DecodeError where
  | functionTwice (name : String)
  | blockTwice (name : String)
  | valueTwice (name : String)
  | integerName (name : String)
  | invalidType (name : String)
  | invalidBound (text : String)
  | unknownOpcode (name : String)
  | unknownCallee (name : String)
  | untypedConstant (text : String)
  | undefinedValue (text : String)
  | undefinedBlock (name : String)
  | malformedTest
  | unknownPredicate (name : String)
  | invalidCase (text : String)
  | missingTerminator
  | inBlock (name : String) (cause : DecodeError)
  | inFunction (name : String) (cause : DecodeError)
  | refused (report : String)
  | fault (f : Fault)
deriving DecidableEq, Repr

/-- The text of a refusal. -/
def DecodeError.message : DecodeError → String
  | functionTwice name => "function " ++ name ++ " defined twice"
  | blockTwice name => "block " ++ name ++ " defined twice"
  | valueTwice name => "value " ++ name ++ " defined twice"
  | integerName name => "value name " ++ name ++ " is an integer"
  | invalidType name => IntType.invalidMessage name
  | invalidBound text => "invalid bound " ++ Text.quoted text
  | unknownOpcode name => "unknown opcode " ++ Text.quoted name
  | unknownCallee name => "call of unknown function " ++ name
  | untypedConstant text => "constant " ++ text ++ " has no type"
  | undefinedValue text => "undefined value " ++ text
  | undefinedBlock name => "undefined block " ++ Text.quoted name
  | malformedTest => "comparison must have the form [x, pred, y]"
  | unknownPredicate name => "unknown predicate " ++ Text.quoted name
  | invalidCase text => "invalid case value " ++ Text.quoted text
  | missingTerminator => "missing terminator"
  | inBlock name cause => "block " ++ name ++ ": " ++ cause.message
  | inFunction name cause => "function " ++ name ++ ": " ++ cause.message
  | refused report => report
  | fault f => f.message.getD ""

/-- A refusal with the place where it arises. A fault has no place. -/
def DecodeError.locate (place : DecodeError → DecodeError) : DecodeError → DecodeError
  | fault f => fault f
  | e => place e

namespace Decode

/-- A step of decoding, which extends a program or refuses. -/
abbrev Decoder := StateT Program (Except DecodeError)

/-- A step of building as a step of decoding. -/
def build {α : Type} (step : Builder α) : Decoder α := modifyGet step

/-- What an optional answer is, or a refusal. -/
def orRefuse {α : Type} (answer : Option α) (e : DecodeError) : Decoder α :=
  match answer with
  | some a => pure a
  | none => throw e

/-- A step of building that may fault. -/
def attempt (step : Program → Except Fault Program) : Decoder Unit := do
  match step (← get) with
  | .ok p => set p
  | .error f => throw (.fault f)

/-- What a name that was added before stands for. -/
def known {α : Type} (names : List (String × α)) (name : String) : Decoder α :=
  orRefuse (names.lookup name) (.fault .missing)

/-- The names that a function's body can refer to. -/
structure Scope where
  func : FuncId
  values : List (String × ValueId)
  blocks : List (String × BlockId)
deriving Repr, Inhabited

namespace Scope

/-- Gives a value its name. The empty name is none, and a name is unique and no integer. -/
def define (scope : Scope) (name : String) (v : ValueId) : Except DecodeError Scope :=
  if name = "" then .ok scope
  else if (scope.values.lookup name).isSome then .error (.valueTwice name)
  else if (Text.Integer.literal? name).isSome then .error (.integerName name)
  else .ok { scope with values := (name, v) :: scope.values }

/-- The block with a name. -/
def block (scope : Scope) (name : String) : Decoder BlockId :=
  orRefuse (scope.blocks.lookup name) (.undefinedBlock name)

end Scope

/-- The hint that two optional bounds write. -/
def hint (lower upper : Option String) : Except DecodeError (Option Hint) := do
  let bound (text : Option String) : Except DecodeError (Option Int) :=
    match text with
    | none => .ok none
    | some s => match Text.Integer.literal? s with
      | some n => .ok (some n)
      | none => .error (.invalidBound s)
  if lower.isNone && upper.isNone then return none
  return some ⟨← bound lower, ← bound upper⟩

/-- The type with a name. -/
def typeNamed (name : String) : Except DecodeError IntType :=
  match IntType.ofText? name with
  | some t => .ok t
  | none => .error (.invalidType name)

/-- The part before the first colon and, if there is one, the part after it. -/
def cutColon (s : String) : String × Option String :=
  match s.toList.span (· ≠ ':') with
  | (before, _ :: after) => (String.ofList before, some (String.ofList after))
  | (_, []) => (s, none)

/-- The value that an operand denotes: a constant, which without a type of its own takes the given
one, or a named value. -/
def operand (scope : Scope) (s : String) (type : IntType) : Decoder ValueId := do
  let (literal, typeName) := cutColon s
  match Text.Integer.literal? literal with
  | some n =>
    let type ← match typeName with
      | some name => liftM (typeNamed name)
      | none => pure type
    if type.isInteger then build (Program.constant scope.func type n)
    else throw (.untypedConstant s)
  | none => orRefuse (scope.values.lookup s) (.undefinedValue s)

/-- The type of a named value, and the untracked type for every other text. -/
def typeOfName (scope : Scope) (s : String) : Decoder IntType := do
  match scope.values.lookup s with
  | some v => return (← get).typeOf v
  | none => return .void

/-- The operands of a comparison. A constant takes the type of what it is compared with. -/
def comparands (scope : Scope) (xs ys : String) : Decoder (ValueId × ValueId) := do
  let x ← operand scope xs (← typeOfName scope ys)
  let y ← operand scope ys ((← get).typeOf x)
  return (x, y)

/-- Gives a value its hint and its name. -/
def describe (scope : Scope) (name : String) (lower upper : Option String) (v : ValueId) :
    Decoder Scope := do
  let hint ← liftM (hint lower upper)
  modify (Program.setHint v hint)
  liftM (scope.define name v)

/-- Decodes a parameter. -/
def param (scope : Scope) (d : Document.Param) : Decoder Scope := do
  let type ← liftM (typeNamed d.type)
  let v ← build (Program.addParam scope.func d.name type none)
  describe scope d.name d.lower d.upper v

/-- Adds a block with its name. -/
def block (scope : Scope) (d : Document.Block) : Decoder Scope := do
  if (scope.blocks.lookup d.name).isSome then throw (.blockTwice d.name)
  let b ← build (Program.addBlock scope.func d.name)
  return { scope with blocks := (d.name, b) :: scope.blocks }

/-- An instruction that is added, with its written form; its operands are resolved once every name
is known. -/
structure Pending where
  site : Site
  type : IntType
  args : List String
deriving Repr, Inhabited

/-- Adds an instruction without its operands. -/
def instr (funcs : List (String × FuncId)) (blockName : String) (b : BlockId) (scope : Scope)
    (d : Document.Instr) : Decoder (Scope × Pending) := do
  let op ← orRefuse (Opcode.ofText? d.op) (.inBlock blockName (.unknownOpcode d.op))
  let type ← orRefuse (IntType.ofText? d.type) (.inBlock blockName (.invalidType d.type))
  let site : Site := ⟨b, ((← get).block b).instrs.size⟩
  let result ← build (Program.emit b op d.result type [] none none)
  let scope ← match result with
    | none => pure scope
    | some v => describe scope d.result d.lower d.upper v
  if d.callee ≠ "" then
    let callee ← orRefuse (funcs.lookup d.callee) (.unknownCallee d.callee)
    modify (Program.modifyInstr site fun i => { i with callee := some callee })
  return (scope, ⟨site, if result.isSome then type else .void, d.args⟩)

/-- Adds the instructions of a block. -/
def instrs (funcs : List (String × FuncId)) (scope : Scope) (d : Document.Block) :
    Decoder (Scope × List Pending) := do
  let b ← known scope.blocks d.name
  d.instrs.foldlM (fun (scope, pending) i => do
    let (scope, one) ← instr funcs d.name b scope i
    return (scope, pending ++ [one])) (scope, [])

/-- Resolves the operands of an instruction. -/
def resolve (scope : Scope) (pending : Pending) : Decoder Unit := do
  let args ← pending.args.mapM fun arg => operand scope arg pending.type
  modify (Program.modifyInstr pending.site fun i => { i with args := args.map some })

/-- Decodes a terminator. The first of its forms that is given counts. -/
def terminator (scope : Scope) (d : Document.Term) : Decoder Terminator := do
  if d.jump ≠ "" then return .jump (← scope.block d.jump)
  if let some test := d.test then
    match test with
    | [xs, name, ys] =>
      let c ← orRefuse (Comparison.ofText? name) (.unknownPredicate name)
      let (x, y) ← comparands scope xs ys
      let yes ← scope.block d.yes
      let no ← scope.block d.no
      return .test (.known c) (some x) (some y) yes no
    | _ => throw .malformedTest
  if d.switch ≠ "" then
    let on ← operand scope d.switch .void
    let otherwise ← scope.block d.otherwise
    let cases ← d.cases.mapM fun c => do
      let n ← orRefuse (Text.Integer.literal? c.value) (.invalidCase c.value)
      return (n, ← scope.block c.target)
    return .switch (some on) cases otherwise
  if let some targets := d.branch then return .branch (← targets.mapM scope.block)
  if let some results := d.ret then
    let values ← results.mapM fun s => operand scope s .void
    return .ret (values.map some)
  throw .missingTerminator

/-- Decodes the terminator of a block. -/
def blockTerm (scope : Scope) (d : Document.Block) : Decoder Unit := do
  let b ← known scope.blocks d.name
  let t ← tryCatch (terminator scope d.term) fun e => throw (e.locate (.inBlock d.name))
  attempt (Program.setTerminator b t)

/-- Decodes the body of a function: parameters, blocks, instructions, then operands and terminators,
which may refer to everything before. -/
def body (funcs : List (String × FuncId)) (f : FuncId) (d : Document.Func) : Decoder Unit := do
  modify (Program.setExternal f d.external)
  let scope ← d.params.foldlM param ⟨f, [], []⟩
  let scope ← d.blocks.foldlM block scope
  let (scope, pending) ← d.blocks.foldlM (fun (scope, pending) b => do
    let (scope, more) ← instrs funcs scope b
    return (scope, pending ++ more)) (scope, ([] : List Pending))
  pending.forM (resolve scope)
  d.blocks.forM (blockTerm scope)

/-- Adds the functions of a module with their names, so that calls may refer to functions that
come later. -/
def declare (d : List Document.Func) : Decoder (List (String × FuncId)) :=
  d.foldlM (fun funcs fn => do
    if (funcs.lookup fn.name).isSome then throw (.functionTwice fn.name)
    return (fn.name, ← build (Program.addFunction 0 fn.name)) :: funcs) []

/-- Decodes the functions of a module. -/
def functions (d : List Document.Func) : Decoder Unit := do
  let funcs ← declare d
  d.forM fun fn => do
    let f ← known funcs fn.name
    tryCatch (body funcs f fn) fun e => throw (e.locate (.inFunction fn.name))

/-- Refuses a program with the first function that does not pass the check. -/
def checked (p : Program) : Except DecodeError Program :=
  match (p.moduleAt 0).functions.toList.findSome? p.check with
  | some report => .error (.refused report)
  | none => .ok p

end Decode

/-- The program that a written module denotes. -/
def decode (d : List Document.Func) : Except DecodeError Program := do
  let (_, p) ← (Decode.functions d).run Program.start
  Decode.checked p

end ValueRange
