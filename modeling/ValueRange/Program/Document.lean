import ValueRange.Yaml.Node

/-! The written form of a module as plain records of texts, read off a YAML node. A field that is
absent or null has the empty text or no list; null items of a list are dropped. -/

namespace ValueRange.Document

/-- A parameter. -/
structure Param where
  name : String
  type : String
  lower : Option String
  upper : Option String
deriving DecidableEq, Repr, Inhabited

/-- An instruction. -/
structure Instr where
  result : String
  op : String
  type : String
  args : List String
  callee : String
  lower : Option String
  upper : Option String
deriving DecidableEq, Repr, Inhabited

/-- One arm of a switch. -/
structure Case where
  value : String
  target : String
deriving DecidableEq, Repr, Inhabited

/-- A terminator. Which of its fields are given says what it is. -/
structure Term where
  jump : String
  test : Option (List String)
  yes : String
  no : String
  switch : String
  cases : List Case
  otherwise : String
  branch : Option (List String)
  ret : Option (List String)
deriving DecidableEq, Repr, Inhabited

/-- A block. -/
structure Block where
  name : String
  instrs : List Instr
  term : Term
deriving DecidableEq, Repr, Inhabited

/-- A function. -/
structure Func where
  name : String
  external : Bool
  params : List Param
  blocks : List Block
deriving DecidableEq, Repr, Inhabited

/-- The fields of a node that stands for a record with the given keys. A null node has none, and so
has a null key; other nodes, unknown keys and repeated keys do not fit. -/
def fields? (keys : List String) : Yaml.Node → Option (List (String × Yaml.Node))
  | .map entries =>
    if Yaml.Node.distinctKeys entries then
      (entries.filter fun e => !e.1.isNull).mapM fun e =>
        match e.1 with
        | .scalar key _ => if key ∈ keys then some (key, e.2) else none
        | _ => none
    else none
  | n => if n.isNull then some [] else none

/-- The field with a key, unless it is absent or null. -/
def field? (fields : List (String × Yaml.Node)) (key : String) : Option Yaml.Node :=
  match fields.lookup key with
  | some n => if n.isNull then none else some n
  | none => none

/-- The text of a scalar. -/
def scalar? : Yaml.Node → Option String
  | .scalar text _ => some text
  | _ => none

/-- An optional text. -/
def optionalText? (fields : List (String × Yaml.Node)) (key : String) : Option (Option String) :=
  match field? fields key with
  | none => some none
  | some n => (scalar? n).map some

/-- A text, empty if the field is absent. -/
def text? (fields : List (String × Yaml.Node)) (key : String) : Option String :=
  (optionalText? fields key).map (·.getD "")

/-- An optional list, each item of which is read by `item`. -/
def optionalList? {α : Type} (fields : List (String × Yaml.Node)) (key : String)
    (item : Yaml.Node → Option α) : Option (Option (List α)) :=
  match field? fields key with
  | none => some none
  | some (.seq items) => ((items.filter fun n => !n.isNull).mapM item).map some
  | some _ => none

/-- A list, empty if the field is absent. -/
def list? {α : Type} (fields : List (String × Yaml.Node)) (key : String)
    (item : Yaml.Node → Option α) : Option (List α) :=
  (optionalList? fields key item).map (·.getD [])

/-- A truth value, false if the field is absent. -/
def flag? (fields : List (String × Yaml.Node)) (key : String) : Option Bool :=
  match field? fields key with
  | none => some false
  | some n => n.truth?

/-- Reads a parameter. -/
def Param.ofNode? (n : Yaml.Node) : Option Param := do
  let fs ← fields? ["name", "type", "min", "max"] n
  return ⟨← text? fs "name", ← text? fs "type", ← optionalText? fs "min", ← optionalText? fs "max"⟩

/-- Reads an instruction. -/
def Instr.ofNode? (n : Yaml.Node) : Option Instr := do
  let fs ← fields? ["result", "op", "type", "args", "callee", "min", "max"] n
  return ⟨← text? fs "result", ← text? fs "op", ← text? fs "type", ← list? fs "args" scalar?,
    ← text? fs "callee", ← optionalText? fs "min", ← optionalText? fs "max"⟩

/-- Reads one arm of a switch. -/
def Case.ofNode? (n : Yaml.Node) : Option Case := do
  let fs ← fields? ["value", "target"] n
  return ⟨← text? fs "value", ← text? fs "target"⟩

/-- Reads a terminator. -/
def Term.ofNode? (n : Yaml.Node) : Option Term := do
  let fs ← fields?
    ["jump", "if", "then", "else", "switch", "cases", "default", "branch", "return"] n
  return ⟨← text? fs "jump", ← optionalList? fs "if" scalar?, ← text? fs "then", ← text? fs "else",
    ← text? fs "switch", ← list? fs "cases" Case.ofNode?, ← text? fs "default",
    ← optionalList? fs "branch" scalar?, ← optionalList? fs "return" scalar?⟩

/-- Reads a block. -/
def Block.ofNode? (n : Yaml.Node) : Option Block := do
  let fs ← fields? ["name", "instrs", "term"] n
  let term ← Term.ofNode? ((fs.lookup "term").getD .null)
  return ⟨← text? fs "name", ← list? fs "instrs" Instr.ofNode?, term⟩

/-- Reads a function. -/
def Func.ofNode? (n : Yaml.Node) : Option Func := do
  let fs ← fields? ["name", "external", "params", "blocks"] n
  return ⟨← text? fs "name", ← flag? fs "external", ← list? fs "params" Param.ofNode?,
    ← list? fs "blocks" Block.ofNode?⟩

/-- Reads the functions of a module. -/
def ofNode? (n : Yaml.Node) : Option (List Func) := do
  let fs ← fields? ["functions"] n
  list? fs "functions" Func.ofNode?

end ValueRange.Document
