import ValueRange.Settings
import ValueRange.Toml.Reader

/-! What a TOML document says about settings. -/

namespace ValueRange

/-- The types of settings. -/
inductive SettingType where
  | text
  | integer
  | boolean
deriving DecidableEq, Repr, Inhabited

/-- Whether a value has a type. -/
def SettingType.admits : SettingType → Toml.Value → Bool
  | text, .text _ => true
  | integer, .integer _ => true
  | boolean, .boolean _ => true
  | _, _ => false

/-- The text of a value. -/
def Toml.Value.text? : Toml.Value → Option String
  | .text s => some s
  | _ => none

/-- The integer of a value. -/
def Toml.Value.integer? : Toml.Value → Option Int
  | .integer n => some n
  | _ => none

/-- The truth value of a value. -/
def Toml.Value.boolean? : Toml.Value → Option Bool
  | .boolean b => some b
  | _ => none

/-- The table of a value. -/
def Toml.Value.table? : Toml.Value → Option Toml.Table
  | .table t => some t
  | _ => none

namespace Layer

/-- The keys of each table with their types. -/
def schema : List (String × List (String × SettingType)) :=
  [("analysis", [("narrowing", .text), ("bit_width", .integer), ("interprocedural", .boolean),
      ("workers", .integer)]),
   ("output", [("color", .text), ("trace", .boolean), ("format", .text)])]

/-- A character without regard to case, of those that may stand for a letter of a key. -/
def foldChar (c : Char) : Char :=
  if c.toNat = 0x17F then 's' else if c.toNat = 0x212A then 'k' else c.toLower

/-- A key without regard to case. -/
def foldKey (k : String) : String := k.map foldChar

/-- Whether the entries of a table have the types of their keys. Unknown keys have any. -/
def sectionOk (types : List (String × SettingType)) (t : Toml.Table) : Bool :=
  t.all fun (k, v) =>
    match types.lookup (foldKey k) with
    | some type => type.admits v
    | none => true

/-- Whether the values of a document have the types of their keys. Case does not count here. -/
def wellTyped (root : Toml.Table) : Bool :=
  root.all fun (k, v) =>
    match schema.lookup (foldKey k) with
    | none => true
    | some types =>
      match v with
      | .table t => sectionOk types t
      | _ => false

/-- The value of a key of a table of a document. Only exact spellings count. -/
def find? (root : Toml.Table) (name k : String) : Option Toml.Value :=
  ((root.lookup name).bind Toml.Value.table?).bind (·.lookup k)

/-- What a document says, if its values have the right types. -/
def ofTable? (root : Toml.Table) : Option Layer :=
  let find {α : Type} (name k : String) (part : Toml.Value → Option α) (zero : α) : α :=
    ((find? root name k).bind part).getD zero
  if !wellTyped root then none
  else some {
    settings :=
      { narrowing := find "analysis" "narrowing" Toml.Value.text? ""
        bitWidth := find "analysis" "bit_width" Toml.Value.integer? 0
        interprocedural := find "analysis" "interprocedural" Toml.Value.boolean? false
        workers := find "analysis" "workers" Toml.Value.integer? 0
        color := find "output" "color" Toml.Value.text? ""
        trace := find "output" "trace" Toml.Value.boolean? false
        format := find "output" "format" Toml.Value.text? "" }
    isDefined := fun path =>
      match path with
      | [name, k] => (find? root name k).isSome
      | _ => false }

/-- What a text says. -/
def ofText? (text : String) : Option Layer := (Toml.Table.ofText? text).bind ofTable?

end Layer

end ValueRange
