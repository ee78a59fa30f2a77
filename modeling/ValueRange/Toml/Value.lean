/-! TOML values, and the tables that a document fills line by line. A key is defined once; a table
that was only implied by a longer key may still be opened by its own header, and what holds an array
may be replaced. -/

namespace ValueRange.Toml

/-- A value. Numbers with a fraction and moments in time keep their text. `tables` is an array that
table headers fill. -/
inductive Value where
  | text (s : String)
  | integer (n : Int)
  | float (s : String)
  | boolean (b : Bool)
  | moment (s : String)
  | array (items : List Value)
  | table (entries : List (String × Value))
  | tables (list : List (List (String × Value)))
deriving Repr, Inhabited

/-- The entries of a table in order. -/
abbrev Table := List (String × Value)

/-- A path of keys. -/
abbrev Key := List String

namespace Table

/-- Sets an entry, in its old place if it has one. -/
def put (t : Table) (k : String) (v : Value) : Table :=
  if (t.lookup k).isSome then t.map fun e => if e.1 = k then (k, v) else e else t ++ [(k, v)]

/-- The table at a path. An array of tables stands for its last one. -/
def at? (t : Table) : Key → Option Table
  | [] => some t
  | k :: ks =>
    match t.lookup k with
    | some (.table u) => at? u ks
    | some (.tables list) =>
      match list.getLast? with
      | some u => at? u ks
      | none => none
    | _ => none

/-- Sets an entry of the table at a path. -/
def putAt (t : Table) (k : String) (v : Value) : Key → Table
  | [] => t.put k v
  | key :: ks =>
    match t.lookup key with
    | some (.table u) => t.put key (.table (putAt u k v ks))
    | some (.tables list) =>
      match list.getLast? with
      | some u => t.put key (.tables (list.dropLast ++ [putAt u k v ks]))
      | none => t
    | _ => t

end Table

/-- A document while it is read: its tables, the paths of tables that are only implied so far, and
the paths that hold arrays. -/
structure Draft where
  root : Table
  implied : List Key
  arrays : List Key
deriving Repr, Inhabited

namespace Draft

/-- The draft of an empty document. -/
def empty : Draft := ⟨[], [], []⟩

/-- Marks a table as implied. -/
def imply (d : Draft) (key : Key) : Draft :=
  if d.implied.contains key then d else { d with implied := key :: d.implied }

/-- Takes back that a table is only implied. -/
def settle (d : Draft) (key : Key) : Draft := { d with implied := d.implied.filter (· != key) }

/-- Records whether a path holds an array. The empty key stands for the table itself. -/
def mark (d : Draft) (context : Key) (k : String) (isArray : Bool) : Draft :=
  let key := if k = "" then context else context ++ [k]
  let others := d.arrays.filter (· != key)
  { d with arrays := if isArray then key :: others else others }

/-- Defines a key of the table at a path. A second definition fails, unless the first was an array,
which is replaced, or an implied table, which is kept. -/
def define? (d : Draft) (context : Key) (k : String) (v : Value) : Option Draft :=
  let key := context ++ [k]
  match d.root.at? context with
  | none => none
  | some t =>
    if (t.lookup k).isNone then some { d with root := d.root.putAt k v context }
    else if d.arrays.contains key then
      some { d.settle key with root := d.root.putAt k v context }
    else if d.implied.contains key then some (d.settle key)
    else none

/-- Makes sure that there are tables along a path below `done`, implied ones if need be. -/
def ensure? (d : Draft) (done : Key) : Key → Option Draft
  | [] => some d
  | k :: ks =>
    match d.root.at? done with
    | none => none
    | some t =>
      let next := done ++ [k]
      let d := if (t.lookup k).isSome then d
        else { d.imply next with root := d.root.putAt k (.table []) done }
      match d.root.at? next with
      | none => none
      | some _ => ensure? d next ks

/-- Opens the table at a path. -/
def openTable? (d : Draft) (key : Key) : Option Draft := do
  let d ← d.ensure? [] key.dropLast
  d.define? key.dropLast (key.getLastD "") (.table [])

/-- Opens one more table of the array of tables at a path. -/
def openElement? (d : Draft) (key : Key) : Option Draft := do
  let context := key.dropLast
  let k := key.getLastD ""
  let d ← d.ensure? [] context
  let t ← d.root.at? context
  match t.lookup k with
  | none => return { d with root := d.root.putAt k (.tables [[]]) context }
  | some (.tables list) => return { d with root := d.root.putAt k (.tables (list ++ [[]])) context }
  | some _ => none

/-- Opens the tables that the parts of a dotted key imply below a path. -/
def openDotted? (d : Draft) (context : Key) : Key → Option Draft
  | [] => some d
  | k :: ks => do
    let next := context ++ [k]
    let d ← (d.imply next).openTable? next
    openDotted? d next ks

end Draft

end ValueRange.Toml
