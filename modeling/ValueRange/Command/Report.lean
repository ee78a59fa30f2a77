import ValueRange.Analysis
import ValueRange.Smt.Script
import ValueRange.Text.Columns
import ValueRange.Text.Json

/-! Reports of an analysis: ranges in columns, graphs in the dot language or in JSON, and scripts
that ask whether a value may leave its range. -/

namespace ValueRange.Command

/-- The solved graphs of a program, each with the functions that it holds. -/
structure Solution where
  program : Program
  graphs : List (Graph × List FuncId)
deriving Repr, Inhabited

/-- The colour of a range: one each for bounded ranges, those with one unbounded side, those with
two, and empty ones. -/
def colorCode (r : Range) : String :=
  if r.isEmpty then "90" else if r.isMax then "1;31" else if r.isBounded then "1;32" else "1;36"

/-- The text of a range, possibly in colour. -/
def rangeText (colored : Bool) (r : Range) : String :=
  if colored then "\x1b[" ++ colorCode r ++ "m" ++ r.text ++ "\x1b[0m" else r.text

/-- Whether ranges are coloured. -/
def isColored (setting term : String) : Bool :=
  setting == "always" || (setting == "auto" && term != "")

namespace Solution

variable (s : Solution)

/-- The functions with their graphs. -/
def functions : List (FuncId × Graph) :=
  s.graphs.flatMap fun (g, fs) => fs.map fun f => (f, g)

/-- The line of a value, with tabs between its cells. -/
def valueLine (colored : Bool) (g : Graph) (v : ValueId) : String :=
  let value := s.program.value v
  "\t" ++ value.name ++ "\t" ++ value.type.text ++ "\t" ++ rangeText colored (g.rangeOf v) ++ "\n"

/-- The lines of a function: a heading, and a line for each value that is no constant. -/
def functionText (colored : Bool) (f : FuncId) (g : Graph) : String :=
  let func := s.program.func f
  let values := func.values.toList.filter fun v => (s.program.value v).const.isNone
  "func " ++ func.name ++ ":\n" ++ String.join (values.map (s.valueLine colored g))

/-- The ranges of all values in columns, with an empty line between functions. -/
def text (colored : Bool) : String :=
  Text.Columns.align ("\n".intercalate (s.functions.map fun (f, g) => s.functionText colored f g))

/-- The names of functions. -/
def names (fs : List FuncId) : List String := fs.map fun f => (s.program.func f).name

/-- The graphs in the dot language. -/
def dot : String :=
  String.join (s.graphs.map fun (g, fs) =>
    "// " ++ ", ".intercalate (s.names fs) ++ "\n" ++ "\n".intercalate g.drawing.dotLines)

/-- A list that is null if it is empty. -/
def listJson (items : List Text.Json) : Text.Json := if items.isEmpty then .null else .array items

/-- A vertex in JSON. -/
def vertexJson (v : Vertex) : Text.Json :=
  .object ([("id", .string v.id), ("label", .string v.label)] ++
    (if v.isOperation then [("op", .boolean true)] else []) ++
    [("scc", .number ((v.component.map Int.ofNat).getD (-1)))])

/-- An edge in JSON. -/
def edgeJson (e : Edge) : Text.Json :=
  .object ([("from", .string e.source), ("to", .string e.target)] ++
    (if e.label = "" then [] else [("label", .string e.label)]) ++
    (if e.isControl then [("control", .boolean true)] else []))

/-- A drawing in JSON. -/
def drawingJson (d : Drawing) : Text.Json :=
  .object [("nodes", listJson (d.vertices.map vertexJson)),
    ("edges", listJson (d.edges.map edgeJson))]

/-- The graphs in JSON. -/
def json : String :=
  Text.Json.render 0 (.array (s.graphs.map fun (g, fs) =>
    .object [("functions", listJson ((s.names fs).map .string)),
      ("graph", drawingJson g.drawing)])) ++ "\n"

/-- The report in a format. -/
def report (format : String) (colored : Bool) : String :=
  if format = "dot" then s.dot else if format = "json" then s.json else s.text colored

/-- Splits the name of a value of a function at its first colon. -/
def splitName? (spec : String) : Option (String × String) :=
  match spec.toList.span (· != ':') with
  | (f, _ :: v) => some (String.ofList f, String.ofList v)
  | _ => none

/-- The assertion that a value lies outside a range, as a list of alternatives. -/
def outside (v : ValueId) (r : Range) : List Smt.Term :=
  (if r.lowerUnbounded then [] else [.apply .less (.name v) (.literal r.lower)]) ++
    (if r.upperUnbounded then [] else [.apply .greater (.name v) (.literal r.upper)])

/-- The script that asks whether a value may leave its range. For code without loops, a solver that
finds it unsatisfiable confirms the range. -/
def script (spec : String) : Except String String := do
  let some (fname, vname) := splitName? spec
    | throw ("invalid value " ++ Text.quoted spec ++ ", want func:value")
  let some f := s.program.lookupFunction 0 fname | throw ("unknown function " ++ Text.quoted fname)
  match s.program.lookup f vname, s.functions.lookup f with
  | some v, some g =>
    let r := g.rangeOf v
    if r.isEmpty then throw (spec ++ " is never computed")
    let alternatives := outside v r
    if alternatives.isEmpty then throw (spec ++ " is unbounded")
    match Smt.script s.program v [.disj alternatives] with
    | .ok script =>
      return "; " ++ spec ++ " in " ++ r.text ++ "\n" ++
        String.join ((script.lines s.program).map (· ++ "\n"))
    | .error fault => throw (fault.message.getD "missing operand")
  | _, _ => throw ("unknown value " ++ Text.quoted vname ++ " in function " ++ fname)

end Solution

end ValueRange.Command
