import ValueRange.Command.Flags
import ValueRange.Command.Report
import ValueRange.Program.Decode
import ValueRange.Toml.Settings
import ValueRange.Yaml.Reader

/-! The command: it reads programs from files and prints what the analysis finds. -/

namespace ValueRange.Command

/-- What a run leaves: an exit code, what it prints and what it complains about. -/
structure Outcome where
  status : Nat
  output : String
  errors : String
deriving DecidableEq, Repr, Inhabited

/-- The outcome of a run that stops with a message. -/
def Outcome.fatal (message : String) : Outcome := ⟨1, "", message ++ "\n"⟩

/-- The program in a file, or what is said if there is none. -/
def loadProgram (read : String → Entry) (path : String) : Except String Program :=
  match read path with
  | .missing => .error ("open " ++ path ++ ": no such file or directory")
  | .blocked => .error ("open " ++ path ++ ": not a directory")
  | .directory =>
    .error (path ++ ": decoding module: yaml: input error: read " ++ path ++ ": is a directory")
  | .file text =>
    if Yaml.isVacant text then .error (path ++ ": decoding module: EOF")
    else match Yaml.Node.ofText? text with
      | none => .error (path ++ ": decoding module: yaml: malformed document")
      | some node =>
        match Document.ofNode? node with
        | none => .error (path ++ ": decoding module: yaml: unmarshal errors")
        | some document =>
          match decode document with
          | .ok p => .ok p
          | .error e => .error (path ++ ": " ++ e.message)

/-- Solves a program: all functions together or each on its own. Functions without blocks are not
reported. -/
def solve (p : Program) (o : Options) (together : Bool) : Except AnalysisError Solution := do
  let fs := (p.moduleAt 0).functions.toList.filter fun f => !(p.func f).blocks.isEmpty
  if together then
    let g ← (analyzeModule p 0 o).mapError .fault
    return ⟨p, if fs.isEmpty then [] else [(g, fs)]⟩
  else
    let gs ← analyzeAll false p fs o
    return ⟨p, gs.zip (fs.map fun f => [f])⟩

/-- The trace of a solution. -/
def Solution.trace (s : Solution) : String :=
  String.join (s.graphs.flatMap fun (g, _) => g.log.toList.map (· ++ "\n"))

/-- What a run does for each file: settings and options that are checked, the value to write a
script about, and whether ranges are coloured. -/
structure Job where
  settings : Settings
  options : Options
  smt : String
  colored : Bool
deriving Repr, Inhabited

/-- Processes one file. -/
def Job.runFile (job : Job) (read : String → Entry) (path : String) : Outcome :=
  match loadProgram read path with
  | .error message => .fatal message
  | .ok p =>
    let options := { job.options with tracing := job.settings.trace }
    match solve p options job.settings.interprocedural with
    | .error e => .fatal (path ++ ": " ++ e.message.getD "missing operand")
    | .ok s =>
      if job.smt = "" then ⟨0, s.report job.settings.format job.colored, s.trace⟩
      else match s.script job.smt with
        | .ok text => ⟨0, text, s.trace⟩
        | .error message => ⟨1, "", s.trace ++ path ++ ": " ++ message ++ "\n"⟩

/-- Processes files in order, up to the first that fails. -/
def Job.runFiles (job : Job) (read : String → Entry) : List String → Outcome
  | [] => ⟨0, "", ""⟩
  | path :: paths =>
    let first := job.runFile read path
    if first.status = 0 then
      let rest := job.runFiles read paths
      ⟨rest.status, first.output ++ rest.output, first.errors ++ rest.errors⟩
    else first

/-- The directory whose settings apply: the given one, else that of the first file. -/
def settingsDir (f : Flags) (files : List String) : String :=
  let given := f.config.getD ""
  if given = "" then Path.parent (files.headD "") else given

/-- What the command calls itself. -/
def versionText : String := "vrp (no version)\n"

/-- Runs the command with what it can read, the kind of its terminal and its arguments. -/
def run (read : String → Entry) (term : String) (args : List String) : Outcome :=
  match parse args with
  | .help => ⟨0, "", usage⟩
  | .refused e => ⟨2, "", e.message ++ "\n" ++ usage⟩
  | .run f files =>
    if f.version = some true ∨ f.debugVersion = some true then ⟨0, versionText, ""⟩
    else if files.isEmpty then ⟨2, "", usage⟩
    else
      match Settings.load Layer.ofText? read (settingsDir f files) with
      | .error e => .fatal e.message
      | .ok s =>
        let s := f.apply s
        match s.check, s.options with
        | .error e, _ | _, .error e => .fatal e.message
        | .ok _, .ok o =>
          Job.runFiles ⟨s, o, f.smt.getD "", isColored s.color term⟩ read files

/-- The paths that a run may look at. -/
def paths (args : List String) : List String :=
  match parse args with
  | .run f files =>
    (Settings.searched (settingsDir f files)).map (Path.join · Settings.fileName) ++ files
  | _ => []

end ValueRange.Command
