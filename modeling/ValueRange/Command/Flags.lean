import ValueRange.Settings

/-! The flags of the command line. -/

namespace ValueRange.Command

/-- The flags that are given, with their values. -/
structure Flags where
  config : Option String
  narrowing : Option String
  width : Option Int
  intraprocedural : Option Bool
  workers : Option Int
  format : Option String
  color : Option String
  trace : Option Bool
  smt : Option String
  version : Option Bool
  debugVersion : Option Bool
deriving DecidableEq, Repr, Inhabited

/-- How a flag takes its value: as a text or an integer, which the description calls by a name, or
as a truth value, which may be left out. -/
inductive Setter where
  | text (noun : String) (set : String → Flags → Flags)
  | integer (set : Int → Flags → Flags)
  | boolean (set : Bool → Flags → Flags)

/-- A flag: its name, how it takes its value, and what it is for. -/
structure Flag where
  name : String
  setter : Setter
  purpose : String

/-- The flags in the order of their names. -/
def flags : List Flag :=
  [⟨"color", .text "string" fun v f => { f with color := some v },
    "Colorize ranges: auto, always or never"⟩,
   ⟨"config", .text "string" fun v f => { f with config := some v },
    "Directory to load vrp.conf from (default: directory of the first file)"⟩,
   ⟨"debug.version", .boolean fun v f => { f with debugVersion := some v },
    "Print detailed version information and exit"⟩,
   ⟨"f", .text "string" fun v f => { f with format := some v }, "Output format, text, dot or json"⟩,
   ⟨"intraprocedural", .boolean fun v f => { f with intraprocedural := some v },
    "Analyse every function on its own"⟩,
   ⟨"narrowing", .text "string" fun v f => { f with narrowing := some v },
    "Narrowing operator, cousot or crop"⟩,
   ⟨"smt", .text "func:value" fun v f => { f with smt := some v },
    "Print an SMT-LIB script that is unsat if the computed range of func:value holds"⟩,
   ⟨"trace", .boolean fun v f => { f with trace := some v }, "Log the steps of the solver"⟩,
   ⟨"version", .boolean fun v f => { f with version := some v }, "Print version and exit"⟩,
   ⟨"width", .integer fun v f => { f with width := some v },
    "Bit width of the unbounded sentinels"⟩,
   ⟨"workers", .integer fun v f => { f with workers := some v },
    "Number of functions to solve in parallel"⟩]

/-- The lines that describe a flag. -/
def Flag.description (f : Flag) : String :=
  let noun := match f.setter with
    | .text noun _ => " " ++ noun
    | .integer _ => " int"
    | .boolean _ => ""
  "  -" ++ f.name ++ noun ++ "\n    \t" ++ f.purpose ++ "\n"

/-- How the command is used. -/
def usage : String :=
  "Usage: vrp [flags] file.yaml...\n" ++ String.join (flags.map Flag.description)

/-- Why a command line is refused. -/
inductive FlagError where
  | badSyntax (arg : String)
  | undefined (name : String)
  | noValue (name : String)
  | badBoolean (value name : String)
  | badInteger (value name : String) (cause : Text.Integer.WordError)
deriving DecidableEq, Repr

/-- The text of an error. -/
def FlagError.message : FlagError → String
  | badSyntax arg => "bad flag syntax: " ++ arg
  | undefined name => "flag provided but not defined: -" ++ name
  | noValue name => "flag needs an argument: -" ++ name
  | badBoolean value name =>
    "invalid boolean value " ++ Text.quoted value ++ " for -" ++ name ++ ": parse error"
  | badInteger value name cause =>
    "invalid value " ++ Text.quoted value ++ " for flag -" ++ name ++ ": " ++
      match cause with
      | .malformed => "parse error"
      | .outOfRange => "value out of range"

/-- The truth value that a word stands for. -/
def truth? (s : String) : Option Bool :=
  if ["1", "t", "T", "TRUE", "true", "True"].contains s then some true
  else if ["0", "f", "F", "FALSE", "false", "False"].contains s then some false
  else none

/-- A command line that is understood, asks for help or is refused. -/
inductive Parsed where
  | run (flags : Flags) (files : List String)
  | help
  | refused (e : FlagError)

/-- A flag as it stands on the command line: its name and the value after an equals sign. -/
def splitFlag (s : List Char) : String × Option String :=
  match s with
  | [] => ("", none)
  | c :: cs =>
    let (name, rest) := cs.span (· != '=')
    match rest with
    | _ :: value => (String.ofList (c :: name), some (String.ofList value))
    | [] => (String.ofList (c :: name), none)

/-- What an argument is: a flag, the end of flags, the first file or a flag that is none. -/
inductive Word where
  | flag (name : String) (value : Option String)
  | endOfFlags
  | file
  | bad
deriving DecidableEq, Repr

/-- Tells what an argument is. Flags have one or two dashes. -/
def Word.ofArg (arg : String) : Word :=
  match arg.toList with
  | '-' :: '-' :: [] => .endOfFlags
  | '-' :: '-' :: name => ofName name
  | '-' :: c :: name => ofName (c :: name)
  | _ => .file
where
  /-- Tells what follows the dashes. -/
  ofName (name : List Char) : Word :=
    if name.head? = some '-' ∨ name.head? = some '=' then .bad
    else
      let (name, value) := splitFlag name
      .flag name value

/-- Reads the arguments of a command line after the flags read so far. Flags end at the first
argument that is none. -/
def parseFrom (given : Flags) : List String → Parsed
  | [] => .run given []
  | arg :: rest =>
    match Word.ofArg arg with
    | .file => .run given (arg :: rest)
    | .endOfFlags => .run given rest
    | .bad => .refused (.badSyntax arg)
    | .flag name value =>
      match flags.find? fun f => f.name == name with
      | none => if name = "help" ∨ name = "h" then .help else .refused (.undefined name)
      | some f =>
        match f.setter, value, rest with
        | .boolean set, value, rest =>
          match truth? (value.getD "true") with
          | some b => parseFrom (set b given) rest
          | none => .refused (.badBoolean (value.getD "true") name)
        | .text _ set, some value, rest => parseFrom (set value given) rest
        | .text _ set, none, value :: rest => parseFrom (set value given) rest
        | .integer set, some value, rest =>
          match Text.Integer.word value with
          | .ok n => parseFrom (set n given) rest
          | .error cause => .refused (.badInteger value name cause)
        | .integer set, none, value :: rest =>
          match Text.Integer.word value with
          | .ok n => parseFrom (set n given) rest
          | .error cause => .refused (.badInteger value name cause)
        | _, none, [] => .refused (.noValue name)

/-- Reads a command line. -/
def parse (args : List String) : Parsed := parseFrom default args

/-- The settings with what the flags say about them. -/
def Flags.apply (f : Flags) (s : Settings) : Settings where
  narrowing := f.narrowing.getD s.narrowing
  bitWidth := f.width.getD s.bitWidth
  interprocedural := (f.intraprocedural.map (!·)).getD s.interprocedural
  workers := f.workers.getD s.workers
  color := f.color.getD s.color
  trace := f.trace.getD s.trace
  format := f.format.getD s.format

end ValueRange.Command
