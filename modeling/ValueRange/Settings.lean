import ValueRange.Files
import ValueRange.Graph.Basic

/-! Settings of the analysis, and the files that give them. Files are looked for in a directory and
all directories above it; for each key the nearest file that defines it decides. What the text of a
file says is left to a decoder. -/

namespace ValueRange

/-- The settings. A width or a number of workers of zero stands for no choice. -/
structure Settings where
  narrowing : String
  bitWidth : Int
  interprocedural : Bool
  workers : Int
  color : String
  trace : Bool
  format : String
deriving DecidableEq, Repr, Inhabited

/-- Why settings are refused. -/
inductive SettingsError where
  | unknownNarrowing (name : String)
  | badWidth (n : Int)
  | badWorkers (n : Int)
  | badColor (name : String)
  | badFormat (name : String)
deriving DecidableEq, Repr, Inhabited

/-- The text of an error. -/
def SettingsError.message : SettingsError → String
  | unknownNarrowing name => Narrowing.unknownMessage name
  | badWidth n => "invalid bit width " ++ toString n
  | badWorkers n => "invalid number of workers " ++ toString n
  | badColor name => "invalid color setting " ++ Text.quoted name
  | badFormat name => "invalid output format " ++ Text.quoted name

namespace Settings

/-- The settings that no file changes. -/
def standard : Settings := ⟨"cousot", 0, true, 0, "auto", false, "text"⟩

/-- The options of the analysis that settings ask for. -/
def options (s : Settings) : Except SettingsError Options :=
  match Narrowing.ofText? s.narrowing with
  | none => .error (.unknownNarrowing s.narrowing)
  | some n => if s.bitWidth < 0 then .error (.badWidth s.bitWidth) else .ok ⟨n, s.bitWidth, false⟩

/-- Checks that every setting has a known value. -/
def check (s : Settings) : Except SettingsError Unit := do
  let _ ← s.options
  if s.workers < 0 then throw (.badWorkers s.workers)
  if (["auto", "always", "never"].contains s.color) = false then throw (.badColor s.color)
  if (["text", "dot", "json"].contains s.format) = false then throw (.badFormat s.format)

end Settings

/-- What one file says: settings, and whether it defines a key, given by its path. A setting means
something only if its key is defined. -/
structure Layer where
  settings : Settings
  isDefined : List String → Bool

namespace Layer

/-- The layer below all files. -/
def standard : Layer := ⟨.standard, fun _ => false⟩

/-- A part of the settings, which is taken from the upper layer if that defines its key. -/
def choose {α : Type} (lower upper : Layer) (path : List String) (part : Settings → α) : α :=
  if upper.isDefined path then part upper.settings else part lower.settings

/-- A layer with what another one defines. -/
def merge (lower upper : Layer) : Layer where
  settings :=
    { narrowing := lower.choose upper ["analysis", "narrowing"] (·.narrowing)
      bitWidth := lower.choose upper ["analysis", "bit_width"] (·.bitWidth)
      interprocedural := lower.choose upper ["analysis", "interprocedural"] (·.interprocedural)
      workers := lower.choose upper ["analysis", "workers"] (·.workers)
      color := lower.choose upper ["output", "color"] (·.color)
      trace := lower.choose upper ["output", "trace"] (·.trace)
      format := lower.choose upper ["output", "format"] (·.format) }
  isDefined := lower.isDefined

end Layer

/-- Why settings cannot be loaded. -/
inductive LoadError where
  | malformed (path : String)
  | isDirectory (path : String)
  | blocked (path : String)
  | invalid (e : SettingsError)
  | fault (f : Fault)
deriving DecidableEq, Repr, Inhabited

/-- The text of an error. -/
def LoadError.message : LoadError → String
  | malformed path => path ++ ": malformed settings"
  | isDirectory path => path ++ ": read " ++ path ++ ": is a directory"
  | blocked path => "open " ++ path ++ ": not a directory"
  | invalid e => e.message
  | fault f => f.message.getD ""

namespace Settings

/-- The name of the files that give settings. -/
def fileName : String := "vrp.conf"

/-- The directories whose files decide about a directory, the nearest first. Without a directory
there are none. -/
def searched (dir : String) : List String := if dir = "" then [] else Path.ancestors dir

/-- Lets an entry change places with the one that is as far from the other end. -/
def swapEnds {α : Type} (a : Array α) (i : Nat) : Array α := a.swapIfInBounds i (a.size - 1 - i)

/-- Reverses an array in its place. -/
def reverseInPlace {α : Type} (a : Array α) : Array α := (List.range (a.size / 2)).foldl swapEnds a

/-- The settings of layers, each of which is merged into those before it. -/
def mergeLayers (layers : Array Layer) : Except Fault Settings :=
  match layers.toList with
  | [] => .error .noLayers
  | first :: rest => .ok (rest.foldl Layer.merge first).settings

section

variable (decode : String → Option Layer) (read : String → Entry)

/-- What the file of a directory says, if there is one. -/
def layerAt (dir : String) : Except LoadError (Option Layer) :=
  let path := Path.join dir fileName
  match read path with
  | .missing => .ok none
  | .directory => .error (.isDirectory path)
  | .blocked => .error (.blocked path)
  | .file text =>
    match decode text with
    | some l => .ok (some l)
    | none => .error (.malformed path)

/-- The layers that apply to a directory. They are found from the directory upwards and put in the
order in which they are merged, the standard one first. -/
def layersFor (dir : String) : Except LoadError (Array Layer) := do
  let found ← (searched dir).mapM (layerAt decode read)
  return reverseInPlace ((found.filterMap id).toArray.push .standard)

/-- The settings that apply to a directory. -/
def load (dir : String) : Except LoadError Settings := do
  let layers ← layersFor decode read dir
  let s ← (mergeLayers layers).mapError .fault
  match s.check with
  | .ok _ => return s
  | .error e => throw (.invalid e)

end

end Settings

end ValueRange
