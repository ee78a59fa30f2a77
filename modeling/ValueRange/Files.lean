/-! Paths, and what is found at them. -/

namespace ValueRange

namespace Path

/-- The parts of a path between slashes. -/
def components (p : String) : List String := (p.toList.splitOn '/').map String.ofList

/-- Adds a component to those of a path, given from the last one. -/
def push (rooted : Bool) (stack : List String) (c : String) : List String :=
  if c = "" ∨ c = "." then stack
  else if c = ".." then
    match stack with
    | [] => if rooted then [] else [".."]
    | top :: below => if top = ".." then ".." :: stack else below
  else c :: stack

/-- The shortest path that means the same, if no component is a link. -/
def clean (p : String) : String :=
  let rooted := p.toList.head? = some '/'
  let stack := (components p).foldl (push rooted) []
  let body := "/".intercalate stack.reverse
  if rooted then "/" ++ body else if body = "" then "." else body

/-- All but the last component of a path. -/
def parent (p : String) : String := clean ("/".intercalate (components p).dropLast ++
  if p.toList.contains '/' then "/" else "")

/-- A path below a directory. -/
def join (dir name : String) : String := clean (dir ++ "/" ++ name)

/-- A directory and those above it, the nearest first, for at most so many steps. -/
def ancestorsWithin : (steps : Nat) → String → List String
  | 0, _ => []
  | steps + 1, dir =>
    dir :: if parent dir = dir then [] else ancestorsWithin steps (parent dir)

/-- A directory and those above it, the nearest first. Each is shorter than the one before, except
that the last one may be as long. -/
def ancestors (dir : String) : List String := ancestorsWithin (dir.length + 2) dir

end Path

/-- What is found at a path: a file with its text, a directory, nothing, or a file where a directory
should be. -/
inductive Entry where
  | file (text : String)
  | directory
  | missing
  | blocked
deriving DecidableEq, Repr, Inhabited

/-- A tree of files, as the texts of files and the empty directories by their paths. -/
abbrev FileTree := List (String × Option String)

namespace FileTree

/-- What is found below the root of a tree. -/
def entryAt (t : FileTree) (at_ : List String) : Entry :=
  let path := "/".intercalate at_
  match t.lookup path with
  | some (some text) => .file text
  | some none => .directory
  | none =>
    if at_.isEmpty || t.any fun e => (path ++ "/").isPrefixOf e.1 then .directory else .missing

/-- Follows the components of a path from a place in a tree. -/
def follow (t : FileTree) (at_ : List String) : List String → Entry
  | [] => t.entryAt at_
  | c :: cs =>
    match t.entryAt at_ with
    | .directory =>
      if c = "" ∨ c = "." then follow t at_ cs
      else if c = ".." then (if at_.isEmpty then .missing else follow t at_.dropLast cs)
      else follow t (at_ ++ [c]) cs
    | .file _ => .blocked
    | other => other

/-- What a path leads to in a tree. Paths from the root of the system lead nowhere. -/
def find (t : FileTree) (path : String) : Entry :=
  if path = "" ∨ path.toList.head? = some '/' then .missing else follow t [] (Path.components path)

end FileTree

end ValueRange
