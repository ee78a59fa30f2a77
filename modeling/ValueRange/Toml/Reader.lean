import ValueRange.Toml.Quotation

/-! Reading TOML documents. -/

namespace ValueRange.Toml

/-- The state of reading: what is left of the text, and the document so far. -/
structure Reading where
  rest : List Char
  draft : Draft
deriving Repr, Inhabited

/-- A step of reading, which may fail. -/
abbrev ReadM := StateT Reading Option

/-- Whether a character is blank. -/
def isBlank (c : Char) : Bool := c == ' ' || c == '\t'

/-- Whether a character may occur in a key without quotes. -/
def isBareKeyChar (c : Char) : Bool :=
  ('a' ≤ c && c ≤ 'z') || ('A' ≤ c && c ≤ 'Z') || isDigit c || c == '_' || c == '-'

/-- Reads one part of a key. -/
def keyPart? (cs : List Char) : Option (String × List Char) :=
  match cs.dropWhile isBlank with
  | '"' :: rest => quotation?.quotationOnLine? ('"' :: rest)
  | '\'' :: rest => quotation?.quotationOnLine? ('\'' :: rest)
  | cs =>
    let (part, rest) := cs.span isBareKeyChar
    if part.isEmpty then none else some (String.ofList part, rest)

/-- Reads the parts of a key up to a character that ends it. Each part takes at least one
character. -/
def keyPath? (stop : Char) : (size : Nat) → List Char → Option (Key × List Char)
  | 0, _ => none
  | size + 1, cs => do
    let (part, rest) ← keyPart? cs
    match rest.dropWhile isBlank with
    | c :: rest =>
      if c = stop then some ([part], rest)
      else if c = '.' then
        let (parts, rest) ← keyPath? stop size rest
        some (part :: parts, rest)
      else none
    | [] => none

/-- Skips a comment up to the end of its line. -/
def comment? (cs : List Char) : Option (List Char) :=
  let (text, rest) := cs.span fun c => !isLineEnd c
  if text.any isForbidden then none else some rest

/-- Skips blanks, line ends and comments. -/
def skipSpace? : (size : Nat) → List Char → Option (List Char)
  | 0, cs => some cs
  | size + 1, cs =>
    match cs.dropWhile fun c => isBlank c || isLineEnd c with
    | '#' :: rest =>
      match comment? rest with
      | some rest => skipSpace? size rest
      | none => none
    | rest => some rest

namespace ReadM

/-- What is left of the text. -/
def rest : ReadM (List Char) := return (← get).rest

/-- Goes on with another text. -/
def goOn (cs : List Char) : ReadM Unit := modify fun s => { s with rest := cs }

/-- Reads something from the text. -/
def lexeme (f : List Char → Option (α × List Char)) : ReadM α := do
  match f (← rest) with
  | some (a, cs) =>
    goOn cs
    return a
  | none => failure

/-- Skips something in the text. -/
def skip (f : List Char → Option (List Char)) : ReadM Unit :=
  lexeme fun cs => (f cs).map fun cs => ((), cs)

/-- Skips blanks. -/
def blanks : ReadM Unit := skip fun cs => some (cs.dropWhile isBlank)

/-- Skips blanks, line ends and comments. -/
def space : ReadM Unit := skip fun cs => skipSpace? cs.length cs

/-- Reads a key up to a character that ends it. -/
def key (stop : Char) : ReadM Key := lexeme fun cs => keyPath? stop (cs.length + 1) cs

/-- Changes the document, which may fail. -/
def change (f : Draft → Option Draft) : ReadM Unit := do
  match f (← get).draft with
  | some draft => modify fun s => { s with draft }
  | none => failure

/-- Whether a value is an array. -/
def isArray : Value → Bool
  | .array _ => true
  | _ => false

/-- Defines a key of the table at a path. -/
def define (context : Key) (k : String) (v : Value) : ReadM Unit :=
  change fun d => (d.define? context k v).map fun d => d.mark context k (isArray v)

/-- Reads a value that is no array and no table. -/
def simple : ReadM Value := lexeme fun cs =>
  match cs with
  | 'i' :: 'n' :: 'f' :: rest => some (.float "inf", rest)
  | 'n' :: 'a' :: 'n' :: rest => some (.float "nan", rest)
  | c :: _ =>
    if c = '"' ∨ c = '\'' then (quotation? cs).map fun (s, rest) => (.text s, rest)
    else if isDigit c || c == '-' || c == '+' then number? cs
    else
      let (word, rest) := cs.span Char.isAlpha
      if word = "true".toList then some (.boolean true, rest)
      else if word = "false".toList then some (.boolean false, rest)
      else none
  | [] => none

mutual

/-- Reads the value of a key of the table at a path. -/
def value (context : Key) (k : String) (inArray : Bool) : (size : Nat) → ReadM Value
  | 0 => failure
  | size + 1 => do
    blanks
    match ← rest with
    | '[' :: cs =>
      goOn cs
      change fun d => some (d.mark context k true)
      return .array (← items context k size)
    | '\x7b' :: cs =>
      goOn cs
      let here := context ++ [k]
      change fun d =>
        let d := d.imply here
        if inArray then d.openElement? here else d.openTable? here
      blanks
      match ← rest with
      | '\x7d' :: cs =>
        goOn cs
        return .table []
      | _ => return .table (← entries here size)
    | _ => simple

/-- Reads the items of an array and its end. A comma may follow the last item. -/
def items (context : Key) (k : String) : (size : Nat) → ReadM (List Value)
  | 0 => failure
  | size + 1 => do
    space
    match ← rest with
    | ']' :: cs =>
      goOn cs
      return []
    | _ =>
      let v ← value context k true size
      space
      match ← rest with
      | ',' :: cs =>
        goOn cs
        return v :: (← items context k size)
      | ']' :: cs =>
        goOn cs
        return [v]
      | _ => failure

/-- Reads the entries of a table on one line and its end. No comma may follow the last entry. -/
def entries (context : Key) : (size : Nat) → ReadM Table
  | 0 => failure
  | size + 1 => do
    let path ← key '='
    let inner := context ++ path.dropLast
    change fun d => d.openDotted? context path.dropLast
    let k := path.getLastD ""
    let v ← value inner k false size
    define inner k v
    blanks
    match ← rest with
    | ',' :: cs =>
      goOn cs
      return (k, v) :: (← entries context size)
    | '\x7d' :: cs =>
      goOn cs
      return [(k, v)]
    | _ => failure

end

/-- Reads a table header after its first bracket, and answers the path of the table. -/
def header : ReadM Key := do
  match ← rest with
  | '[' :: cs =>
    goOn cs
    let path ← key ']'
    skip (expect? ']')
    change fun d => (d.openElement? path).map fun d => d.mark path "" false
    return path
  | _ =>
    let path ← key ']'
    change fun d => (d.openTable? path).map fun d => d.mark path "" false
    return path

/-- Reads an entry of the table at a path. -/
def entry (context : Key) (size : Nat) : ReadM Unit := do
  let path ← key '='
  let inner := context ++ path.dropLast
  change fun d => d.openDotted? context path.dropLast
  let k := path.getLastD ""
  let v ← value inner k false size
  define inner k v

/-- Whether nothing but a comment is left on the line. -/
def lineEnd : ReadM Unit := do
  blanks
  match ← rest with
  | [] => return
  | c :: _ => if c = '#' || isLineEnd c then return else failure

/-- Reads the lines of a document below the table at a path. -/
def lines (context : Key) (size : Nat) : (count : Nat) → ReadM Unit
  | 0 => return
  | count + 1 => do
    space
    match ← rest with
    | [] => return
    | '[' :: cs =>
      goOn cs
      let path ← header
      lineEnd
      lines path size count
    | _ =>
      entry context size
      lineEnd
      lines context size count

end ReadM

/-- The root table of a document. A value has at most as many nested parts as characters, and each
of them takes two steps. -/
def Table.ofText? (s : String) : Option Table :=
  let cs := s.toList
  match (ReadM.lines [] (2 * cs.length + 2) (cs.length + 1)).run ⟨cs, .empty⟩ with
  | some (_, r) => some r.draft.root
  | none => none

end ValueRange.Toml
