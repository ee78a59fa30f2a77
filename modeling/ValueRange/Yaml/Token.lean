import ValueRange.Yaml.Scalar

/-! The tokens of a YAML text. Blocks are delimited by the indentation of their lines: a line that
is indented further opens a block and one that is indented less closes those above it. The key of a
mapping is recognised by the colon after it, so that its mark is put before tokens that are already
there. Anchors, tags, directives and block scalars are not read. -/

namespace ValueRange.Yaml

/-- A token. -/
inductive Token where
  | documentStart
  | documentEnd
  | blockSeqStart
  | blockMapStart
  | blockEnd
  | flowSeqStart
  | flowSeqEnd
  | flowMapStart
  | flowMapEnd
  | blockEntry
  | flowEntry
  | key
  | value
  | scalar (text : String) (plain : Bool)
  | streamEnd
deriving DecidableEq, Repr, Inhabited

/-- A place at which a key may start without a mark. It is required where nothing else can stand. -/
structure KeyPlace where
  required : Bool
  token : Nat
  line : Nat
  column : Nat
  offset : Nat
deriving Repr, Inhabited

/-- The state of reading tokens. `indent` is the column of the innermost block and `outer` holds
those of the blocks around it; `key` is where a key may have started in the innermost collection,
and `outerKeys` has an entry for each flow collection around it. -/
structure Scanner where
  rest : List Char
  line : Nat
  column : Nat
  offset : Nat
  indent : Int
  outer : List Int
  keyAllowed : Bool
  key : Option KeyPlace
  outerKeys : List (Option KeyPlace)
  tokens : Array Token
deriving Repr, Inhabited

namespace Scanner

/-- The state at the start of a text. -/
def start (cs : List Char) : Scanner := ⟨cs, 0, 0, 0, -1, [], true, none, [], #[]⟩

variable (s : Scanner)

/-- Whether a flow collection is open. -/
def inFlow : Bool := !s.outerKeys.isEmpty

/-- Passes over one character. -/
def skip (s : Scanner) : Scanner :=
  match s.rest with
  | [] => s
  | c :: rest =>
    if c == '\n' then { s with rest, line := s.line + 1, column := 0, offset := s.offset + 1 }
    else { s with rest, column := s.column + 1, offset := s.offset + 1 }

/-- Passes over some characters. -/
def skipMany : Nat → Scanner → Scanner
  | 0, s => s
  | n + 1, s => skipMany n s.skip

/-- Passes over characters until `rest` is left. -/
def skipTo (rest : List Char) (s : Scanner) : Scanner :=
  s.skipMany (s.rest.length - rest.length)

/-- Adds a token. -/
def push (t : Token) : Scanner := { s with tokens := s.tokens.push t }

/-- Forgets the place of a possible key, unless a key is required there. -/
def dropKey : Option Scanner :=
  match s.key with
  | some k => if k.required then none else some { s with key := none }
  | none => some s

/-- Remembers that a key may start here. -/
def saveKey : Option Scanner :=
  if s.keyAllowed then do
    let required := !s.inFlow && s.indent == (s.column : Int)
    let s ← s.dropKey
    return { s with key := some ⟨required, s.tokens.size, s.line, s.column, s.offset⟩ }
  else some s

/-- The place of a key that the colon here belongs to: on the same line and not too far away. The
place is `none` if there is no such key, and reading fails if it is required. -/
def validKey : Option (Option KeyPlace) :=
  match s.key with
  | none => some none
  | some k =>
    if k.line < s.line || k.offset + 1024 < s.offset then
      if k.required then none else some none
    else some (some k)

/-- Closes the blocks that are indented further than `column`. -/
def closeBlocks (column : Int) (s : Scanner) : Scanner :=
  if s.inFlow then s
  else
    let (closed, kept) := (s.indent :: s.outer).span (column < ·)
    match kept with
    | indent :: outer =>
      { s with indent, outer, tokens := s.tokens ++ List.replicate closed.length Token.blockEnd }
    | [] => s

/-- Opens a block at `column`, if it is indented further than the current one. Its mark comes at
place `token`. -/
def openBlock (column : Nat) (token : Nat) (mark : Token) (s : Scanner) : Scanner :=
  if s.inFlow || decide ((column : Int) ≤ s.indent) then s
  else { s with
    indent := column
    outer := s.indent :: s.outer
    tokens := s.tokens.insertIdxIfInBounds token mark }

/-- Passes over blanks, comments and line breaks. A tab is a blank only where no key may start, and
a line break outside of flow collections allows a key. -/
def skipSpace : (steps : Nat) → Scanner → Scanner
  | 0, s => s
  | steps + 1, s =>
    match s.rest with
    | ' ' :: _ => skipSpace steps s.skip
    | '\t' :: _ => if s.inFlow || !s.keyAllowed then skipSpace steps s.skip else s
    | '\n' :: _ =>
      let s := s.skip
      skipSpace steps (if s.inFlow then s else { s with keyAllowed := true })
    | '#' :: rest => skipSpace steps (s.skipTo (rest.dropWhile (· != '\n')))
    | _ => s

/-- Reads the opening of a flow collection. -/
def openFlow (mark : Token) : Option Scanner := do
  let s ← s.saveKey
  let s := (s.push mark).skip
  return { s with outerKeys := s.key :: s.outerKeys, key := none, keyAllowed := true }

/-- Reads the end of a flow collection. -/
def closeFlow (mark : Token) : Option Scanner := do
  let s ← s.dropKey
  let s := match s.outerKeys with
    | key :: outerKeys => { s with key, outerKeys }
    | [] => s
  return { (s.push mark).skip with keyAllowed := false }

/-- Reads the comma of a flow collection. -/
def flowEntry : Option Scanner := do
  let s ← s.dropKey
  return { (s.push .flowEntry).skip with keyAllowed := true }

/-- Reads the dash of a block sequence. -/
def blockEntry : Option Scanner := do
  if !s.inFlow && !s.keyAllowed then failure
  let s ← (s.openBlock s.column s.tokens.size .blockSeqStart).dropKey
  return { (s.push .blockEntry).skip with keyAllowed := true }

/-- Reads the mark of a key. -/
def keyMark : Option Scanner := do
  if !s.inFlow && !s.keyAllowed then failure
  let s ← (s.openBlock s.column s.tokens.size .blockMapStart).dropKey
  return { (s.push .key).skip with keyAllowed := !s.inFlow }

/-- Reads the colon before a value. If a key may have started before, its mark is put there. -/
def valueMark : Option Scanner := do
  match ← s.validKey with
  | some k =>
    let s := { s with tokens := s.tokens.insertIdxIfInBounds k.token .key, key := none }
    let s := s.openBlock k.column k.token .blockMapStart
    return { (s.push .value).skip with keyAllowed := false }
  | none =>
    if !s.inFlow && !s.keyAllowed then failure
    let s := s.openBlock s.column s.tokens.size .blockMapStart
    return { (s.push .value).skip with keyAllowed := !s.inFlow }

/-- Reads a scalar in quotes. -/
def quotedScalar (quote : Char) : Option Scanner := do
  let s ← s.saveKey
  let s := { s with keyAllowed := false }.skip
  let (text, rest) ← if quote == '\'' then Scalar.single s.column [] Scalar.Gap.none s.rest
    else Scalar.double (s.rest.length + 1) s.column [] Scalar.Gap.none s.rest
  return (s.skipTo rest).push (.scalar (String.ofList text.reverse) false)

/-- Reads a plain scalar. -/
def plainScalar : Option Scanner := do
  let s ← s.saveKey
  let (text, rest, broken) ←
    Scalar.plain s.inFlow (s.indent + 1) s.column [] Scalar.Gap.none s.rest
  let s := (s.skipTo rest).push (.scalar (String.ofList text.reverse) true)
  return { s with keyAllowed := broken }

/-- Reads a mark between documents. -/
def documentMark (mark : Token) : Option Scanner := do
  let s ← (s.closeBlocks (-1)).dropKey
  return { (s.push mark).skipMany 3 with keyAllowed := false }

/-- The characters that start no plain scalar. -/
def indicators : List Char :=
  ['-', '?', ':', ',', '[', ']', '\x7b', '\x7d', '#', '&', '*', '!', '|', '>', '\'', '"', '%', '@',
   Char.ofNat 0x60]

/-- Whether a plain scalar may start with a character before the rest of the text. -/
def startsPlain (inFlow : Bool) (c : Char) (rest : List Char) : Bool :=
  !indicators.contains c || (c == '-' && !(rest.head?.any Scalar.isBlank)) ||
    (!inFlow && (c == '?' || c == ':') && !Scalar.atBoundary rest)

/-- Reads the next token, with the ends of blocks before it. -/
def next : Option Scanner :=
  let s := s.skipSpace (s.rest.length + 1)
  let s := s.closeBlocks s.column
  match s.rest with
  | [] => do
    let s ← (s.closeBlocks (-1)).dropKey
    return s.push .streamEnd
  | c :: rest =>
    let boundary := Scalar.atBoundary rest
    if s.column == 0 && Scalar.atDocumentMark s.rest then
      s.documentMark (if c == '-' then .documentStart else .documentEnd)
    else if s.column == 0 && c == '%' then none
    else if c == '[' then s.openFlow .flowSeqStart
    else if c == '\x7b' then s.openFlow .flowMapStart
    else if c == ']' then s.closeFlow .flowSeqEnd
    else if c == '\x7d' then s.closeFlow .flowMapEnd
    else if c == ',' then s.flowEntry
    else if c == '-' && boundary then s.blockEntry
    else if c == '?' && (s.inFlow || boundary) then s.keyMark
    else if c == ':' && (s.inFlow || boundary) then s.valueMark
    else if c == '\'' || c == '"' then s.quotedScalar c
    else if !Scalar.isBlank c && startsPlain s.inFlow c rest then s.plainScalar
    else none

/-- Reads the tokens up to the end of the text or to what cannot be read; the flag says which. -/
def all : (steps : Nat) → Scanner → Array Token × Bool
  | 0, s => (s.tokens, false)
  | steps + 1, s =>
    match s.next with
    | none => (s.tokens, false)
    | some s' => if s'.tokens.back? == some .streamEnd then (s'.tokens, true) else all steps s'

end Scanner

/-- Line breaks as a single character each, without a mark of byte order at the start. -/
def normalizeBreaks : List Char → List Char
  | '\r' :: '\n' :: rest => '\n' :: normalizeBreaks rest
  | c :: rest =>
    (if c == '\r' || c.toNat == 0x85 then '\n' else c) :: normalizeBreaks rest
  | [] => []

/-- Whether a character may stand in a text. -/
def isAllowed (c : Char) : Bool :=
  let n := c.toNat
  n == 0x09 || n == 0x0a || (0x20 ≤ n && n ≤ 0x7e) || (0xa0 ≤ n && n ≤ 0xfffd) || 0x10000 ≤ n

/-- The tokens of a text, and whether all of it could be read. -/
def Token.scan (text : String) : Array Token × Bool :=
  let cs := normalizeBreaks text.toList
  let cs := if cs.head? == some (Char.ofNat 0xfeff) then cs.tail else cs
  if cs.all isAllowed then Scanner.all (cs.length + 2) (Scanner.start cs) else (#[], false)

end ValueRange.Yaml
