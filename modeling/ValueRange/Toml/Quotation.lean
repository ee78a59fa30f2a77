import ValueRange.Toml.Number

/-! The strings of TOML: basic ones with escapes, literal ones without, and both over several
lines. -/

namespace ValueRange.Toml

/-- Whether a character may not occur in a text: control characters, except the tab and the ends of
lines, and the mark of a decoding error. -/
def isForbidden (c : Char) : Bool :=
  (c.toNat < 32 && c != '\t' && c != '\n' && c != '\r') || c.toNat == 127 || c.toNat == 0xFFFD

/-- Whether a character ends a line. -/
def isLineEnd (c : Char) : Bool := c == '\n' || c == '\r'

/-- The character that a letter after a backslash stands for. -/
def escapeOf? (c : Char) : Option Char :=
  if c = 'b' then some '\x08'
  else if c = 't' then some '\t'
  else if c = 'n' then some '\n'
  else if c = 'f' then some '\x0c'
  else if c = 'r' then some '\r'
  else if c = '"' then some '"'
  else if c = '\\' then some '\\'
  else none

/-- The character with a hexadecimal number. -/
def scalar? (ds : List Char) : Option Char :=
  match Text.Integer.digits? 16 false 0 (if ds.all isHexDigit then ds else []) with
  | some n => if Nat.isValidChar n then some (Char.ofNat n) else none
  | none => none

/-- Replaces escapes by the characters that they stand for. -/
def unescape? : List Char → Option (List Char)
  | [] => some []
  | '\\' :: 'u' :: a :: b :: c :: d :: rest =>
    match scalar? [a, b, c, d], unescape? rest with
    | some x, some xs => some (x :: xs)
    | _, _ => none
  | '\\' :: 'U' :: a :: b :: c :: d :: e :: f :: g :: h :: rest =>
    match scalar? [a, b, c, d, e, f, g, h], unescape? rest with
    | some x, some xs => some (x :: xs)
    | _, _ => none
  | '\\' :: c :: rest =>
    match escapeOf? c, unescape? rest with
    | some x, some xs => some (x :: xs)
    | _, _ => none
  | ['\\'] => none
  | c :: rest => (unescape? rest).map (c :: ·)

/-- The content of a basic string on one line, with its escapes, and what follows it. -/
def scanBasic? : List Char → Option (List Char × List Char)
  | [] => none
  | '"' :: rest => some ([], rest)
  | '\\' :: c :: rest => (scanBasic? rest).map fun (cs, r) => ('\\' :: c :: cs, r)
  | c :: rest =>
    if isForbidden c || isLineEnd c then none else (scanBasic? rest).map fun (cs, r) => (c :: cs, r)

/-- The content of a literal string on one line and what follows it. -/
def scanLiteral? : List Char → Option (List Char × List Char)
  | [] => none
  | c :: rest =>
    if c = '\'' then some ([], rest)
    else if isForbidden c || isLineEnd c then none
    else (scanLiteral? rest).map fun (cs, r) => (c :: cs, r)

/-- The content of a string over several lines and what follows it. Up to two quotes may stand
before the closing three; `run` counts the quotes just read. Backslashes escape if `escapes` says
so. -/
def scanLines? (quote : Char) (escapes : Bool) (run : Nat) :
    List Char → Option (List Char × List Char)
  | [] => none
  | '\\' :: c :: rest =>
    if escapes then
      (scanLines? quote escapes (if c = quote then 1 else 0) rest).map fun (cs, r) =>
        ('\\' :: c :: cs, r)
    else (scanLines? quote escapes 0 (c :: rest)).map fun (cs, r) => ('\\' :: cs, r)
  | c :: rest =>
    if c = quote then
      match rest with
      | c2 :: c3 :: more =>
        if c2 = quote ∧ c3 = quote then
          if more.head? = some quote then
            if 2 ≤ run then none
            else (scanLines? quote escapes (run + 1) rest).map fun (cs, r) => (c :: cs, r)
          else some ([], more)
        else (scanLines? quote escapes (run + 1) rest).map fun (cs, r) => (c :: cs, r)
      | _ => (scanLines? quote escapes (run + 1) rest).map fun (cs, r) => (c :: cs, r)
    else if isForbidden c || (c = '\r' && rest.head? != some '\n') then none
    else (scanLines? quote escapes 0 rest).map fun (cs, r) => (c :: cs, r)

/-- Whether a character is blank or a carriage return. -/
def isMargin (c : Char) : Bool := c == ' ' || c == '\t' || c == '\r'

/-- A line without characters of a class at its end. -/
def dropEnd (test : Char → Bool) (line : List Char) : List Char :=
  (line.reverse.dropWhile test).reverse

/-- Joins lines. A backslash at the end of a line takes the end of the line with it and the margin
of the next. `joined` says that the last line that is not blank ended so, and `trim` that the one
before did. -/
def joinLines (joined trim : Bool) : List (List Char) → List Char
  | [] => []
  | line :: rest =>
    let line := if trim then line.dropWhile isMargin else line
    let body := dropEnd isMargin line
    let slashes := (body.reverse.takeWhile (· == '\\')).length
    if slashes = 0 then
      dropEnd (· == '\r') line ++ (if joined || rest.isEmpty then [] else ['\n']) ++
        joinLines joined false rest
    else if slashes % 2 = 0 then line ++ '\n' :: joinLines false false rest
    else (if joined then body.dropWhile isMargin else body).dropLast ++ joinLines true true rest

/-- The lines of a text. -/
def splitLines : List Char → List (List Char)
  | [] => [[]]
  | c :: rest =>
    match splitLines rest with
    | [] => [[c]]
    | line :: lines => if c = '\n' then [] :: line :: lines else (c :: line) :: lines

/-- A text without the end of line that it starts with. -/
def dropFirstLineEnd : List Char → List Char
  | '\n' :: rest => rest
  | '\r' :: '\n' :: rest => rest
  | cs => cs

/-- Reads a string after its opening quote, which the text starts with. -/
def quotation? (cs : List Char) : Option (String × List Char) :=
  match cs with
  | '"' :: '"' :: '"' :: rest => do
    let (raw, rest) ← scanLines? '"' true 0 rest
    let text ← unescape? (dropFirstLineEnd (joinLines false false (splitLines raw)))
    return (String.ofList text, rest)
  | '\'' :: '\'' :: '\'' :: rest => do
    let (raw, rest) ← scanLines? '\'' false 0 rest
    return (String.ofList (dropFirstLineEnd raw), rest)
  | cs => quotationOnLine? cs
where
  /-- Reads a string on one line, which keys may be, too. -/
  quotationOnLine? : List Char → Option (String × List Char)
    | '"' :: rest => do
      let (raw, rest) ← scanBasic? rest
      return (String.ofList (← unescape? raw), rest)
    | '\'' :: rest => do
      let (raw, rest) ← scanLiteral? rest
      return (String.ofList raw, rest)
    | _ => none

end ValueRange.Toml
