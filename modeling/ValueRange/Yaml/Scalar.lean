/-! The text of YAML scalars. A scalar may go on over several lines: a line break within it reads
as a space, and empty lines read as line breaks. -/

namespace ValueRange.Yaml.Scalar

/-- Whether a character is a space or a tab. -/
def isBlank (c : Char) : Bool := c == ' ' || c == '\t'

/-- Whether a token may end before the rest of a text: at its end, a blank or a line break. -/
def atBoundary : List Char → Bool
  | [] => true
  | c :: _ => isBlank c || c == '\n'

/-- Whether the rest of a text starts with a mark between documents. -/
def atDocumentMark : List Char → Bool
  | '-' :: '-' :: '-' :: rest => atBoundary rest
  | '.' :: '.' :: '.' :: rest => atBoundary rest
  | _ => false

/-- The white space that was read since the last character of a scalar: blanks within a line, held
in reverse, or line breaks. The first break counts as a space unless it is escaped. -/
inductive Gap where
  | blanks (reversed : List Char)
  | breaks (escaped : Bool) (more : Nat)
deriving Repr, Inhabited

namespace Gap

/-- No white space. -/
def none : Gap := blanks []

/-- Whether a line break was read. -/
def isBreak : Gap → Bool
  | blanks _ => false
  | breaks _ _ => true

/-- Adds a blank, which counts for nothing at the start of a line. -/
def addBlank (c : Char) : Gap → Gap
  | blanks cs => blanks (c :: cs)
  | g => g

/-- Adds a line break, which removes the blanks before it. -/
def addBreak : Gap → Gap
  | blanks _ => breaks false 0
  | breaks escaped more => breaks escaped (more + 1)

/-- The text so far, in reverse, with the white space. -/
def onto (acc : List Char) : Gap → List Char
  | blanks cs => cs ++ acc
  | breaks escaped more =>
    if !escaped && more == 0 then ' ' :: acc else List.replicate more '\n' ++ acc

end Gap

/-- Whether a character, before the rest of the text, ends a plain scalar. -/
def endsPlain (flow : Bool) (c : Char) (rest : List Char) : Bool :=
  (c == ':' && atBoundary rest) ||
    (flow && (c == ',' || c == '[' || c == ']' || c == '\x7b' || c == '\x7d' ||
      (c == '?' && atBoundary rest)))

/-- Reads a plain scalar: its text in reverse, the rest, and whether it ends after a line break.
Within a block the scalar ends at a line that is indented by less than `indent`, and a tab does not
indent. `column` is the place in the line. -/
def plain (flow : Bool) (indent : Int) (column : Nat) (acc : List Char) (gap : Gap) :
    List Char → Option (List Char × List Char × Bool)
  | [] => some (acc, [], gap.isBreak)
  | c :: rest =>
    if c == '\n' then plain flow indent 0 acc gap.addBreak rest
    else if isBlank c then
      if gap.isBreak && decide ((column : Int) < indent) && c == '\t' then Option.none
      else plain flow indent (column + 1) acc (gap.addBlank c) rest
    else
      let afterSpace := match gap with
        | .blanks [] => false
        | _ => true
      if (gap.isBreak && !flow && decide ((column : Int) < indent)) ||
          (column == 0 && atDocumentMark (c :: rest)) || (afterSpace && c == '#') ||
          endsPlain flow c rest then
        some (acc, c :: rest, gap.isBreak)
      else plain flow indent (column + 1) (c :: gap.onto acc) Gap.none rest

/-- Reads a scalar in single quotes, after the opening quote: its text in reverse and the rest. A
quote within it is written twice. -/
def single (column : Nat) (acc : List Char) (gap : Gap) : List Char → Option (List Char × List Char)
  | [] => Option.none
  | '\'' :: '\'' :: rest => single (column + 2) ('\'' :: gap.onto acc) Gap.none rest
  | '\'' :: rest => some (gap.onto acc, rest)
  | c :: rest =>
    if column == 0 && atDocumentMark (c :: rest) then Option.none
    else if c == '\n' then single 0 acc gap.addBreak rest
    else if isBlank c then single (column + 1) acc (gap.addBlank c) rest
    else single (column + 1) (c :: gap.onto acc) Gap.none rest

/-- The value of a hexadecimal digit. -/
def hexDigit? (c : Char) : Option Nat :=
  if '0' ≤ c ∧ c ≤ '9' then some (c.toNat - '0'.toNat)
  else if 'a' ≤ c ∧ c ≤ 'f' then some (c.toNat - 'a'.toNat + 10)
  else if 'A' ≤ c ∧ c ≤ 'F' then some (c.toNat - 'A'.toNat + 10)
  else none

/-- The character whose code is written in `n` hexadecimal digits, and the rest. -/
def codePoint? (n : Nat) (cs : List Char) : Option (Char × List Char) := do
  if cs.length < n then failure
  let code ← (cs.take n).foldlM (fun acc c => (hexDigit? c).map (acc * 16 + ·)) 0
  if (0xd800 ≤ code && code ≤ 0xdfff) || 0x10ffff < code then failure
  return (Char.ofNat code, cs.drop n)

/-- The character that an escape of one letter stands for. -/
def letterEscape? (c : Char) : Option Char :=
  match c with
  | '0' => some (Char.ofNat 0)
  | 'a' => some (Char.ofNat 7)
  | 'b' => some (Char.ofNat 8)
  | 't' | '\t' => some '\t'
  | 'n' => some '\n'
  | 'v' => some (Char.ofNat 0x0b)
  | 'f' => some (Char.ofNat 0x0c)
  | 'r' => some '\r'
  | 'e' => some (Char.ofNat 0x1b)
  | ' ' => some ' '
  | '"' => some '"'
  | '\'' => some '\''
  | '/' => some '/'
  | '\\' => some '\\'
  | 'N' => some (Char.ofNat 0x85)
  | '_' => some (Char.ofNat 0xa0)
  | 'L' => some (Char.ofNat 0x2028)
  | 'P' => some (Char.ofNat 0x2029)
  | _ => none

/-- The character that an escape stands for, after the backslash, and the rest. -/
def escape? : List Char → Option (Char × List Char)
  | 'x' :: rest => codePoint? 2 rest
  | 'u' :: rest => codePoint? 4 rest
  | 'U' :: rest => codePoint? 8 rest
  | c :: rest => (letterEscape? c).map (·, rest)
  | [] => none

/-- Reads a scalar in double quotes, after the opening quote: its text in reverse and the rest. Each
step consumes a character, so the length of the text bounds the steps. -/
def double : (steps : Nat) → (column : Nat) → (acc : List Char) → Gap → List Char →
    Option (List Char × List Char)
  | 0, _, _, _, _ => Option.none
  | _, _, _, _, [] => Option.none
  | steps + 1, column, acc, gap, c :: rest =>
    if column == 0 && atDocumentMark (c :: rest) then Option.none
    else if c == '"' then some (gap.onto acc, rest)
    else if c == '\n' then double steps 0 acc gap.addBreak rest
    else if isBlank c then double steps (column + 1) acc (gap.addBlank c) rest
    else if c == '\\' then
      match rest with
      | '\n' :: rest => double steps 0 (gap.onto acc) (.breaks true 0) rest
      | _ =>
        match escape? rest with
        | some (e, rest) => double steps (column + 2) (e :: gap.onto acc) Gap.none rest
        | Option.none => Option.none
    else double steps (column + 1) (c :: gap.onto acc) Gap.none rest

end ValueRange.Yaml.Scalar
