import ValueRange.Text.Integer
import ValueRange.Toml.Value

/-! Numbers and moments in time, as TOML writes them. -/

namespace ValueRange.Toml

/-- Whether a character is a decimal digit. -/
def isDigit (c : Char) : Bool := '0' ≤ c && c ≤ '9'

/-- Whether a character is a hexadecimal digit. -/
def isHexDigit (c : Char) : Bool := isDigit c || ('a' ≤ c && c ≤ 'f') || ('A' ≤ c && c ≤ 'F')

/-- Whether every underscore stands behind a digit, and a digit comes last. -/
def underscoresOk (behindDigit : Bool) : List Char → Bool
  | [] => behindDigit
  | c :: rest => (c != '_' || behindDigit) && underscoresOk (isHexDigit c) rest

/-- Whether a number starts with a zero that does not belong there. -/
def hasLeadingZero : List Char → Bool
  | '0' :: c :: _ => isDigit c
  | '-' :: '0' :: _ :: _ => true
  | '+' :: '0' :: _ :: _ => true
  | _ => false

/-- The integer that a token denotes. -/
def integer? (token : List Char) : Option Value :=
  if !underscoresOk false token || hasLeadingZero token then none
  else match Text.Integer.word (String.ofList token) with
    | .ok n => some (.integer n)
    | .error _ => none

/-- Whether a digit follows every period. -/
def periodsOk : List Char → Bool
  | [] => true
  | '.' :: rest => (match rest with | c :: _ => isDigit c | [] => false) && periodsOk rest
  | _ :: rest => periodsOk rest

/-- The parts of a number between its period and exponent marks, without empty ones. -/
def floatParts (token : List Char) : List (List Char) :=
  (token.splitBy fun a b => !(isMark a || isMark b)).filter fun part => !(part.any isMark)
where
  /-- Whether a character separates the parts of a number. -/
  isMark (c : Char) : Bool := c == '.' || c == 'e' || c == 'E'

/-- Splits a number into the digits before and after its period and its exponent. -/
def decimalParts? (cs : List Char) : Option (List Char × List Char × Int) :=
  let (_, cs) := Text.Integer.splitSign cs
  let (whole, cs) := cs.span isDigit
  let (part, cs) := match cs with
    | '.' :: rest => rest.span isDigit
    | _ => ([], cs)
  if whole.isEmpty && part.isEmpty then none
  else match cs with
    | [] => some (whole, part, 0)
    | e :: rest =>
      if e != 'e' && e != 'E' then none
      else
        let (negative, digits) := Text.Integer.splitSign rest
        match digits, Text.Integer.decimal? 0 digits with
        | _ :: _, some n => some (whole, part, Text.Integer.signedValue negative n)
        | _, _ => none

/-- Whether a decimal is small enough for a double: below the midpoint of the greatest double and
the next power of two. -/
def fitsDouble (digits : List Char) (exponent : Int) : Bool :=
  match Text.Integer.decimal? 0 digits with
  | none => false
  | some 0 => true
  | some n =>
    let limit := Nat.pow 2 1024 - Nat.pow 2 970
    let size := ((toString n).length : Int) + exponent
    if size < 300 then true
    else if 320 < size then false
    else if 0 ≤ exponent then decide (n * Nat.pow 10 exponent.toNat < limit)
    else decide (n < limit * Nat.pow 10 (-exponent).toNat)

/-- The number with a fraction or an exponent that a token denotes. -/
def float? (token : List Char) : Option Value :=
  let parts := floatParts token
  if !parts.all (underscoresOk false) || parts.head?.any hasLeadingZero || !periodsOk token then
    none
  else match decimalParts? (token.filter (· != '_')) with
    | some (whole, part, exponent) =>
      if fitsDouble (whole ++ part) (exponent - part.length) then
        some (.float (String.ofList token))
      else none
    | none => none

/-- Whether a year has a leap day. -/
def isLeapYear (y : Nat) : Bool := y % 4 == 0 && (y % 100 != 0 || y % 400 == 0)

/-- The number of days in a month of a year. -/
def daysIn (y m : Nat) : Nat :=
  if m == 2 then (if isLeapYear y then 29 else 28)
  else if [4, 6, 9, 11].contains m then 30
  else 31

/-- Reads exactly `n` digits. -/
def fixedDigits? (n : Nat) (cs : List Char) : Option (Nat × List Char) :=
  let ds := cs.take n
  if ds.length == n && ds.all isDigit then (Text.Integer.decimal? 0 ds).map fun v => (v, cs.drop n)
  else none

/-- Reads a character. -/
def expect? (c : Char) : List Char → Option (List Char)
  | d :: rest => if c = d then some rest else none
  | [] => none

/-- Reads a date. -/
def date? (cs : List Char) : Option (List Char) := do
  let (y, cs) ← fixedDigits? 4 cs
  let cs ← expect? '-' cs
  let (m, cs) ← fixedDigits? 2 cs
  let cs ← expect? '-' cs
  let (d, cs) ← fixedDigits? 2 cs
  if 1 ≤ m && m ≤ 12 && 1 ≤ d && d ≤ daysIn y m then some cs else none

/-- Reads the hour, which may have a single digit. -/
def hour? (cs : List Char) : Option (Nat × List Char) :=
  match fixedDigits? 2 cs with
  | some r => some r
  | none => fixedDigits? 1 cs

/-- Drops a fraction of a second. -/
def dropFraction : List Char → List Char
  | '.' :: c :: rest => if isDigit c then rest.dropWhile isDigit else '.' :: c :: rest
  | cs => cs

/-- Reads a time of day. -/
def time? (cs : List Char) : Option (List Char) := do
  let (h, cs) ← hour? cs
  let cs ← expect? ':' cs
  let (m, cs) ← fixedDigits? 2 cs
  let cs ← expect? ':' cs
  let (s, cs) ← fixedDigits? 2 cs
  if h < 24 && m < 60 && s < 60 then some (dropFraction cs) else none

/-- Whether a text is an offset from universal time. -/
def isZone : List Char → Bool
  | ['Z'] => true
  | sign :: rest =>
    match fixedDigits? 2 rest with
    | some (h, ':' :: rest) =>
      match fixedDigits? 2 rest with
      | some (m, []) => (sign == '+' || sign == '-') && h ≤ 24 && m ≤ 60
      | _ => false
    | _ => false
  | [] => false

/-- The moment that a token denotes: a date, a time of day or both, then possibly with an offset. -/
def moment? (token : List Char) : Option Value :=
  let cs := token.map fun c => if c = 'z' then 'Z' else if c = 't' ∨ c = ' ' then 'T' else c
  let ok := match date? cs with
    | some [] => true
    | some ('T' :: rest) =>
      match time? rest with
      | some zone => zone.isEmpty || isZone zone
      | none => false
    | _ => time? cs == some []
  if ok then some (.moment (String.ofList cs)) else none

/-- The characters of a number after its period or exponent mark. -/
def isFloatChar (c : Char) : Bool := isDigit c || "_.-+eE".toList.contains c

/-- The characters of a moment. -/
def isMomentChar (c : Char) : Bool := isDigit c || "-:Tt .Zz+".toList.contains c

/-- Reads the rest of a decimal number after a sign and some digits and underscores. -/
def decimalFrom? (head cs : List Char) : Option (Value × List Char) :=
  let (more, cs) := cs.span fun c => isDigit c || c == '_'
  match cs with
  | c :: rest =>
    if c == '.' || c == 'e' || c == 'E' then
      let (tail, rest) := rest.span isFloatChar
      (float? (head ++ more ++ c :: tail)).map fun v => (v, rest)
    else (integer? (head ++ more)).map fun v => (v, cs)
  | [] => (integer? (head ++ more)).map fun v => (v, cs)

/-- Whether a character is a digit in the radix that a mark selects. -/
def isRadixDigit (mark c : Char) : Bool :=
  if mark = 'b' then c == '0' || c == '1'
  else if mark = 'o' then '0' ≤ c && c ≤ '7'
  else isHexDigit c

/-- Reads a number or a moment. Only plain decimals may have a sign. -/
def number? (cs : List Char) : Option (Value × List Char) :=
  match cs with
  | '0' :: mark :: c :: rest =>
    if mark == 'b' || mark == 'o' || mark == 'x' then
      if isRadixDigit mark c then
        let (ds, rest) := rest.span fun d => isRadixDigit mark d || d == '_'
        (integer? ('0' :: mark :: c :: ds)).map fun v => (v, rest)
      else none
    else plain cs
  | sign :: c :: rest =>
    if sign == '-' || sign == '+' then
      match c, rest with
      | 'i', 'n' :: 'f' :: rest => some (.float (String.ofList [sign, 'i', 'n', 'f']), rest)
      | 'n', 'a' :: 'n' :: rest => some (.float "nan", rest)
      | _, _ => if isDigit c then decimalFrom? [sign, c] rest else none
    else plain cs
  | _ => plain cs
where
  /-- Reads what starts with a digit of a plain decimal or a moment. -/
  plain (cs : List Char) : Option (Value × List Char) :=
    let (ds, rest) := cs.span isDigit
    match rest with
    | c :: tail =>
      if c == '-' || c == ':' then
        if ds == ['0'] then none
        else
          let (more, rest) := tail.span isMomentChar
          let token := ds ++ c :: more
          (moment? (token.reverse.dropWhile (· == ' ')).reverse).map fun v => (v, rest)
      else decimalFrom? ds rest
    | [] => decimalFrom? ds rest

end ValueRange.Toml
