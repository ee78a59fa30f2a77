/-! JSON texts, indented by tabs. Characters that have a meaning in HTML are escaped. -/

namespace ValueRange.Text

/-- A JSON value. -/
inductive Json where
  | null
  | boolean (b : Bool)
  | number (n : Int)
  | string (s : String)
  | array (items : List Json)
  | object (members : List (String × Json))
deriving Repr, Inhabited

namespace Json

/-- The four hexadecimal digits of a character. -/
def fourDigits (c : Char) : String :=
  let ds := Nat.toDigits 16 c.toNat
  String.ofList (List.replicate (4 - ds.length) '0' ++ ds)

/-- A character in a string. -/
def escape (c : Char) : String :=
  if c = '"' then "\\\""
  else if c = '\\' then "\\\\"
  else if c = '\n' then "\\n"
  else if c = '\r' then "\\r"
  else if c = '\t' then "\\t"
  else if c = '\x08' then "\\b"
  else if c = '\x0c' then "\\f"
  else if c.toNat < 32 ∨ c = '<' ∨ c = '>' ∨ c = '&' ∨ c.toNat = 0x2028 ∨ c.toNat = 0x2029 then
    "\\u" ++ fourDigits c
  else String.singleton c

/-- A string in quotes. -/
def quoted (s : String) : String := "\"" ++ String.join (s.toList.map escape) ++ "\""

/-- The start of a line at a depth. -/
def newline (depth : Nat) : String := "\n" ++ String.ofList (List.replicate depth '\t')

/-- A list of parts between brackets, each on a line. -/
def block (opening closing : String) (depth : Nat) (parts : List String) : String :=
  if parts.isEmpty then opening ++ closing
  else opening ++ newline (depth + 1) ++ ("," ++ newline (depth + 1)).intercalate parts ++
    newline depth ++ closing

mutual

/-- The text of a value at a depth. -/
def render (depth : Nat) : Json → String
  | null => "null"
  | boolean b => if b then "true" else "false"
  | number n => toString n
  | string s => quoted s
  | array items => block "[" "]" depth (renderItems (depth + 1) items)
  | object members => block "\x7b" "\x7d" depth (renderMembers (depth + 1) members)

/-- The texts of items. -/
def renderItems (depth : Nat) : List Json → List String
  | [] => []
  | v :: vs => v.render depth :: renderItems depth vs

/-- The texts of members. -/
def renderMembers (depth : Nat) : List (String × Json) → List String
  | [] => []
  | (k, v) :: rest => (quoted k ++ ": " ++ v.render depth) :: renderMembers depth rest

end

end Json

end ValueRange.Text
