import ValueRange.Text.Printable

/-! Quoted text: a string between double quotes, with everything escaped that is not printable. -/

namespace ValueRange.Text

/-- The hexadecimal digits of `n`, filled up with zeros to `width` places. -/
def hex (width n : Nat) : String :=
  let digits := Nat.toDigits 16 n
  String.ofList (List.replicate (width - digits.length) '0' ++ digits)

/-- The escapes that have a letter of their own. -/
def letterEscape? (c : Char) : Option String :=
  match c.toNat with
  | 0x07 => some "\\a"
  | 0x08 => some "\\b"
  | 0x0c => some "\\f"
  | 0x0a => some "\\n"
  | 0x0d => some "\\r"
  | 0x09 => some "\\t"
  | 0x0b => some "\\v"
  | _ => none

/-- One character of a quoted text. -/
def quotedChar (c : Char) : String :=
  if c = '"' ∨ c = '\\' then String.ofList ['\\', c]
  else if isPrintable c then String.singleton c
  else match letterEscape? c with
    | some escape => escape
    | none =>
      if c.toNat < 0x20 ∨ c.toNat = 0x7f then "\\x" ++ hex 2 c.toNat
      else if c.toNat < 0x10000 then "\\u" ++ hex 4 c.toNat
      else "\\U" ++ hex 8 c.toNat

/-- The quoted form of a text. -/
def quoted (s : String) : String := "\"" ++ String.join (s.toList.map quotedChar) ++ "\""

end ValueRange.Text
