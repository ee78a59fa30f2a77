/-! Integer numerals. Literals carry an optional sign and a radix, and single underscores may
separate their digits; machine numerals are plain decimals of 64 bits. -/

namespace ValueRange.Text.Integer

/-- The value of a digit or letter, as bases up to thirty-six read it. -/
def digitValue? (c : Char) : Option Nat :=
  if '0' ≤ c ∧ c ≤ '9' then some (c.toNat - '0'.toNat)
  else if 'a' ≤ c ∧ c ≤ 'z' then some (c.toNat - 'a'.toNat + 10)
  else if 'A' ≤ c ∧ c ≤ 'Z' then some (c.toNat - 'A'.toNat + 10)
  else none

/-- Reads the remaining digits of a numeral onto `acc`. An underscore may follow a digit or a radix
mark, which `separable` records, and a digit has to follow it. -/
def digits? (radix : Nat) (separable : Bool) (acc : Nat) : List Char → Option Nat
  | [] => if separable then some acc else none
  | c :: rest =>
    if c = '_' then (if separable then digits? radix false acc rest else none)
    else match digitValue? c with
      | some d => if d < radix then digits? radix true (acc * radix + d) rest else none
      | none => none

/-- The radix that a mark after a leading zero selects. -/
def radixOfMark? (c : Char) : Option Nat :=
  if c = 'b' ∨ c = 'B' then some 2
  else if c = 'o' ∨ c = 'O' then some 8
  else if c = 'x' ∨ c = 'X' then some 16
  else none

/-- Splits a numeral without sign into its radix, whether an underscore may come first, and its
digits. A leading zero alone selects octal. -/
def splitRadix : List Char → Nat × Bool × List Char
  | '0' :: rest =>
    match rest with
    | mark :: c :: more =>
      match radixOfMark? mark with
      | some radix => (radix, true, c :: more)
      | none => (8, true, rest)
    | _ => (8, true, rest)
  | cs => (10, false, cs)

/-- The value of a numeral without sign. -/
def magnitude? (cs : List Char) : Option Nat :=
  let (radix, separable, ds) := splitRadix cs
  digits? radix separable 0 ds

/-- Splits off a sign; the flag says whether it is a minus. -/
def splitSign : List Char → Bool × List Char
  | '-' :: rest => (true, rest)
  | '+' :: rest => (false, rest)
  | cs => (false, cs)

/-- The integer with the given sign and magnitude. -/
def signedValue (negative : Bool) (n : Nat) : Int := if negative then -(n : Int) else n

/-- The value of an integer literal of any size. -/
def literal? (s : String) : Option Int :=
  let (negative, cs) := splitSign s.toList
  (magnitude? cs).map (signedValue negative)

/-- Whether an integer fits in a signed word of 64 bits. -/
def fitsWord (n : Int) : Bool := decide (-9223372036854775808 ≤ n ∧ n ≤ 9223372036854775807)

/-- Reads plain decimal digits onto `acc`. -/
def decimal? (acc : Nat) : List Char → Option Nat
  | [] => some acc
  | c :: rest =>
    if '0' ≤ c ∧ c ≤ '9' then decimal? (acc * 10 + (c.toNat - '0'.toNat)) rest else none

/-- The value of a decimal numeral with an optional sign that fits in a signed word. -/
def machineDecimal? (cs : List Char) : Option Int :=
  let (negative, ds) := splitSign cs
  match ds with
  | [] => none
  | _ =>
    match decimal? 0 ds with
    | some n => if fitsWord (signedValue negative n) then some (signedValue negative n) else none
    | none => none

/-- Why a text is no machine word. -/
inductive WordError where
  | malformed
  | outOfRange
deriving DecidableEq, Repr

/-- Reads digits onto `acc` until a character is no digit or the value leaves an unsigned word of
64 bits, whichever comes first. Underscores are passed over. -/
def wordDigits (radix acc : Nat) : List Char → Except WordError Nat
  | [] => .ok acc
  | c :: rest =>
    if c = '_' then wordDigits radix acc rest
    else match digitValue? c with
      | some d =>
        if radix ≤ d then .error .malformed
        else if 18446744073709551615 < acc * radix + d then .error .outOfRange
        else wordDigits radix (acc * radix + d) rest
      | none => .error .malformed

/-- The value of an integer literal that fits in a signed word. -/
def word (s : String) : Except WordError Int :=
  let (negative, cs) := splitSign s.toList
  let (radix, separable, ds) := splitRadix cs
  match wordDigits radix 0 ds, digits? radix separable 0 ds with
  | .error e, _ => .error e
  | .ok _, none => .error .malformed
  | .ok n, some _ =>
    if fitsWord (signedValue negative n) then .ok (signedValue negative n) else .error .outOfRange

end ValueRange.Text.Integer
