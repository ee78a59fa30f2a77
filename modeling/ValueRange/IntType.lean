import ValueRange.Extended
import ValueRange.Text.Integer
import ValueRange.Text.Quoted

/-! Integer types and the hints that bound a value from outside. -/

namespace ValueRange

/-- The type of a value: a width in bits and a signedness. A width that is not positive marks a
value that the analysis does not track. -/
structure IntType where
  width : Int
  unsigned : Bool
deriving DecidableEq, Repr, Inhabited

namespace IntType

/-- The type of values that are not tracked. -/
def void : IntType := ⟨0, false⟩

/-- The signed type of `w` bits. -/
def signed (w : Int) : IntType := ⟨w, false⟩

variable (t : IntType)

/-- Whether values of the type are tracked. -/
def isInteger : Bool := decide (0 < t.width)

/-- The number of bits that hold every value of the type in two's complement. -/
def signedWidth : Int := if t.unsigned then t.width + 1 else t.width

/-- The signed width as a machine word holds it. The greatest unsigned width wraps around. -/
def signedWidthWord : Int := t.signedWidth.bmod 0x10000000000000000

/-- The least value of the type. -/
def minValue : Int := if t.unsigned then 0 else -pow2 (t.width - 1).toNat

/-- The greatest value of the type. -/
def maxValue : Int := pow2 (if t.unsigned then t.width else t.width - 1).toNat - 1

/-- The name of the type, such as `i32` or `u8`. -/
def text : String :=
  if !t.isInteger then "void"
  else (if t.unsigned then "u" else "i") ++ toString t.width

/-- The type that a name denotes, if any. An empty name and `void` denote the untracked type. -/
def ofText? (name : String) : Option IntType :=
  if name = "void" ∨ name = "" then some void
  else match name.toList with
    | c :: digits =>
      if c = 'i' ∨ c = 'u' then
        match Text.Integer.machineDecimal? digits with
        | some w => if 0 < w then some ⟨w, c = 'u'⟩ else none
        | none => none
      else none
    | [] => none

/-- What is said of a name that denotes no type. -/
def invalidMessage (name : String) : String := "invalid type " ++ Text.quoted name

end IntType

/-- Bounds known from outside for a value that no tracked operation defines. A missing bound is
unbounded. -/
structure Hint where
  lower : Option Int
  upper : Option Int
deriving DecidableEq, Repr, Inhabited

namespace Hint

/-- The hint that says no more than the type does. -/
def ofType (t : IntType) : Hint := ⟨some t.minValue, some t.maxValue⟩

/-- The hint as an interval. -/
def text (h : Hint) : String :=
  let lower := (h.lower.map toString).getD "-∞"
  let upper := (h.upper.map toString).getD "∞"
  s!"[{lower}, {upper}]"

end Hint

end ValueRange
