import ValueRange.Text.Quoted

/-! Choices and stages of solving: the narrowing operators, the phases of a component and the
trends of ranges. -/

namespace ValueRange

/-- How a component regains precision after widening. `cousot` replaces unbounded sides by finite
ones, and `crop` moves the sides that widening left unbounded whenever that is tighter. Other
numbers name no operator. -/
inductive Narrowing where
  | cousot
  | crop
  | other (code : Int)
deriving DecidableEq, Repr, Inhabited

namespace Narrowing

/-- The operator with a number. -/
def ofNumber (n : Int) : Narrowing :=
  if n = 0 then cousot else if n = 1 then crop else other n

/-- The number of an operator. -/
def number : Narrowing → Int
  | cousot => 0
  | crop => 1
  | other n => n

/-- The text of an operator. -/
def text : Narrowing → String
  | cousot => "cousot"
  | crop => "crop"
  | other n => s!"Narrowing({n})"

/-- The operator with a name; without a name it is `cousot`. -/
def ofText? (s : String) : Option Narrowing :=
  if s = "cousot" ∨ s = "" then some cousot else if s = "crop" then some crop else none

/-- What is said of a name that no operator has. -/
def unknownMessage (s : String) : String := "unknown narrowing " ++ Text.quoted s

end Narrowing

/-- The phases that a component goes through. -/
inductive Phase where
  | discovered
  | widened
  | intersectsFixed
  | narrowed
  | propagated
deriving DecidableEq, Repr, Inhabited

namespace Phase

/-- The phases in their order. -/
def all : List Phase := [discovered, widened, intersectsFixed, narrowed, propagated]

/-- The text of a phase. -/
def text : Phase → String
  | discovered => "discovered"
  | widened => "widened"
  | intersectsFixed => "intersects fixed"
  | narrowed => "narrowed"
  | propagated => "propagated"

/-- The text of the phase with a number, which may name none. -/
def textOfNumber (n : Int) : String :=
  match if 0 ≤ n then all[n.toNat]? else none with
  | some phase => phase.text
  | none => s!"Phase({n})"

end Phase

/-- Which sides of a range were unbounded when its component was widened: none, the upper, the
lower or both. -/
inductive Trend where
  | zero
  | plus
  | minus
  | unknown
deriving DecidableEq, Repr, Inhabited

namespace Trend

/-- The sign that stands for a trend. -/
def text : Trend → String
  | zero => "0"
  | plus => "+"
  | minus => "-"
  | unknown => "?"

/-- Whether the lower side may be cropped. -/
def lowers : Trend → Bool
  | minus | unknown => true
  | _ => false

/-- Whether the upper side may be cropped. -/
def raises : Trend → Bool
  | plus | unknown => true
  | _ => false

end Trend

end ValueRange
