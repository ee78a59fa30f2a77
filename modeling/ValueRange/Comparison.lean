import ValueRange.Fault

/-! Comparisons of integers, and the predicates of branches, which may also be numbers that name no
comparison. -/

namespace ValueRange

/-- The ten comparisons: equality, signed order and unsigned order. -/
inductive Comparison where
  | eq
  | ne
  | slt
  | sle
  | sgt
  | sge
  | ult
  | ule
  | ugt
  | uge
deriving DecidableEq, Repr, Inhabited

namespace Comparison

/-- The comparisons in the order of their numbers. -/
def all : List Comparison := [eq, ne, slt, sle, sgt, sge, ult, ule, ugt, uge]

/-- The short name. -/
def mnemonic : Comparison → String
  | eq => "eq"
  | ne => "ne"
  | slt => "slt"
  | sle => "sle"
  | sgt => "sgt"
  | sge => "sge"
  | ult => "ult"
  | ule => "ule"
  | ugt => "ugt"
  | uge => "uge"

/-- The symbol. -/
def symbol : Comparison → String
  | eq => "=="
  | ne => "!="
  | slt => "<"
  | sle => "<="
  | sgt => ">"
  | sge => ">="
  | ult => "<u"
  | ule => "<=u"
  | ugt => ">u"
  | uge => ">=u"

/-- The comparison that a short name or a symbol denotes. -/
def ofText? (s : String) : Option Comparison :=
  all.find? fun c => c.mnemonic == s || c.symbol == s

/-- The comparison that holds exactly when this one does not. -/
def negate : Comparison → Comparison
  | eq => ne
  | ne => eq
  | slt => sge
  | sle => sgt
  | sgt => sle
  | sge => slt
  | ult => uge
  | ule => ugt
  | ugt => ule
  | uge => ult

/-- The comparison of the operands in the other order. -/
def flip : Comparison → Comparison
  | eq => eq
  | ne => ne
  | slt => sgt
  | sle => sge
  | sgt => slt
  | sge => sle
  | ult => ugt
  | ule => uge
  | ugt => ult
  | uge => ule

/-- Whether the operands are compared as unsigned integers. -/
def isUnsigned : Comparison → Bool
  | ult | ule | ugt | uge => true
  | _ => false

/-- Unsigned order of integers: negative ones lie above all others. -/
def UnsignedLt (x y : Int) : Prop :=
  if 0 ≤ x then (if 0 ≤ y then x < y else True) else (if 0 ≤ y then False else x < y)

/-- The comparison holds of two integers. -/
def Holds : Comparison → Int → Int → Prop
  | eq, x, y => x = y
  | ne, x, y => x ≠ y
  | slt, x, y => x < y
  | sle, x, y => x ≤ y
  | sgt, x, y => y < x
  | sge, x, y => y ≤ x
  | ult, x, y => UnsignedLt x y
  | ule, x, y => ¬ UnsignedLt y x
  | ugt, x, y => UnsignedLt y x
  | uge, x, y => ¬ UnsignedLt x y

theorem negate_negate (c : Comparison) : c.negate.negate = c := by cases c <;> rfl

theorem flip_flip (c : Comparison) : c.flip.flip = c := by cases c <;> rfl

theorem holds_negate (c : Comparison) (x y : Int) : c.negate.Holds x y ↔ ¬ c.Holds x y := by
  cases c <;> simp [negate, Holds]

theorem holds_flip (c : Comparison) (x y : Int) : c.flip.Holds x y ↔ c.Holds y x := by
  cases c <;> simp [flip, Holds, eq_comm]

end Comparison

/-- What a branch compares with: a comparison, or a number that names none. -/
inductive Predicate where
  | known (c : Comparison)
  | other (code : Nat)
deriving DecidableEq, Repr, Inhabited

namespace Predicate

/-- The predicate with a number. -/
def ofNumber (n : Nat) : Predicate := ((Comparison.all[n]?).map known).getD (other n)

/-- The number of a predicate. -/
def number : Predicate → Nat
  | known c => Comparison.all.idxOf c
  | other n => n

/-- The text of a predicate. -/
def text : Predicate → String
  | known c => c.symbol
  | other n => s!"Predicate({n})"

/-- The negation, which only comparisons have. -/
def negate : Predicate → Except Fault Comparison
  | known c => .ok c.negate
  | other n => .error (.unknownPredicate n)

/-- The comparison with the operands in the other order, which only comparisons have. -/
def flip : Predicate → Except Fault Comparison
  | known c => .ok c.flip
  | other n => .error (.unknownPredicate n)

/-- Whether the predicate compares unsigned integers. Unknown numbers count as if they did. -/
def isUnsigned : Predicate → Bool
  | known c => c.isUnsigned
  | other _ => true

end Predicate

end ValueRange
