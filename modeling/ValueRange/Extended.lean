/-! Integers extended by two infinities. Range arithmetic computes on the ends of ranges as
extended integers, so that no arithmetic is ever done on a sentinel. An operation that has no
value at a pair of ends, such as a sum of opposite infinities, answers `none`. -/

namespace ValueRange

/-- An integer or one of the two infinities. -/
inductive Extended where
  | negInf
  | fin (n : Int)
  | posInf
deriving DecidableEq, Repr, Inhabited

/-- The integer `2 ^ k`. -/
def pow2 (k : Nat) : Int := Int.ofNat (Nat.pow 2 k)

theorem pow2_pos (k : Nat) : 0 < pow2 k := by
  exact Int.natCast_pos.mpr (Nat.two_pow_pos k)

namespace Extended

/-- The order of the extended integers: `negInf` is least and `posInf` greatest. -/
def le : Extended → Extended → Bool
  | negInf, _ => true
  | _, posInf => true
  | fin a, fin b => decide (a ≤ b)
  | _, _ => false

/-- The smaller of two extended integers. -/
def min (a b : Extended) : Extended := if le a b then a else b

/-- The larger of two extended integers. -/
def max (a b : Extended) : Extended := if le b a then a else b

/-- The additive inverse. -/
def neg : Extended → Extended
  | negInf => posInf
  | fin n => fin (-n)
  | posInf => negInf

/-- Whether the number is below zero. -/
def isNegative : Extended → Bool
  | negInf => true
  | fin n => decide (n < 0)
  | posInf => false

/-- Whether the number is above zero. -/
def isPositive : Extended → Bool
  | negInf => false
  | fin n => decide (0 < n)
  | posInf => true

/-- The absolute value. -/
def abs (a : Extended) : Extended := if a.isNegative then a.neg else a

/-- The infinity on the side of `a`, which is not zero, turned around when `b` is negative. -/
def infinity (a b : Extended) : Extended :=
  if a.isNegative == b.isNegative then posInf else negInf

/-- The sum; opposite infinities have none. -/
def add : Extended → Extended → Option Extended
  | negInf, posInf => none
  | posInf, negInf => none
  | negInf, _ => some negInf
  | posInf, _ => some posInf
  | fin _, negInf => some negInf
  | fin _, posInf => some posInf
  | fin a, fin b => some (fin (a + b))

/-- The difference; equal infinities have none. -/
def sub (a b : Extended) : Option Extended := a.add b.neg

/-- The product. Zero times an infinity is zero. -/
def mul : Extended → Extended → Option Extended
  | fin a, fin b => some (fin (a * b))
  | a, b => if a = fin 0 ∨ b = fin 0 then some (fin 0) else some (infinity a b)

/-- The quotient truncated toward zero, for a divisor other than zero. Two infinities have none. -/
def quo : Extended → Extended → Option Extended
  | fin a, fin b => some (fin (a.tdiv b))
  | fin _, _ => some (fin 0)
  | a, fin b => some (infinity a (fin b))
  | _, _ => none

/-- The number of bits that a shift by `amount` moves, which is never more than `limit`. -/
def shiftAmount (limit : Nat) : Extended → Nat
  | fin n => if 0 ≤ n ∧ n < limit then n.toNat else limit
  | _ => limit

/-- The left shift of `a` by the non-negative amount `b`, of at most `limit` bits. -/
def shiftLeft (limit : Nat) : Extended → Extended → Option Extended
  | fin a, b =>
    if a = 0 then some (fin 0)
    else if b = negInf ∨ b = posInf then some (infinity (fin a) (fin 1))
    else some (fin (a * pow2 (shiftAmount limit b)))
  | a, fin _ => some a
  | _, _ => none

/-- The arithmetic right shift of `a` by the non-negative amount `b`, of at most `limit` bits. -/
def shiftRight (limit : Nat) : Extended → Extended → Option Extended
  | fin a, b => if a = 0 then some (fin 0) else some (fin (a / pow2 (shiftAmount limit b)))
  | a, fin _ => some a
  | _, _ => none

end Extended

end ValueRange
