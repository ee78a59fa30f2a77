import ValueRange.Extended

/-! The sentinels of an analysis: the least and the greatest signed integer of a bit width. A bound
equal to a sentinel says that the range is unbounded on that side. -/

namespace ValueRange

/-- A bit width of at least two, which fixes the two sentinels. -/
structure Sentinels where
  bits : Nat
  two_le_bits : 2 ≤ bits
deriving DecidableEq, Repr

namespace Sentinels

/-- The width used where nothing asks for another one. -/
def defaultBits : Nat := 64

/-- The sentinels of a requested width. A width that is not positive asks for the default, and a
single bit is widened to two. -/
def ofWidth (w : Int) : Sentinels :=
  if w ≤ 0 then ⟨defaultBits, by decide⟩ else ⟨Nat.max 2 w.toNat, Nat.le_max_left 2 w.toNat⟩

instance : Inhabited Sentinels := ⟨ofWidth 0⟩

variable (s : Sentinels)

/-- The sentinel of an unbounded lower side. -/
def negInf : Int := -pow2 (s.bits - 1)

/-- The sentinel of an unbounded upper side. -/
def posInf : Int := pow2 (s.bits - 1) - 1

/-- The number itself between the sentinels, and the nearer sentinel outside. -/
def clamp (n : Int) : Int :=
  if n < s.negInf then s.negInf else if s.posInf < n then s.posInf else n

/-- A bound as an extended integer: sentinels, and what lies beyond them, are infinite. -/
def toExtended (n : Int) : Extended :=
  if n ≤ s.negInf then .negInf else if s.posInf ≤ n then .posInf else .fin n

/-- An extended integer as a bound. -/
def ofExtended : Extended → Int
  | .negInf => s.negInf
  | .fin n => s.clamp n
  | .posInf => s.posInf

theorem negInf_lt_posInf : s.negInf < s.posInf := by
  have h : 1 ≤ s.bits - 1 := by have := s.two_le_bits; omega
  have hp : pow2 1 ≤ pow2 (s.bits - 1) := by
    unfold pow2
    exact Int.ofNat_le.mpr (Nat.pow_le_pow_right (by decide) h)
  have h2 : pow2 1 = 2 := rfl
  unfold negInf posInf
  omega

theorem negInf_le_clamp (n : Int) : s.negInf ≤ s.clamp n := by
  have := s.negInf_lt_posInf
  unfold clamp
  split <;> try split
  all_goals omega

theorem clamp_le_posInf (n : Int) : s.clamp n ≤ s.posInf := by
  have := s.negInf_lt_posInf
  unfold clamp
  split <;> try split
  all_goals omega

end Sentinels

end ValueRange
