import ValueRange.Range.Basic

/-! Bitwise operations on ranges, read in two's complement of unlimited width. -/

namespace ValueRange

/-- The number of bits of a natural number without leading zeros. -/
def bitLength (n : Nat) : Nat := if n = 0 then 0 else n.log2 + 1

/-- The least number of the form `2 ^ k - 1` that is not below the non-negative `n`. -/
def allOnes (n : Int) : Int := pow2 (bitLength n.toNat) - 1

namespace Range

variable (r o : Range)

/-- The conjunctions. -/
def and : Range :=
  if r.isEmpty || o.isEmpty then r.sentinels.empty
  else if r.isNonNegative then
    r.sentinels.interval 0 (if o.isNonNegative then Min.min r.upper o.upper else r.upper)
  else if o.isNonNegative then r.sentinels.interval 0 o.upper
  else if r.upper < 0 ∧ o.upper < 0 then
    r.sentinels.interval r.sentinels.negInf (Min.min r.upper o.upper)
  else r.sentinels.max

/-- The disjunctions. -/
def or : Range :=
  if r.isEmpty || o.isEmpty then r.sentinels.empty
  else if r.isNonNegative && o.isNonNegative then
    r.sentinels.interval (Max.max r.lower o.lower)
      (if r.upperUnbounded || o.upperUnbounded then r.sentinels.posInf
       else allOnes (Max.max r.upper o.upper))
  else if r.upper < 0 ∧ o.upper < 0 then r.sentinels.interval (Max.max r.lower o.lower) (-1)
  else r.sentinels.interval (Min.min r.lower o.lower) r.sentinels.posInf

/-- The exclusive disjunctions. -/
def xor : Range :=
  if r.isEmpty || o.isEmpty then r.sentinels.empty
  else if r.isNonNegative && o.isNonNegative then
    r.sentinels.interval 0
      (if r.upperUnbounded || o.upperUnbounded then r.sentinels.posInf
       else allOnes (Max.max r.upper o.upper))
  else r.sentinels.max

end Range

end ValueRange
