import ValueRange.Range.Basic

/-! Conversions of ranges between integer types. -/

namespace ValueRange.Range

variable (r : Range)

/-- The range itself if the type represents all of it, and the whole type otherwise. An untracked
type leaves the range alone. -/
def convert (t : IntType) : Range :=
  if r.isEmpty || !t.isInteger then r
  else if t.minValue ≤ r.lower ∧ r.upper ≤ t.maxValue then r
  else r.sentinels.interval t.minValue t.maxValue

/-- The conversion to `w` signed bits. -/
def truncate (w : Int) : Range := r.convert (.signed w)

/-- The sign extension, which keeps every integer. -/
def signExtend : Range := if r.isEmpty then r else r.sentinels.interval r.lower r.upper

/-- The zero extension of integers of `source` bits: negative ones gain `2 ^ source`. -/
def zeroExtend (source : Int) : Range :=
  if r.isEmpty || r.isNonNegative then r
  else if r.lowerUnbounded || decide (source ≤ 0) then
    r.sentinels.interval 0 (pow2 source.toNat - 1)
  else if r.upper < 0 then
    r.sentinels.interval (r.lower + pow2 source.toNat) (r.upper + pow2 source.toNat)
  else r.sentinels.interval 0 (pow2 source.toNat - 1)

end ValueRange.Range
