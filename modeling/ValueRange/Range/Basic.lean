import ValueRange.Sentinels
import ValueRange.IntType

/-! Ranges of integers: closed intervals between the sentinels of a width, and the empty range. A
range carries its sentinels, and a bound equal to one of them leaves that side unbounded. -/

namespace ValueRange

/-- A range of integers. Of the empty range the bounds are the sentinels, the wrong way around. -/
structure Range where
  sentinels : Sentinels
  lower : Int
  upper : Int
  isEmpty : Bool
deriving DecidableEq, Repr, Inhabited

namespace Sentinels

variable (s : Sentinels)

/-- The empty range. -/
def empty : Range := ⟨s, s.posInf, s.negInf, true⟩

/-- The range of all integers. -/
def max : Range := ⟨s, s.negInf, s.posInf, false⟩

/-- The range between two bounds, which are clamped to the sentinels. It is empty if the bounds are
the wrong way around. -/
def interval (lower upper : Int) : Range :=
  if s.clamp upper < s.clamp lower then s.empty
  else ⟨s, s.clamp lower, s.clamp upper, false⟩

/-- The range of one integer. -/
def singleton (n : Int) : Range := s.interval n n

/-- The range that a hint describes. -/
def ofHint (h : Hint) : Range := s.interval (h.lower.getD s.negInf) (h.upper.getD s.posInf)

/-- The range between two extended integers. -/
def span (lower upper : Extended) : Range := s.interval (s.ofExtended lower) (s.ofExtended upper)

end Sentinels

namespace Range

instance : Membership Int Range where
  mem r n := r.isEmpty = false ∧ r.lower ≤ n ∧ n ≤ r.upper

instance (n : Int) (r : Range) : Decidable (n ∈ r) :=
  inferInstanceAs (Decidable (r.isEmpty = false ∧ r.lower ≤ n ∧ n ≤ r.upper))

/-- Every integer of the first range is in the second. -/
instance : HasSubset Range where
  Subset r o := r.isEmpty = true ∨ (o.isEmpty = false ∧ o.lower ≤ r.lower ∧ r.upper ≤ o.upper)

instance (r o : Range) : Decidable (r ⊆ o) :=
  inferInstanceAs (Decidable
    (r.isEmpty = true ∨ (o.isEmpty = false ∧ o.lower ≤ r.lower ∧ r.upper ≤ o.upper)))

/-- Two ranges hold the same integers, whatever their sentinels. -/
def Same (r o : Range) : Prop :=
  if r.isEmpty || o.isEmpty then r.isEmpty = o.isEmpty
  else r.lower = o.lower ∧ r.upper = o.upper

instance (r o : Range) : Decidable (r.Same o) := by
  unfold Same
  split <;> infer_instance

variable (r o : Range)

/-- The range is not empty and its lower side is a sentinel. -/
def lowerUnbounded : Bool := !r.isEmpty && r.lower == r.sentinels.negInf

/-- The range is not empty and its upper side is a sentinel. -/
def upperUnbounded : Bool := !r.isEmpty && r.upper == r.sentinels.posInf

/-- The range is unbounded on both sides. -/
def isMax : Bool := r.lowerUnbounded && r.upperUnbounded

/-- The range is not empty and bounded on both sides. -/
def isBounded : Bool := !r.isEmpty && !r.lowerUnbounded && !r.upperUnbounded

/-- The range holds one integer. -/
def isSingleton : Bool := !r.isEmpty && r.lower == r.upper

/-- The range is not empty and has no negative lower bound. -/
def isNonNegative : Bool := !r.isEmpty && decide (0 ≤ r.lower)

/-- The ends of the range as extended integers. -/
def ends : Extended × Extended :=
  (r.sentinels.toExtended r.lower, r.sentinels.toExtended r.upper)

/-- The integers in both ranges. -/
def intersect : Range :=
  if r.isEmpty || o.isEmpty then r.sentinels.empty
  else r.sentinels.interval (Max.max r.lower o.lower) (Min.min r.upper o.upper)

/-- The least range that holds both. Beside an empty range the other one stands as it is. -/
def union : Range :=
  if r.isEmpty then o
  else if o.isEmpty then r
  else r.sentinels.interval (Min.min r.lower o.lower) (Max.max r.upper o.upper)

/-- The text of a range. -/
def text : String :=
  if r.isEmpty then "[⊥, ⊥]"
  else
    let lower := if r.lowerUnbounded then "-∞" else toString r.lower
    let upper := if r.upperUnbounded then "∞" else toString r.upper
    s!"[{lower}, {upper}]"

end Range

end ValueRange
