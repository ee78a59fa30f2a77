import ValueRange.Range.Basic

/-! Arithmetic on ranges. Sums, products, quotients and shifts are evaluated at the four pairs of
ends of their operands; a pair at which the operation has no value leaves the result unbounded. -/

namespace ValueRange.Range

/-- A partial operation on extended integers. -/
abbrev Corner := Extended → Extended → Option Extended

variable (r o : Range)

/-- The four pairs of ends. -/
def corners : List (Extended × Extended) :=
  let (l, u) := r.ends
  let (l', u') := o.ends
  [(l, l'), (l, u'), (u, l'), (u, u')]

/-- The least range that holds the values of `f` at the four pairs of ends. -/
def combine (f : Corner) : Range :=
  if r.isEmpty || o.isEmpty then r.sentinels.empty
  else match (r.corners o).mapM fun c => f c.1 c.2 with
    | none => r.sentinels.max
    | some vs => r.sentinels.span (vs.foldl Extended.min .posInf) (vs.foldl Extended.max .negInf)

/-- Some pair of ends has a finite value under `f` that the type cannot represent. -/
def overflows (f : Corner) (t : IntType) : Bool :=
  !r.isEmpty && !o.isEmpty && t.isInteger &&
    (r.corners o).any fun c =>
      match f c.1 c.2 with
      | some (.fin n) => decide (n < t.minValue ∨ t.maxValue < n)
      | _ => false

/-- The sums of the two ranges' integers. -/
def add : Range := r.combine o Extended.add

/-- The differences. -/
def sub : Range := r.combine o Extended.sub

/-- The products. -/
def mul : Range := r.combine o Extended.mul

/-- The quotients truncated toward zero. A divisor that may be zero leaves them unbounded. -/
def sdiv : Range :=
  if r.isEmpty || o.isEmpty then r.sentinels.empty
  else if 0 ∈ o then r.sentinels.max
  else r.combine o Extended.quo

/-- The unsigned quotients, which are known for non-negative dividends and positive divisors. -/
def udiv : Range :=
  if r.isEmpty || o.isEmpty then r.sentinels.empty
  else if !r.isNonNegative || !o.isNonNegative || decide (0 ∈ o) then r.sentinels.max
  else r.combine o Extended.quo

/-- One less than an extended integer. -/
def pred (a : Extended) : Extended := (a.sub (.fin 1)).getD a

/-- The signed remainders: they have the dividend's sign and are smaller than the divisor in
magnitude. -/
def srem : Range :=
  if r.isEmpty || o.isEmpty then r.sentinels.empty
  else if 0 ∈ o then r.sentinels.max
  else
    let (l, u) := r.ends
    let (l', u') := o.ends
    let m := pred (Extended.max l'.abs u'.abs)
    if !l.isNegative then r.sentinels.span (.fin 0) (Extended.min u m)
    else if !u.isPositive then r.sentinels.span (Extended.max l m.neg) (.fin 0)
    else r.sentinels.span (Extended.max l m.neg) (Extended.min u m)

/-- The unsigned remainders. -/
def urem : Range :=
  if r.isEmpty || o.isEmpty then r.sentinels.empty
  else if !o.isNonNegative || decide (0 ∈ o) then r.sentinels.max
  else
    let m := pred o.ends.2
    r.sentinels.span (.fin 0) (if r.isNonNegative then Extended.min r.ends.2 m else m)

/-- A shift by the ends of `o`. An amount that may be negative leaves the result unbounded. -/
def shift (f : Corner) : Range :=
  if r.isEmpty || o.isEmpty then r.sentinels.empty
  else if !o.isNonNegative then r.sentinels.max
  else r.combine o f

/-- The left shifts; what leaves the sentinels saturates. -/
def shl : Range := r.shift o (Extended.shiftLeft r.sentinels.bits)

/-- The arithmetic right shifts. -/
def ashr : Range := r.shift o (Extended.shiftRight r.sentinels.bits)

/-- The logical right shifts. A negative integer shifts zeros in and becomes non-negative, unless
it is shifted by zero. -/
def lshr : Range :=
  if r.isEmpty || o.isEmpty then r.sentinels.empty
  else if r.isNonNegative then r.ashr o
  else if !o.isNonNegative then r.sentinels.max
  else r.sentinels.interval (if o.lower = 0 then r.lower else 0) r.sentinels.posInf

end ValueRange.Range
