import ValueRange.Range.Basic
import ValueRange.Comparison

/-! The region that a comparison with a bounded operand leaves to the other operand. -/

namespace ValueRange.Range

/-- The integers `x` for which `x c y` may hold for some `y` in `bound`. A sentinel is never moved:
it stands for an infinity. An empty bound tells nothing. -/
def region (s : Sentinels) (c : Comparison) (bound : Range) : Range :=
  if bound.isEmpty then s.max
  else match c with
    | .eq => bound
    | .ne | .ugt | .uge => s.max
    | .slt => s.interval s.negInf (if bound.upperUnbounded then bound.upper else bound.upper - 1)
    | .sle => s.interval s.negInf bound.upper
    | .sgt => s.interval (if bound.lowerUnbounded then bound.lower else bound.lower + 1) s.posInf
    | .sge => s.interval bound.lower s.posInf
    | .ult =>
      if bound.lower < 0 then s.max
      else s.interval 0 (if bound.upperUnbounded then bound.upper else bound.upper - 1)
    | .ule => if bound.lower < 0 then s.max else s.interval 0 bound.upper

end ValueRange.Range
