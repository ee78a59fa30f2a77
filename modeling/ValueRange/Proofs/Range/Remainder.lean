import ValueRange.Proofs.Range.Optimality
import ValueRange.Proofs.Range.RightShift

/-! Remainders and logical right shifts of all ranges that are not empty, also of those that lie
beyond a sentinel as a whole. A remainder needs the upper end of a range for its non-negative integers
only and the lower end for the others, and these ends are right wherever the range lies. A shift is
evaluated at its corners, which miss the amounts beyond the upper sentinel; such an amount shifts
every bit out. -/

namespace ValueRange

namespace Sentinels

variable {s : Sentinels}

/-- The upper sentinel, taken as an amount, shifts every bit between the sentinels out. -/
theorem bits_le_posInf (s : Sentinels) : (s.bits - 1 : Nat) ≤ s.posInf := by
  have hLt : s.bits - 1 < 2 ^ (s.bits - 1) := Nat.lt_two_pow_self
  have hCast : ((s.bits - 1 : Nat) : Int) < pow2 (s.bits - 1) := Int.ofNat_lt.mpr hLt
  unfold posInf
  omega

theorem ediv_pow2_eq_zero {x y : Int} (hx : 0 ≤ x) (hu : x < s.posInf) (hy : s.posInf ≤ y) :
    x / pow2 y.toNat = 0 := by
  have hBits := s.bits_le_posInf
  have hPow : pow2 (s.bits - 1) ≤ pow2 y.toNat := pow2_mono (by omega)
  unfold posInf at hu
  apply Int.ediv_eq_zero_of_lt hx
  omega

end Sentinels

namespace Range

open Extended

variable {s : Sentinels} {r o : Range} {x y z : Int}

section Far

variable (hr : WellFormed s r) (ho : WellFormed s o) (hn : r.isNonNegative = true)
  (hu : r.upper < s.posInf) (hFar : o.lower = s.posInf)
include hr ho hn hu hFar

/-- A bounded range of non-negative integers is shifted to zero by amounts beyond the sentinel. -/
theorem ashr_of_far (he : r.isEmpty = false) (he' : o.isEmpty = false) :
    r.ashr o = s.span (.fin 0) (.fin 0) := by
  have hBottom := s.negInf_neg
  have hTop := s.posInf_pos
  have hOrder := ho.lower_le_upper he'
  have hHigh := ho.le_posInf
  rw [isNonNegative_iff he] at hn
  have hBounded : Bounded s r := ⟨hr.sentinels_eq, he, by omega, hr.lower_le_upper he, hu⟩
  have hLe := hBounded.le
  have hEnds : o.ends = (.posInf, .posInf) := by
    rw [ends, ho.sentinels_eq, hFar, show o.upper = s.posInf by omega, s.toExtended_posInf]
  have hZero {n : Int} (hl : 0 ≤ n) (h : n < s.posInf) :
      shiftRight s.bits (.fin n) .posInf = some (.fin 0) := by
    have hPow : pow2 (s.bits - 1) ≤ pow2 s.bits := pow2_mono (by omega)
    unfold Sentinels.posInf at h
    rw [shiftRight_fin, show shiftAmount s.bits .posInf = s.bits from rfl,
      Int.ediv_eq_zero_of_lt hl (by omega)]
  have hLower := hZero hn (by omega)
  have hUpper := hZero (show 0 ≤ r.upper by omega) hu
  have hCombine := combine_of_some (f := shiftRight s.bits) he he'
    (by rw [hBounded.ends_eq, hEnds]; exact hLower) (by rw [hBounded.ends_eq, hEnds]; exact hLower)
    (by rw [hBounded.ends_eq, hEnds]; exact hUpper) (by rw [hBounded.ends_eq, hEnds]; exact hUpper)
  have hAmount : o.isNonNegative = true := (isNonNegative_iff he').mpr (by omega)
  rw [ashr, shift, if_not_empty he he', hAmount, hr.sentinels_eq, Bool.not_true,
    if_neg Bool.false_ne_true, hCombine, hr.sentinels_eq]
  simp only [min_self, max_self]

theorem ashr_admits_far (hx : r.Admits x) (hy : o.Admits y) :
    (r.ashr o).Admits (x / pow2 y.toNat) := by
  have hLower := hy.2.1
  have hUpper := hx.2.2
  have hSides := s.negInf_lt_posInf
  rw [ho.sentinels_eq] at hLower
  rw [hr.sentinels_eq] at hUpper
  have hZero : x / pow2 y.toNat = 0 :=
    Sentinels.ediv_pow2_eq_zero (hx.nonneg hn) (show x < s.posInf by omega) (by omega)
  rw [ashr_of_far hr ho hn hu hFar hx.1 hy.1, hZero]
  exact Sentinels.span_admits le_rfl le_rfl

end Far

/-- The logical right shifts of every integer that the range admits, by every amount. -/
theorem lshr_admits_beyond (hr : WellFormed s r) (ho : WellFormed s o) (hl : r.lower ≠ s.posInf)
    (hx : r.Admits x) (hy : o.Admits y) (hShift : 0 ≤ x → 0 ≤ y → z = x / pow2 y.toNat)
    (hSign : x < 0 → 0 ≤ y → 0 ≤ z ∨ (y = 0 ∧ z = x)) : (r.lshr o).Admits z := by
  have hBottom := s.negInf_neg
  have hOrder := hr.lower_le_upper hx.1
  have hOrder' := ho.lower_le_upper hy.1
  have hTop := hr.le_posInf
  have hTop' := ho.le_posInf
  by_cases hCorner : r.isNonNegative = true ∧ o.isNonNegative = true ∧
      r.upperUnbounded = true ∧ o.upperUnbounded = true
  · -- an infinity shifted by an infinity has no value at the corner
    obtain ⟨hn, hm, hu, hv⟩ := hCorner
    rw [lshr_of_unbounded hr hn hm hu hv]
    exact max_admits s z
  apply lshr_admits hx hy
  · intro hn hm
    have hx0 := hx.nonneg hn
    have hy0 := hy.nonneg hm
    have hrLower := (isNonNegative_iff hx.1).mp hn
    have hoLower := (isNonNegative_iff hy.1).mp hm
    rw [hShift hx0 hy0]
    by_cases hFar : o.lower = s.posInf
    · -- the amounts are all beyond the sentinel, so that the shifted range is bounded
      refine ashr_admits_far hr ho hn ?_ hFar hx hy
      have hv : o.upperUnbounded = true := by
        simp only [upperUnbounded, hy.1, ho.sentinels_eq, Bool.not_false, Bool.true_and, beq_iff_eq]
        omega
      have hu : r.upperUnbounded ≠ true := fun hu => hCorner ⟨hn, hm, hu, hv⟩
      simp only [upperUnbounded, hx.1, hr.sentinels_eq, Bool.not_false, Bool.true_and, ne_eq,
        beq_iff_eq] at hu
      omega
    · have hrOpen : Open r := ⟨by rw [hr.sentinels_eq]; omega, by rw [hr.sentinels_eq]; omega⟩
      have hoOpen : Open o := ⟨by rw [ho.sentinels_eq]; omega, by rw [ho.sentinels_eq]; omega⟩
      exact ashr_admits_beyond hrOpen hr hoOpen hOrder' hx hy hy0
  · intro hy0
    rcases le_or_gt 0 x with hx0 | hx0
    · rw [hShift hx0 hy0]
      exact .inl (Int.ediv_nonneg hx0 (pow2_pos _).le)
    · exact hSign hx0 hy0

/-- Remainders and logical right shifts are sound: for any two ranges that are not empty, they admit
every result on integers that the operands admit. A negative dividend or shifted integer stands for
one whose width is not known here, so that an unsigned remainder of it is anywhere below the divisor,
and a shift by a positive amount anywhere above zero. -/
theorem remainder_shift_sound (hr : WellFormed s r) (ho : WellFormed s o) (hx : r.Admits x)
    (hy : o.Admits y) :
    (y ≠ 0 → (r.srem o).Admits (x.tmod y)) ∧
    (0 ≤ x → 0 < y → (r.urem o).Admits (x % y)) ∧
    (x < 0 → 0 < y → ∀ z, 0 ≤ z → z < y → (r.urem o).Admits z) ∧
    (r.lower ≠ s.posInf →
      (0 ≤ x → 0 ≤ y → (r.lshr o).Admits (x / 2 ^ y.toNat)) ∧
      (x < 0 → y = 0 → (r.lshr o).Admits x) ∧
      (x < 0 → 0 < y → ∀ z, 0 ≤ z → (r.lshr o).Admits z)) := by
  refine ⟨srem_admits hx hy, fun hx0 hy0 => ?_, fun hx0 hy0 z hz hzy => ?_, fun hl => ⟨?_, ?_, ?_⟩⟩
  · apply urem_admits hx hy
    intro _
    obtain ⟨hLow, hHigh, hLe⟩ := emod_bounds hx0 hy0
    exact ⟨hLow, hHigh, fun _ => hLe⟩
  · apply urem_admits hx hy
    intro _
    exact ⟨hz, hzy, fun hx1 => absurd hx1 (by omega)⟩
  · intro hx0 hy0
    rw [← pow2_eq]
    apply lshr_admits_beyond hr ho hl hx hy (fun _ _ => rfl)
    intro hx1
    omega
  · intro hx0 hy0
    apply lshr_admits_beyond hr ho hl hx hy (fun hx1 => absurd hx1 (by omega))
    intro _ _
    exact .inr ⟨hy0, rfl⟩
  · intro hx0 hy0 z hz
    apply lshr_admits_beyond hr ho hl hx hy (fun hx1 => absurd hx1 (by omega))
    intro _ _
    exact .inl hz

/-- Dividends without an upper bound and divisors beyond the sentinel, in eight bits; and a bounded
range that such amounts shift to zero. -/
theorem remainder_shift_sound_eight :
    let s := Sentinels.ofWidth 8
    let r := s.interval (-7) 127
    let q := s.interval 3 100
    let o := s.interval 127 127
    (r.Admits 1000 ∧ r.Admits (-7) ∧ q.Admits 100 ∧ o.Admits 300) ∧
      (r.srem o).Admits (Int.tmod (-7) 300) ∧ (r.urem o).Admits (1000 % 300) ∧
      (r.urem o).Admits 299 ∧ (r.lshr o).Admits 5000 ∧
      (q.lshr o).Admits (100 / 2 ^ (300 : Int).toNat) ∧ q.lshr o = s.singleton 0 := by
  intro s r q o
  have hx : r.Admits 1000 := by decide
  have hx' : r.Admits (-7) := by decide
  have hq : q.Admits 100 := by decide
  have hy : o.Admits 300 := by decide
  have hr : WellFormed s r := .interval s (-7) 127
  have ho : WellFormed s o := .interval s 127 127
  have hBeyond := remainder_shift_sound hr ho hx hy
  have hNegative := remainder_shift_sound hr ho hx' hy
  have hFar := remainder_shift_sound (.interval s 3 100) ho hq hy
  exact ⟨⟨hx, hx', hq, hy⟩, hNegative.1 (by decide), hBeyond.2.1 (by decide) (by decide),
    hNegative.2.2.1 (by decide) (by decide) 299 (by decide) (by decide),
    (hNegative.2.2.2 (by decide)).2.2 (by decide) (by decide) 5000 (by decide),
    (hFar.2.2.2 (by decide)).1 (by decide) (by decide), by decide⟩

/-- A range that begins at the upper sentinel is shifted as infinite. -/
example : let s := Sentinels.ofWidth 8
    let r := s.interval 127 127
    r.Admits 127 ∧ ¬ (r.lshr (s.interval 1 1)).Admits (127 / 2) := by decide

end Range

end ValueRange
