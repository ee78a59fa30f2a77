import ValueRange.Range.Region
import ValueRange.Proofs.Range.Operations

/-! Range arithmetic is sound: the range of an operation admits the result of the operation on
integers that its operands admit. Sums, products, quotients and shifts come from their corners;
remainders and logical shifts are bounded by hand. -/

namespace ValueRange

namespace Extended

theorem isNegative_iff (a : Extended) : a.isNegative = true ↔ a < fin 0 := by
  cases a <;> simp [isNegative, lt_of_le_of_ne (negInf_le _)]

theorem isPositive_iff (a : Extended) : a.isPositive = true ↔ fin 0 < a := by
  cases a <;> simp [isPositive]

end Extended

namespace Sentinels

variable {s : Sentinels} {n : Int}

theorem pos_toExtended (h : 0 < n) : .fin 0 < s.toExtended n := by
  have := s.negInf_neg
  unfold toExtended
  split_ifs <;> simp <;> omega

theorem toExtended_neg (h : n < 0) : s.toExtended n < .fin 0 := by
  have := s.posInf_pos
  unfold toExtended
  split_ifs
  · exact lt_of_le_of_ne (Extended.negInf_le _) nofun
  · omega
  · simpa using h

theorem nonneg_toExtended (h : 0 ≤ n) : .fin 0 ≤ s.toExtended n := by
  have := s.negInf_neg
  unfold toExtended
  split_ifs <;> simp <;> omega

end Sentinels

namespace Range

open Extended

variable {s : Sentinels} {r o : Range} {x y z : Int}

/-- What lies further out than an integer that only an unbounded side admits is admitted too. -/
theorem Admits.above (h : r.Admits x) (hu : r.upper < x) (hy : x ≤ y) : r.Admits y := by
  obtain ⟨he, hl, hup⟩ := h
  exact ⟨he, by omega, .inl (by omega)⟩

theorem Admits.below (h : r.Admits x) (hl : x < r.lower) (hy : y ≤ x) : r.Admits y := by
  obtain ⟨he, hlo, hu⟩ := h
  exact ⟨he, .inl (by omega), by omega⟩

/-- Two ranges that are not empty pass the test for an empty operand. -/
theorem if_not_empty {α : Type} (hr : r.isEmpty = false) (ho : o.isEmpty = false) (a b : α) :
    (if (r.isEmpty || o.isEmpty) = true then a else b) = b := by
  rw [hr, ho]
  rfl

theorem isNonNegative_iff (he : r.isEmpty = false) : r.isNonNegative = true ↔ 0 ≤ r.lower := by
  simp [isNonNegative, he]

/-- A range with a non-negative lower side admits no negative integer. -/
theorem Admits.nonneg (h : r.Admits x) (hn : r.isNonNegative = true) : 0 ≤ x := by
  have := r.sentinels.negInf_neg
  rw [isNonNegative_iff h.1] at hn
  have := h.2.1
  omega

theorem add_admits (hr : Open r) (ho : Open o) (hx : r.Admits x) (hy : o.Admits y) :
    (r.add o).Admits (x + y) :=
  combine_admits add_boxed hr ho trivial trivial hx hy rfl

theorem sub_admits (hr : Open r) (ho : Open o) (hx : r.Admits x) (hy : o.Admits y) :
    (r.sub o).Admits (x - y) :=
  combine_admits sub_boxed hr ho trivial trivial hx hy rfl

theorem mul_admits (hr : Open r) (ho : Open o) (hx : r.Admits x) (hy : o.Admits y) :
    (r.mul o).Admits (x * y) :=
  combine_admits mul_boxed hr ho trivial trivial hx hy rfl

/-- A range without zero lies on one side of it. -/
theorem pos_or_neg (he : o.isEmpty = false) (h0 : 0 ∉ o) : 0 < o.lower ∨ o.upper < 0 := by
  by_contra h
  exact h0 ⟨he, by omega, by omega⟩

/-- The quotients by a divisor range without zero, whichever side of zero it lies on. -/
theorem quo_admits (hr : Open r) (ho : Open o) (hle : o.lower ≤ o.upper) (hx : r.Admits x)
    (hy : o.Admits y) (h0 : 0 ∉ o) : (r.combine o Extended.quo).Admits (x.tdiv y) := by
  rcases pos_or_neg hy.1 h0 with h | h
  · exact combine_admits quo_boxed hr ho (Sentinels.pos_toExtended h)
      (Sentinels.pos_toExtended (by omega)) hx hy rfl
  · exact combine_admits quo_boxed_neg hr ho (Sentinels.toExtended_neg (by omega))
      (Sentinels.toExtended_neg h) hx hy rfl

theorem sdiv_admits (hr : Open r) (ho : Open o) (hle : o.lower ≤ o.upper) (hx : r.Admits x)
    (hy : o.Admits y) : (r.sdiv o).Admits (x.tdiv y) := by
  rw [sdiv, if_not_empty hx.1 hy.1]
  split
  · exact max_admits _ _
  · exact quo_admits hr ho hle hx hy ‹_›

theorem udiv_admits (hr : Open r) (ho : Open o) (hle : o.lower ≤ o.upper) (hx : r.Admits x)
    (hy : o.Admits y) (hz : 0 ≤ x → 0 ≤ y → z = x.tdiv y) : (r.udiv o).Admits z := by
  rw [udiv, if_not_empty hx.1 hy.1]
  split
  · exact max_admits _ _
  · rename_i h
    simp only [Bool.or_eq_true, Bool.not_eq_true', decide_eq_true_eq, not_or,
      Bool.not_eq_false] at h
    obtain ⟨⟨hRight, hLeft⟩, h0⟩ := h
    rw [hz (hx.nonneg hRight) (hy.nonneg hLeft)]
    exact quo_admits hr ho hle hx hy h0

/-- The upper end is not below a non-negative integer of the range, whether the range is open or
not. -/
theorem le_ends_of_nonneg (h : r.Admits x) (hx : 0 ≤ x) : .fin x ≤ r.ends.2 := by
  have := r.sentinels.negInf_neg
  have := r.sentinels.posInf_pos
  have hUpper := h.2.2
  apply Sentinels.le_toExtended hUpper
  omega

theorem ends_le_of_nonpos (h : r.Admits x) (hx : x ≤ 0) : r.ends.1 ≤ .fin x := by
  have := r.sentinels.negInf_neg
  have := r.sentinels.posInf_pos
  have hLower := h.2.1
  apply Sentinels.toExtended_le hLower
  omega

theorem pred_mono {a b : Extended} (h : a ≤ b) : pred a ≤ pred b := by
  cases a <;> cases b <;> simp_all [pred, Extended.sub, neg, Extended.add]

theorem natAbs_le_abs {l u : Extended} (hl : y ≤ 0 → l ≤ .fin y) (hu : 0 ≤ y → .fin y ≤ u) :
    .fin y.natAbs ≤ Max.max l.abs u.abs := by
  rcases le_or_gt 0 y with h | h
  · replace hu := hu h
    refine le_trans ?_ (le_max_right _ _)
    cases u with
    | negInf => simp at hu
    | fin n =>
      rw [fin_le_fin] at hu
      simp only [Extended.abs, isNegative, decide_eq_true_eq, if_neg (show ¬ n < 0 by omega),
        fin_le_fin]
      omega
    | posInf => exact le_posInf _
  · replace hl := hl (le_of_lt h)
    refine le_trans ?_ (le_max_left _ _)
    cases l with
    | negInf => exact le_posInf _
    | fin n =>
      rw [fin_le_fin] at hl
      simp only [Extended.abs, isNegative, decide_eq_true_eq, if_pos (show n < 0 by omega), neg,
        fin_le_fin]
      omega
    | posInf => simp at hl

/-- A remainder has the sign of the dividend, and is neither larger than it nor as large as the
divisor. -/
theorem tmod_bounds (x : Int) (hy : y ≠ 0) :
    (x.tmod y).natAbs < y.natAbs ∧ (0 ≤ x → 0 ≤ x.tmod y ∧ x.tmod y ≤ x) ∧
      (x ≤ 0 → x ≤ x.tmod y ∧ x.tmod y ≤ 0) := by
  have hAbs := Int.natAbs_tmod x y
  have hLt : x.natAbs % y.natAbs < y.natAbs := Nat.mod_lt _ (by omega)
  have hLe : x.natAbs % y.natAbs ≤ x.natAbs := Nat.mod_le _ _
  refine ⟨by omega, fun hx => ?_, fun hx => ?_⟩
  · have := Int.tmod_nonneg y hx
    omega
  · have hNeg : 0 ≤ (-x).tmod y := Int.tmod_nonneg y (by omega)
    rw [Int.neg_tmod] at hNeg
    omega

theorem emod_bounds (hx : 0 ≤ x) (hy : 0 < y) : 0 ≤ x % y ∧ x % y < y ∧ x % y ≤ x := by
  obtain ⟨hAbs, hPos, -⟩ := tmod_bounds x (show y ≠ 0 by omega)
  rw [Int.tmod_eq_emod_of_nonneg hx] at hAbs hPos
  have := hPos hx
  omega

/-- The signed remainders by divisors other than zero, where `m` is one less than the largest
divisor. -/
theorem srem_eq (hr : r.isEmpty = false) (ho : o.isEmpty = false) (h0 : 0 ∉ o) {m : Extended}
    (hm : pred (Max.max o.ends.1.abs o.ends.2.abs) = m) :
    r.srem o = if .fin 0 ≤ r.ends.1 then r.sentinels.span (.fin 0) (Min.min r.ends.2 m)
      else if r.ends.2 ≤ .fin 0 then r.sentinels.span (Max.max r.ends.1 m.neg) (.fin 0)
      else r.sentinels.span (Max.max r.ends.1 m.neg) (Min.min r.ends.2 m) := by
  rw [srem, if_not_empty hr ho, if_neg h0, ← hm]
  simp only [← not_lt, ← isNegative_iff, ← isPositive_iff, Bool.not_eq_true, ← Bool.not_eq_true']
  rfl

theorem srem_admits (hx : r.Admits x) (hy : o.Admits y) (hne : y ≠ 0) :
    (r.srem o).Admits (x.tmod y) := by
  by_cases h0 : 0 ∈ o
  · rw [srem, if_not_empty hx.1 hy.1, if_pos h0]
    exact max_admits _ _
  obtain ⟨hAbs, hPos, hNeg⟩ := tmod_bounds x hne
  have hDivisor := pred_mono (natAbs_le_abs (ends_le_of_nonpos hy) (le_ends_of_nonneg hy))
  generalize hm : pred (Max.max o.ends.1.abs o.ends.2.abs) = m at hDivisor
  have hUpper : .fin (x.tmod y) ≤ m := by
    refine le_trans ?_ hDivisor
    simp only [pred, Extended.sub, neg, Extended.add, Option.getD_some, fin_le_fin]
    omega
  have hLower : m.neg ≤ .fin (x.tmod y) := by
    refine le_trans (neg_le_neg hDivisor) ?_
    simp only [pred, Extended.sub, neg, Extended.add, Option.getD_some, fin_le_fin]
    omega
  rw [srem_eq hx.1 hy.1 h0 hm]
  rcases le_or_gt 0 x with hx0 | hx0
  · -- the remainder lies between zero and the upper end
    have hZero : .fin 0 ≤ Extended.fin (x.tmod y) := by simpa using (hPos hx0).1
    have hEnd : .fin (x.tmod y) ≤ r.ends.2 :=
      le_trans (by simpa using (hPos hx0).2) (le_ends_of_nonneg hx hx0)
    split_ifs with hl hu
    · exact Sentinels.span_admits hZero (le_min hEnd hUpper)
    · exact Sentinels.span_admits (max_le (le_trans (le_of_not_ge hl) hZero) hLower)
        (le_trans hEnd hu)
    · exact Sentinels.span_admits (max_le (le_trans (le_of_not_ge hl) hZero) hLower)
        (le_min hEnd hUpper)
  · -- the remainder lies between the lower end and zero
    have hZero : Extended.fin (x.tmod y) ≤ .fin 0 := by simpa using (hNeg hx0.le).2
    have hEnd : r.ends.1 ≤ .fin (x.tmod y) :=
      le_trans (ends_le_of_nonpos hx hx0.le) (by simpa using (hNeg hx0.le).1)
    split_ifs with hl hu
    · have hNonneg : 0 ≤ x := by simpa using le_trans hl (ends_le_of_nonpos hx hx0.le)
      omega
    · exact Sentinels.span_admits (max_le hEnd hLower) hZero
    · exact Sentinels.span_admits (max_le hEnd hLower)
        (le_min (le_trans hZero (le_of_not_ge hu)) hUpper)

theorem urem_admits (hx : r.Admits x) (hy : o.Admits y)
    (hz : 0 < y → 0 ≤ z ∧ z < y ∧ (0 ≤ x → z ≤ x)) : (r.urem o).Admits z := by
  rw [urem, if_not_empty hx.1 hy.1]
  split
  · exact max_admits _ _
  · rename_i h
    simp only [Bool.or_eq_true, Bool.not_eq_true', decide_eq_true_eq, not_or,
      Bool.not_eq_false] at h
    have hy0 : 0 < y := by
      have hNonneg := hy.nonneg h.1
      have hNe : y ≠ 0 := by
        rintro rfl
        exact h.2 (hy.mem (le_of_lt (Sentinels.negInf_neg _)) (le_of_lt (Sentinels.posInf_pos _)))
      omega
    obtain ⟨hz0, hzy, hzx⟩ := hz hy0
    have hPred : .fin z ≤ pred o.ends.2 := by
      refine le_trans ?_ (pred_mono (le_ends_of_nonneg hy hy0.le))
      simp only [pred, Extended.sub, neg, Extended.add, Option.getD_some, fin_le_fin]
      omega
    refine Sentinels.span_admits (by simpa using hz0) ?_
    split
    · have hx0 := hx.nonneg ‹_›
      exact le_min (le_trans (by simpa using hzx hx0) (le_ends_of_nonneg hx hx0)) hPred
    · exact hPred

/-- A shift by the ends of a range of amounts. -/
theorem shift_admits {f : Corner} (hf : Boxed f fun y => .fin 0 ≤ y) (hr : Open r) (ho : Open o)
    (hle : o.lower ≤ o.upper) (hx : r.Admits x) (hy : o.Admits y)
    (hz : f (.fin x) (.fin y) = some (.fin z)) : (r.shift o f).Admits z := by
  rw [shift, if_not_empty hx.1 hy.1]
  split
  · exact max_admits _ _
  · rename_i h
    simp only [Bool.not_eq_true', Bool.not_eq_false, isNonNegative_iff hy.1] at h
    exact combine_admits hf hr ho (Sentinels.nonneg_toExtended h)
      (Sentinels.nonneg_toExtended (by omega)) hx hy hz

theorem WellFormed.shift (hr : WellFormed s r) (o : Range) (f : Corner) :
    WellFormed s (r.shift o f) := by
  rw [← hr.sentinels_eq]
  unfold Range.shift
  split
  · exact .empty
  · split
    · exact .max _
    · exact .combine (by rw [hr.sentinels_eq]; exact hr) o f

theorem shiftAmount_of_lt {limit : Nat} (hy : 0 ≤ y) (h : y < limit) :
    shiftAmount limit (.fin y) = y.toNat := if_pos ⟨hy, h⟩

theorem shiftAmount_of_le {limit : Nat} (h : (limit : Int) ≤ y) :
    shiftAmount limit (.fin y) = limit := if_neg (by omega)

/-- The left shifts by any amount: one that is cut off at the width leaves the sentinels. -/
theorem shl_admits (hr : Open r) (hw : WellFormed s r) (ho : Open o) (hle : o.lower ≤ o.upper)
    (hx : r.Admits x) (hy : o.Admits y) (hy0 : 0 ≤ y) :
    (r.shl o).Admits (x * pow2 y.toNat) := by
  have hCut : (r.shl o).Admits (x * pow2 (shiftAmount r.sentinels.bits (.fin y))) :=
    shift_admits (shiftLeft_boxed _) hr ho hle hx hy (shiftLeft_fin _ x y)
  by_cases h : y < r.sentinels.bits
  · rw [shiftAmount_of_lt hy0 h] at hCut
    exact hCut
  · rw [shiftAmount_of_le (by omega)] at hCut
    have hPow : pow2 r.sentinels.bits ≤ pow2 y.toNat := pow2_mono (by omega)
    have hForm : WellFormed s (r.shl o) := hw.shift o _
    have hUpper := hForm.le_posInf
    have hLower := hForm.negInf_le
    have hBits : pow2 (s.bits - 1) < pow2 r.sentinels.bits := by
      have := s.two_le_bits
      rw [hw.sentinels_eq]
      exact pow2_strictMono (by omega)
    unfold Sentinels.posInf at hUpper
    unfold Sentinels.negInf at hLower
    have hPos : 0 ≤ pow2 r.sentinels.bits := le_of_lt (pow2_pos _)
    rcases lt_trichotomy x 0 with hx0 | rfl | hx0
    · have hOut : x * pow2 r.sentinels.bits ≤ -1 * pow2 r.sentinels.bits :=
        Int.mul_le_mul_of_nonneg_right (by omega) hPos
      exact hCut.below (by omega) (Int.mul_le_mul_of_nonpos_left (by omega) hPow)
    · simpa using hCut
    · have hOut : 1 * pow2 r.sentinels.bits ≤ x * pow2 r.sentinels.bits :=
        Int.mul_le_mul_of_nonneg_right (by omega) hPos
      exact hCut.above (by omega) (Int.mul_le_mul_of_nonneg_left hPow (by omega))

/-- A right shift by the width or more leaves only the sign. -/
theorem ediv_pow2_saturate {k k' : Nat} (hl : -pow2 k ≤ x) (hu : x < pow2 k) (h : k ≤ k') :
    x / pow2 k' = x / pow2 k := by
  have hPow := pow2_mono h
  rcases le_or_gt 0 x with hx | hx
  · rw [Int.ediv_eq_zero_of_lt hx hu, Int.ediv_eq_zero_of_lt hx (by omega)]
  · have hNeg : x / pow2 k' < 0 := Int.ediv_neg_of_neg_of_pos hx (pow2_pos k')
    have hLow : -1 ≤ x / pow2 k := Int.le_ediv_of_mul_le (pow2_pos k) (by omega)
    have := ediv_pow2_mono hx h
    omega

/-- The arithmetic right shifts of integers between the sentinels. -/
theorem ashr_admits (hr : Open r) (ho : Open o) (hle : o.lower ≤ o.upper) (hx : r.Admits x)
    (hy : o.Admits y) (hy0 : 0 ≤ y) (hLow : r.sentinels.negInf ≤ x)
    (hHigh : x ≤ r.sentinels.posInf) : (r.ashr o).Admits (x / pow2 y.toNat) := by
  have hCut : (r.ashr o).Admits (x / pow2 (shiftAmount r.sentinels.bits (.fin y))) :=
    shift_admits (shiftRight_boxed _) hr ho hle hx hy (shiftRight_fin _ x (.fin y))
  by_cases h : y < r.sentinels.bits
  · rw [shiftAmount_of_lt hy0 h] at hCut
    exact hCut
  · have hPow : pow2 (r.sentinels.bits - 1) ≤ pow2 r.sentinels.bits := pow2_mono (by omega)
    unfold Sentinels.negInf at hLow
    unfold Sentinels.posInf at hHigh
    rw [shiftAmount_of_le (by omega), ← ediv_pow2_saturate (by omega) (by omega)
      (show r.sentinels.bits ≤ y.toNat by omega)] at hCut
    exact hCut

/-- The logical right shifts, given the arithmetic ones of non-negative ranges. What is shifted out
of the sign is not negative, unless the amount is zero. -/
theorem lshr_admits (hx : r.Admits x) (hy : o.Admits y)
    (hShift : r.isNonNegative = true → o.isNonNegative = true → (r.ashr o).Admits z)
    (hSign : 0 ≤ y → 0 ≤ z ∨ (y = 0 ∧ z = x)) : (r.lshr o).Admits z := by
  rw [lshr, if_not_empty hx.1 hy.1]
  split_ifs with hn hm h0
  · cases hm : o.isNonNegative with
    | true => exact hShift hn hm
    | false =>
      rw [ashr, shift, if_not_empty hx.1 hy.1, hm]
      exact max_admits _ _
  · exact max_admits _ _
  all_goals
    rw [isNonNegative_iff hx.1] at hn
    simp only [Bool.not_eq_true', Bool.not_eq_false] at hm
    refine interval_admits_sides ?_ (.inl rfl)
  · rcases hSign (hy.nonneg hm) with hz | ⟨-, rfl⟩
    · exact .inr (by omega)
    · exact hx.2.1
  · have := hSign (hy.nonneg hm)
    have := hy.2.1
    have := o.sentinels.negInf_neg
    rw [isNonNegative_iff hy.1] at hm
    exact .inr (by omega)

theorem Admits.le_of_bounded (h : r.Admits x) (hu : r.upperUnbounded = false) : x ≤ r.upper := by
  simp only [upperUnbounded, h.1, Bool.not_false, Bool.true_and, beq_eq_false_iff_ne] at hu
  exact h.2.2.resolve_left hu

theorem Admits.ge_of_bounded (h : r.Admits x) (hl : r.lowerUnbounded = false) : r.lower ≤ x := by
  simp only [lowerUnbounded, h.1, Bool.not_false, Bool.true_and, beq_eq_false_iff_ne] at hl
  exact h.2.1.resolve_left hl

theorem upper_of_unbounded (h : r.upperUnbounded = true) : r.upper = r.sentinels.posInf := by
  simp only [upperUnbounded, Bool.and_eq_true, beq_iff_eq] at h
  exact h.2

theorem lower_of_unbounded (h : r.lowerUnbounded = true) : r.lower = r.sentinels.negInf := by
  simp only [lowerUnbounded, Bool.and_eq_true, beq_iff_eq] at h
  exact h.2

/-- The upper side of a region below what the range admits. -/
theorem region_upper (ho : o.sentinels = s) (hy : o.Admits y) (h : x < y) :
    (if o.upperUnbounded then o.upper else o.upper - 1) = s.posInf ∨
      x ≤ if o.upperUnbounded then o.upper else o.upper - 1 := by
  split_ifs with hu
  · exact .inl (by rw [upper_of_unbounded hu, ho])
  · have := hy.le_of_bounded (Bool.not_eq_true _ ▸ hu)
    exact .inr (by omega)

/-- The lower side of a region above what the range admits. -/
theorem region_lower (ho : o.sentinels = s) (hy : o.Admits y) (h : y < x) :
    (if o.lowerUnbounded then o.lower else o.lower + 1) = s.negInf ∨
      (if o.lowerUnbounded then o.lower else o.lower + 1) ≤ x := by
  split_ifs with hl
  · exact .inl (by rw [lower_of_unbounded hl, ho])
  · have := hy.ge_of_bounded (Bool.not_eq_true _ ▸ hl)
    exact .inr (by omega)

theorem WellFormed.region (ho : WellFormed s o) (c : Comparison) :
    WellFormed s (Range.region s c o) := by
  unfold Range.region
  split
  · exact .max s
  · cases c with
    | eq => exact ho
    | ne | ugt | uge => exact .max s
    | slt | sle | sgt | sge => exact .interval s _ _
    | ult | ule =>
      dsimp only
      split
      · exact .max s
      · exact .interval s _ _

/-- The region of a comparison admits every integer that compares so with an integer that the bound
admits. -/
theorem region_admits (ho : o.sentinels = s) (hy : o.Admits y) {c : Comparison}
    (h : c.Holds x y) : (region s c o).Admits x := by
  have hLower := hy.2.1
  have hUpper := hy.2.2
  rw [ho] at hLower hUpper
  unfold region
  rw [hy.1]
  cases c with
  | eq =>
    change x = y at h
    rw [h]
    exact hy
  | ne => exact max_admits s x
  | slt => exact interval_admits_sides (.inl rfl) (region_upper ho hy h)
  | sle =>
    change x ≤ y at h
    exact interval_admits_sides (.inl rfl) (by omega)
  | sgt => exact interval_admits_sides (region_lower ho hy h) (.inl rfl)
  | sge =>
    change y ≤ x at h
    exact interval_admits_sides (by omega) (.inl rfl)
  | ult =>
    change (if o.lower < 0 then s.max else s.interval 0
      (if o.upperUnbounded then o.upper else o.upper - 1)).Admits x
    split
    · exact max_admits s x
    · have hy0 := hy.nonneg ((isNonNegative_iff hy.1).mpr (by omega))
      simp only [Comparison.Holds, Comparison.UnsignedLt, hy0, if_true] at h
      split at h
      · exact interval_admits_sides (.inr ‹_›) (region_upper ho hy h)
      · exact h.elim
  | ule =>
    change (if o.lower < 0 then s.max else s.interval 0 o.upper).Admits x
    split
    · exact max_admits s x
    · have hy0 := hy.nonneg ((isNonNegative_iff hy.1).mpr (by omega))
      simp only [Comparison.Holds, Comparison.UnsignedLt, hy0, if_true] at h
      split at h
      · exact interval_admits_sides (.inr ‹_›) (by omega)
      · exact (h trivial).elim
  | ugt => exact max_admits s x
  | uge => exact max_admits s x

end Range

end ValueRange
