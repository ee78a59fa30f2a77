import ValueRange.Proofs.Range.Monotone

/-! Right shifts of ranges that are not negative. A shift to the right does not enlarge a
non-negative integer, so that the shifted range lies between zero and the upper bound. The corner of
two unbounded sides has no value: a range without an upper bound becomes unbounded below too if it is
shifted by amounts without one, and there the logical shift is not monotone. -/

namespace ValueRange

namespace Sentinels

variable {s : Sentinels} {n : Int}

theorem ofExtended_toExtended (hl : s.negInf ≤ n) (hu : n ≤ s.posInf) :
    s.ofExtended (s.toExtended n) = n := by
  unfold toExtended
  split_ifs with h h'
  · exact le_antisymm hl h
  · exact le_antisymm h' hu
  · exact clamp_of_between hl hu

end Sentinels

namespace Range

open Extended

variable {s : Sentinels} {r o r' o' : Range}

theorem nonempty_of_isNonNegative (hn : r.isNonNegative = true) : r.isEmpty = false :=
  (Bool.not_eq_true' _).mp (Bool.and_eq_true_iff.mp hn).1

/-! ### Corners -/

/-- A shift to the right brings a number that is not negative closer to zero. -/
theorem shiftRight_between {limit : Nat} {x y v : Extended} (hx : .fin 0 ≤ x)
    (hv : shiftRight limit x y = some v) : .fin 0 ≤ v ∧ v ≤ x := by
  cases x with
  | negInf => simp at hx
  | fin m =>
    rw [shiftRight_fin] at hv
    cases hv
    rw [fin_le_fin] at hx
    rw [fin_le_fin, fin_le_fin]
    exact ⟨Int.ediv_nonneg hx (le_of_lt (pow2_pos _)), Int.ediv_le_self _ hx⟩
  | posInf => exact ⟨shiftRight_mono hx (by simp [shiftRight]) hv, le_posInf v⟩

/-- Only an infinity has no shift by an infinity. -/
theorem exists_shiftRight (limit : Nat) {x y : Extended} (h : (∃ m, x = .fin m) ∨ ∃ n, y = .fin n) :
    ∃ v, shiftRight limit x y = some v := by
  rcases h with ⟨m, rfl⟩ | ⟨n, rfl⟩
  · exact ⟨_, shiftRight_fin limit m y⟩
  · cases x with
    | fin m => exact ⟨_, shiftRight_fin limit m _⟩
    | _ => exact ⟨_, rfl⟩

/-- The ends of a non-negative range with an upper bound are finite. -/
theorem ends_finite (hr : WellFormed s r) (hn : r.isNonNegative = true)
    (hu : r.upperUnbounded = false) : (∃ m, r.ends.1 = .fin m) ∧ ∃ n, r.ends.2 = .fin n := by
  have he := nonempty_of_isNonNegative hn
  rw [isNonNegative_iff he] at hn
  simp only [upperUnbounded, he, Bool.not_false, Bool.true_and, beq_eq_false_iff_ne,
    hr.sentinels_eq] at hu
  have hle := hr.lower_le_upper he
  have hTop := hr.le_posInf
  have hBottom := s.negInf_neg
  have hFinite {n : Int} (hl : 0 ≤ n) (h : n < s.posInf) : s.toExtended n = .fin n := by
    rw [Sentinels.toExtended, if_neg (by omega), if_neg (by omega)]
  unfold ends
  rw [hr.sentinels_eq]
  exact ⟨⟨r.lower, hFinite hn (by omega)⟩, r.upper, hFinite (by omega) (by omega)⟩

theorem span_zero_ends (hr : WellFormed s r) (hn : r.isNonNegative = true) :
    s.span (.fin 0) r.ends.2 = s.interval 0 r.upper := by
  have he := nonempty_of_isNonNegative hn
  have hBottom := s.negInf_neg
  have hTop := s.posInf_pos
  have hLow := le_trans hr.negInf_le (hr.lower_le_upper he)
  have hZero : s.ofExtended (.fin 0) = 0 := Sentinels.clamp_of_between (by omega) (by omega)
  have hUpper : s.ofExtended r.ends.2 = r.upper := by
    rw [ends, hr.sentinels_eq]
    exact Sentinels.ofExtended_toExtended hLow hr.le_posInf
  rw [Sentinels.span, hZero, hUpper]

/-! ### Ranges -/

theorem ashr_eq_combine (hn : r.isNonNegative = true) (hm : o.isNonNegative = true) :
    r.ashr o = r.combine o (shiftRight r.sentinels.bits) := by
  rw [ashr, shift, if_not_empty (nonempty_of_isNonNegative hn) (nonempty_of_isNonNegative hm), hm,
    Bool.not_true, if_neg Bool.false_ne_true]

/-- The two right shifts agree on what is not negative. -/
theorem lshr_eq_ashr (hn : r.isNonNegative = true) (hm : o.isNonNegative = true) :
    r.lshr o = r.ashr o := by
  rw [lshr, if_not_empty (nonempty_of_isNonNegative hn) (nonempty_of_isNonNegative hm), if_pos hn]

/-- A non-negative range is shifted to the right between zero and its upper bound, unless the range
and the amount are both without one. -/
theorem ashr_subset (hr : WellFormed s r) (ho : WellFormed s o) (hn : r.isNonNegative = true)
    (hm : o.isNonNegative = true) (hu : r.upperUnbounded = false ∨ o.upperUnbounded = false) :
    r.ashr o ⊆ s.interval 0 r.upper := by
  have he := nonempty_of_isNonNegative hn
  have hCorners : ((∃ m, r.ends.1 = .fin m) ∧ ∃ n, r.ends.2 = .fin n) ∨
      ((∃ m, o.ends.1 = .fin m) ∧ ∃ n, o.ends.2 = .fin n) :=
    hu.imp (ends_finite hr hn) (ends_finite ho hm)
  obtain ⟨a, ha⟩ := exists_shiftRight r.sentinels.bits (hCorners.imp And.left And.left)
  obtain ⟨b, hb⟩ := exists_shiftRight r.sentinels.bits (hCorners.imp And.left And.right)
  obtain ⟨c, hc⟩ := exists_shiftRight r.sentinels.bits (hCorners.imp And.right And.left)
  obtain ⟨d, hd⟩ := exists_shiftRight r.sentinels.bits (hCorners.imp And.right And.right)
  have hOrder : r.ends.1 ≤ r.ends.2 := Sentinels.toExtended_mono (hr.lower_le_upper he)
  have hLeft : .fin 0 ≤ r.ends.1 := Sentinels.nonneg_toExtended ((isNonNegative_iff he).mp hn)
  have hRight := le_trans hLeft hOrder
  obtain ⟨ha0, haUp⟩ := shiftRight_between hLeft ha
  obtain ⟨hb0, hbUp⟩ := shiftRight_between hLeft hb
  obtain ⟨hc0, hcUp⟩ := shiftRight_between hRight hc
  obtain ⟨hd0, hdUp⟩ := shiftRight_between hRight hd
  rw [ashr_eq_combine hn hm, combine_of_some he (nonempty_of_isNonNegative hm) ha hb hc hd,
    hr.sentinels_eq, ← span_zero_ends hr hn]
  exact Sentinels.span_subset (le_min (le_min ha0 hb0) (le_min hc0 hd0))
    (max_le (max_le (le_trans haUp hOrder) (le_trans hbUp hOrder)) (max_le hcUp hdUp))

theorem lshr_nonneg (hr : WellFormed s r) (ho : WellFormed s o) (hn : r.isNonNegative = true)
    (hm : o.isNonNegative = true) (hu : r.upperUnbounded = false ∨ o.upperUnbounded = false)
    {x : Int} (hx : x ∈ r.lshr o) : 0 ≤ x := by
  have he := nonempty_of_isNonNegative hn
  rw [lshr_eq_ashr hn hm] at hx
  have hIn := mem_of_subset (ashr_subset hr ho hn hm hu) hx
  have hTop := s.posInf_pos
  exact (Sentinels.bounds_of_mem_interval (by omega)
    (le_trans hr.negInf_le (hr.lower_le_upper he)) hIn).1

/-- A shift is unbounded if the range and the amount have no upper bound. -/
theorem ashr_of_unbounded (hr : WellFormed s r) (hn : r.isNonNegative = true)
    (hm : o.isNonNegative = true) (hu : r.upperUnbounded = true)
    (hv : o.upperUnbounded = true) : r.ashr o = s.max := by
  have hTop {q : Range} (hq : q.upperUnbounded = true) : q.ends.2 = .posInf := by
    rw [ends, upper_of_unbounded hq, Sentinels.toExtended_posInf]
  rw [ashr_eq_combine hn hm]
  rcases combine_cases (f := shiftRight r.sentinels.bits) (nonempty_of_isNonNegative hn)
    (nonempty_of_isNonNegative hm) with hMax | ⟨-, -, -, d, -, -, -, hd⟩
  · rw [hMax, hr.sentinels_eq]
  · rw [hTop hu, hTop hv] at hd
    cases hd

theorem lshr_of_unbounded (hr : WellFormed s r) (hn : r.isNonNegative = true)
    (hm : o.isNonNegative = true) (hu : r.upperUnbounded = true)
    (hv : o.upperUnbounded = true) : r.lshr o = s.max :=
  (lshr_eq_ashr hn hm).trans (ashr_of_unbounded hr hn hm hu hv)

theorem not_max_subset (hr : WellFormed s r) (hn : r.isNonNegative = true) :
    ¬ s.max ⊆ s.interval 0 r.upper := by
  intro h
  have he := nonempty_of_isNonNegative hn
  have hBottom := s.negInf_neg
  have hOrder := hr.lower_le_upper he
  have hLower := (isNonNegative_iff he).mp hn
  have hBounds := bounds_of_subset h rfl
  rw [Sentinels.interval_of_between (le_of_lt hBottom) (by omega) hr.le_posInf] at hBounds
  exact absurd hBounds.1 (not_le.mpr hBottom)

theorem upperUnbounded_iff (hr : WellFormed s r) (he : r.isEmpty = false) :
    r.upperUnbounded = true ↔ r.upper = s.posInf := by
  simp [upperUnbounded, he, hr.sentinels_eq]

/-- Both right shifts of a non-negative range lie between zero and its upper bound exactly if the
range or the amount has an upper bound. If neither has one, the shifts are unbounded on both
sides. -/
theorem rightShift_subset_iff (hr : WellFormed s r) (ho : WellFormed s o) (he : r.isEmpty = false)
    (he' : o.isEmpty = false) (hn : 0 ≤ r.lower) (hm : 0 ≤ o.lower) :
    (r.ashr o ⊆ s.interval 0 r.upper ↔ r.upper ≠ s.posInf ∨ o.upper ≠ s.posInf) ∧
    (r.lshr o ⊆ s.interval 0 r.upper ↔ r.upper ≠ s.posInf ∨ o.upper ≠ s.posInf) ∧
    (r.upper = s.posInf → o.upper = s.posInf → r.ashr o = s.max ∧ r.lshr o = s.max) := by
  rw [← isNonNegative_iff he] at hn
  rw [← isNonNegative_iff he'] at hm
  have hBoth (hu : r.upper = s.posInf) (hv : o.upper = s.posInf) : r.ashr o = s.max :=
    ashr_of_unbounded hr hn hm ((upperUnbounded_iff hr he).mpr hu)
      ((upperUnbounded_iff ho he').mpr hv)
  have hIff : r.ashr o ⊆ s.interval 0 r.upper ↔ r.upper ≠ s.posInf ∨ o.upper ≠ s.posInf := by
    refine ⟨fun h => ?_, fun h => ashr_subset hr ho hn hm (h.imp (fun hu => ?_) fun hv => ?_)⟩
    · by_contra hNone
      rw [not_or, not_not, not_not] at hNone
      rw [hBoth hNone.1 hNone.2] at h
      exact not_max_subset hr hn h
    · rwa [ne_eq, ← upperUnbounded_iff hr he, Bool.not_eq_true] at hu
    · rwa [ne_eq, ← upperUnbounded_iff ho he', Bool.not_eq_true] at hv
  rw [lshr_eq_ashr hn hm]
  exact ⟨hIff, hIff, fun hu hv => ⟨hBoth hu hv, hBoth hu hv⟩⟩

/-- In eight bits, amounts without an upper bound shift a bounded range, and a bounded amount shifts
a range without an upper bound. -/
theorem rightShift_subset_iff_eight :
    let s := Sentinels.ofWidth 8
    let r := s.interval 5 100
    let q := s.interval 3 127
    (r.upper = 100 ∧ r.ashr q ⊆ s.interval 0 r.upper ∧ r.lshr q ⊆ s.interval 0 r.upper) ∧
      q.upper = s.posInf ∧ q.ashr r ⊆ s.interval 0 q.upper ∧ q.lshr r ⊆ s.interval 0 q.upper := by
  intro s r q
  have hr : WellFormed s r := .interval s 5 100
  have hq : WellFormed s q := .interval s 3 127
  have hAmount := rightShift_subset_iff hr hq (by decide) (by decide) (by decide) (by decide)
  have hRange := rightShift_subset_iff hq hr (by decide) (by decide) (by decide) (by decide)
  exact ⟨⟨by decide, hAmount.1.mpr (.inl (by decide)), hAmount.2.1.mpr (.inl (by decide))⟩,
    by decide, hRange.1.mpr (.inr (by decide)), hRange.2.1.mpr (.inr (by decide))⟩

/-- The non-negative integers without an upper bound, shifted by themselves, may be negative. -/
theorem unbounded_rightShift_negative :
    let s := Sentinels.ofWidth 8
    let r := s.interval 0 127
    WellFormed s r ∧ r.isEmpty = false ∧ r.lower = 0 ∧ r.upper = s.posInf ∧
      ¬ r.ashr r ⊆ s.interval 0 r.upper ∧ ¬ r.lshr r ⊆ s.interval 0 r.upper ∧
      -128 ∈ r.ashr r ∧ -128 ∈ r.lshr r := by
  intro s r
  exact ⟨.interval s 0 127, by decide⟩

/-- What a logical right shift holds is in that of larger ranges. Two operands that are not negative
count with the part that is not negative: at the undefined corner of two unbounded sides their shift
is unbounded below too. -/
theorem Within.mem_lshr (h : Within s r o r' o') {x : Int} (hx : x ∈ r.lshr o)
    (hNonneg : r.isNonNegative = true → o.isNonNegative = true → 0 ≤ x) : x ∈ r'.lshr o' := by
  obtain ⟨hLow, hHigh⟩ := (h.left.lshr o).mem_bounds hx
  obtain ⟨hl, -⟩ := h.bounds
  obtain ⟨hl', -⟩ := h.bounds'
  rw [Range.lshr, if_not_empty h.nonempty h.nonempty', h.left.sentinels_eq] at hx
  rw [Range.lshr, if_not_empty h.nonempty_left h.nonempty_right, h.left'.sentinels_eq]
  by_cases hn : r'.isNonNegative = true
  · rw [if_pos (h.nonneg_left hn), ashr, h.left.sentinels_eq] at hx
    rw [if_pos hn, ashr, h.left'.sentinels_eq]
    exact mem_of_subset (h.shift (shiftRight_boxed _)) hx
  · rw [if_neg hn]
    cases hm : o'.isNonNegative with
    | false => exact ⟨rfl, hLow, hHigh⟩
    | true =>
      have hm1 := h.nonneg_right hm
      rw [isNonNegative_iff h.nonempty_left] at hn
      have hZero : 0 ≤ o'.lower := (isNonNegative_iff h.nonempty_right).mp hm
      simp only [Bool.not_true, Bool.false_eq_true, if_false, hm1] at hx ⊢
      by_cases hn1 : r.isNonNegative = true
      · have hx0 := hNonneg hn1 hm1
        refine Sentinels.mem_interval ?_ hHigh hLow hHigh
        split_ifs <;> omega
      · rw [if_neg hn1] at hx
        rw [isNonNegative_iff h.nonempty] at hn1
        refine mem_of_subset (interval_subset ?_ (le_refl _)) hx
        split_ifs <;> omega

end Range

end ValueRange
