import ValueRange.Range.Bitwise
import ValueRange.Proofs.Range.Soundness

/-! Range arithmetic keeps ranges well-formed and is monotone: smaller operands give a smaller
result. -/

namespace ValueRange

theorem bitLength_mono {m n : Nat} (h : m ≤ n) : bitLength m ≤ bitLength n := by
  unfold bitLength
  split_ifs with hm hn hn
  · exact le_refl 0
  · omega
  · omega
  · have : m.log2 ≤ n.log2 := (Nat.le_log2 hn).mpr (le_trans (Nat.log2_self_le hm) h)
    omega

theorem allOnes_mono {m n : Int} (h : m ≤ n) : allOnes m ≤ allOnes n := by
  have := pow2_mono (bitLength_mono (Int.toNat_le_toNat h))
  unfold allOnes
  omega

namespace Range

open Extended

variable {s : Sentinels} {r o r' o' : Range}

section WellFormed

theorem WellFormed.sdiv (hr : WellFormed s r) (o : Range) : WellFormed s (r.sdiv o) := by
  unfold Range.sdiv
  rw [hr.sentinels_eq]
  split
  · exact .empty
  · split
    · exact .max s
    · exact hr.combine o _

theorem WellFormed.udiv (hr : WellFormed s r) (o : Range) : WellFormed s (r.udiv o) := by
  unfold Range.udiv
  rw [hr.sentinels_eq]
  split
  · exact .empty
  · split
    · exact .max s
    · exact hr.combine o _

theorem WellFormed.srem (hr : WellFormed s r) (o : Range) : WellFormed s (r.srem o) := by
  unfold Range.srem
  rw [hr.sentinels_eq]
  split
  · exact .empty
  · split
    · exact .max s
    · dsimp only
      split
      · exact .span s _ _
      · split <;> exact .span s _ _

theorem WellFormed.urem (hr : WellFormed s r) (o : Range) : WellFormed s (r.urem o) := by
  unfold Range.urem
  rw [hr.sentinels_eq]
  split
  · exact .empty
  · split
    · exact .max s
    · exact .span s _ _

theorem WellFormed.lshr (hr : WellFormed s r) (o : Range) : WellFormed s (r.lshr o) := by
  unfold Range.lshr
  rw [hr.sentinels_eq]
  split
  · exact .empty
  · split
    · exact hr.shift o _
    · split
      · exact .max s
      · exact .interval s _ _

theorem WellFormed.and (hr : WellFormed s r) (o : Range) : WellFormed s (r.and o) := by
  unfold Range.and
  rw [hr.sentinels_eq]
  split
  · exact .empty
  · split
    · exact .interval s _ _
    · split
      · exact .interval s _ _
      · split
        · exact .interval s _ _
        · exact .max s

theorem WellFormed.or (hr : WellFormed s r) (o : Range) : WellFormed s (r.or o) := by
  unfold Range.or
  rw [hr.sentinels_eq]
  split
  · exact .empty
  · split
    · exact .interval s _ _
    · split <;> exact .interval s _ _

theorem WellFormed.xor (hr : WellFormed s r) (o : Range) : WellFormed s (r.xor o) := by
  unfold Range.xor
  rw [hr.sentinels_eq]
  split
  · exact .empty
  · split
    · exact .interval s _ _
    · exact .max s

end WellFormed

section Monotone

/-- Operands of ranges that are not empty, within larger ones. -/
structure Within (s : Sentinels) (r o r' o' : Range) : Prop where
  left : WellFormed s r
  right : WellFormed s o
  left' : WellFormed s r'
  right' : WellFormed s o'
  subset : r ⊆ r'
  subset' : o ⊆ o'
  nonempty : r.isEmpty = false
  nonempty' : o.isEmpty = false

namespace Within

theorem nonempty_left (h : Within s r o r' o') : r'.isEmpty = false :=
  not_isEmpty_of_subset h.subset h.nonempty

theorem nonempty_right (h : Within s r o r' o') : o'.isEmpty = false :=
  not_isEmpty_of_subset h.subset' h.nonempty'

theorem bounds (h : Within s r o r' o') : r'.lower ≤ r.lower ∧ r.upper ≤ r'.upper :=
  bounds_of_subset h.subset h.nonempty

theorem bounds' (h : Within s r o r' o') : o'.lower ≤ o.lower ∧ o.upper ≤ o'.upper :=
  bounds_of_subset h.subset' h.nonempty'

theorem nonneg_left (h : Within s r o r' o') (hn : r'.isNonNegative = true) :
    r.isNonNegative = true := by
  rw [isNonNegative_iff h.nonempty_left] at hn
  rw [isNonNegative_iff h.nonempty]
  exact le_trans hn h.bounds.1

theorem nonneg_right (h : Within s r o r' o') (hn : o'.isNonNegative = true) :
    o.isNonNegative = true := by
  rw [isNonNegative_iff h.nonempty_right] at hn
  rw [isNonNegative_iff h.nonempty']
  exact le_trans hn h.bounds'.1

theorem combine {f : Corner} {D : Extended → Prop} (h : Within s r o r' o') (hf : Boxed f D)
    (hl : D o'.ends.1) (hu : D o'.ends.2) : r.combine o f ⊆ r'.combine o' f :=
  combine_subset hf h.left h.right h.left' h.right' h.subset h.subset' hl hu

theorem quo (h : Within s r o r' o') (h0 : 0 ∉ o') :
    r.combine o Extended.quo ⊆ r'.combine o' Extended.quo := by
  have hle := h.right'.lower_le_upper h.nonempty_right
  rcases pos_or_neg h.nonempty_right h0 with hp | hn
  · exact h.combine quo_boxed (Sentinels.pos_toExtended hp) (Sentinels.pos_toExtended (by omega))
  · exact h.combine quo_boxed_neg (Sentinels.toExtended_neg (by omega))
      (Sentinels.toExtended_neg hn)

theorem sdiv (h : Within s r o r' o') : r.sdiv o ⊆ r'.sdiv o' := by
  have hForm := h.left.sdiv o
  rw [Range.sdiv, if_not_empty h.nonempty h.nonempty'] at hForm ⊢
  rw [Range.sdiv, if_not_empty h.nonempty_left h.nonempty_right, h.left'.sentinels_eq]
  by_cases h0 : 0 ∈ o'
  · rw [if_pos h0]
    exact subset_max hForm
  · rw [if_neg h0, if_neg fun h1 => h0 (mem_of_subset h.subset' h1)]
    exact h.quo h0

theorem udiv (h : Within s r o r' o') : r.udiv o ⊆ r'.udiv o' := by
  have hForm := h.left.udiv o
  rw [Range.udiv, if_not_empty h.nonempty h.nonempty'] at hForm ⊢
  rw [Range.udiv, if_not_empty h.nonempty_left h.nonempty_right, h.left'.sentinels_eq]
  by_cases hg : (!r'.isNonNegative || !o'.isNonNegative || decide (0 ∈ o')) = true
  · rw [if_pos hg]
    exact subset_max hForm
  · have hParts := hg
    simp only [Bool.or_eq_true, Bool.not_eq_true', decide_eq_true_eq, not_or,
      Bool.not_eq_false] at hParts
    have hg' : ¬ (!r.isNonNegative || !o.isNonNegative || decide (0 ∈ o)) = true := by
      rw [h.nonneg_left hParts.1.1, h.nonneg_right hParts.1.2]
      simpa using fun h1 => hParts.2 (mem_of_subset h.subset' h1)
    rw [if_neg hg, if_neg hg']
    exact h.quo hParts.2

theorem shift {f : Corner} (h : Within s r o r' o') (hf : Boxed f fun y => .fin 0 ≤ y) :
    r.shift o f ⊆ r'.shift o' f := by
  have hForm := h.left.shift o f
  rw [Range.shift, if_not_empty h.nonempty h.nonempty'] at hForm ⊢
  rw [Range.shift, if_not_empty h.nonempty_left h.nonempty_right, h.left'.sentinels_eq]
  cases hn : o'.isNonNegative with
  | false => exact subset_max hForm
  | true =>
    rw [h.nonneg_right hn]
    have hle := h.right'.lower_le_upper h.nonempty_right
    rw [isNonNegative_iff h.nonempty_right] at hn
    exact h.combine hf (Sentinels.nonneg_toExtended hn) (Sentinels.nonneg_toExtended (by omega))

/-- The magnitude of a number between two others is at most the larger of theirs. -/
theorem abs_le_max {l x u : Extended} (hl : l ≤ x) (hu : x ≤ u) :
    x.abs ≤ Max.max l.abs u.abs := by
  cases x with
  | negInf =>
    rw [eq_negInf hl]
    exact le_max_left _ _
  | fin n =>
    have hAbs : (Extended.fin n).abs = .fin n.natAbs := by
      simp only [Extended.abs, isNegative, decide_eq_true_eq, neg]
      split_ifs <;> simp only [Extended.fin.injEq] <;> omega
    rw [hAbs]
    exact natAbs_le_abs (fun _ => hl) fun _ => hu
  | posInf =>
    rw [eq_posInf hu]
    exact le_max_right _ _

/-- The signed remainders as one span. -/
theorem srem_span (hr : r.isEmpty = false) (ho : o.isEmpty = false) (h0 : 0 ∉ o) {m : Extended}
    (hm : pred (Max.max o.ends.1.abs o.ends.2.abs) = m) :
    r.srem o = r.sentinels.span
      (if .fin 0 ≤ r.ends.1 then .fin 0 else Max.max r.ends.1 m.neg)
      (if ¬ .fin 0 ≤ r.ends.1 ∧ r.ends.2 ≤ .fin 0 then .fin 0 else Min.min r.ends.2 m) := by
  rw [srem_eq hr ho h0 hm]
  by_cases hl : .fin 0 ≤ r.ends.1 <;> by_cases hu : r.ends.2 ≤ .fin 0 <;>
    simp only [hl, hu, if_true, if_false, not_true, not_false_iff, false_and, and_false, and_self]

theorem one_le_abs {a : Extended} (h : a ≠ .fin 0) : .fin 1 ≤ a.abs := by
  cases a with
  | fin n =>
    have hn : n ≠ 0 := fun h0 => h (congrArg Extended.fin h0)
    simp only [Extended.abs, isNegative, decide_eq_true_eq, neg]
    split_ifs <;> rw [fin_le_fin] <;> omega
  | _ => exact le_posInf _

/-- The largest divisor of a range without zero has a magnitude of at least one. -/
theorem pred_abs_nonneg (ho : o.isEmpty = false) (h0 : 0 ∉ o) :
    .fin 0 ≤ pred (Max.max o.ends.1.abs o.ends.2.abs) := by
  have hOne : .fin 1 ≤ Max.max o.ends.1.abs o.ends.2.abs := by
    rcases pos_or_neg ho h0 with hp | hn
    · exact le_trans (one_le_abs (ne_of_gt (Sentinels.pos_toExtended hp))) (le_max_left _ _)
    · exact le_trans (one_le_abs (ne_of_lt (Sentinels.toExtended_neg hn))) (le_max_right _ _)
  exact pred_mono hOne

theorem srem (h : Within s r o r' o') : r.srem o ⊆ r'.srem o' := by
  have hForm := h.left.srem o
  by_cases h0 : 0 ∈ o'
  · rw [show r'.srem o' = s.max by
      rw [Range.srem, if_not_empty h.nonempty_left h.nonempty_right, if_pos h0,
        h.left'.sentinels_eq]]
    exact subset_max hForm
  · obtain ⟨hll, hlu, hul, huu⟩ := ends_of_subset h.left h.left' h.subset h.nonempty
    obtain ⟨hll', hlu', hul', huu'⟩ := ends_of_subset h.right h.right' h.subset' h.nonempty'
    have h1 : 0 ∉ o := fun h1 => h0 (mem_of_subset h.subset' h1)
    -- the larger range of divisors has the larger magnitude
    have hm : pred (Max.max o.ends.1.abs o.ends.2.abs) ≤
        pred (Max.max o'.ends.1.abs o'.ends.2.abs) :=
      pred_mono (max_le (abs_le_max hll' hlu') (abs_le_max hul' huu'))
    have hm0 := pred_abs_nonneg h.nonempty_right h0
    rw [srem_span h.nonempty h.nonempty' h1 rfl,
      srem_span h.nonempty_left h.nonempty_right h0 rfl, h.left.sentinels_eq,
      h.left'.sentinels_eq]
    generalize pred (Max.max o.ends.1.abs o.ends.2.abs) = m at hm
    generalize pred (Max.max o'.ends.1.abs o'.ends.2.abs) = m' at hm hm0
    have hNeg0 : m'.neg ≤ .fin 0 := neg_le_neg hm0
    refine Sentinels.span_subset ?_ ?_
    · split_ifs with hl' hl hl
      · exact le_refl _
      · exact absurd (le_trans hl' hll) hl
      · exact max_le (le_of_not_ge hl') hNeg0
      · exact max_le_max hll (neg_le_neg hm)
    · split_ifs with hl hl' hl'
      · exact le_refl _
      · rw [not_and_or, not_not, not_le] at hl'
        rcases hl' with hl' | hu'
        · exact absurd (le_trans hl' hll) hl.1
        · exact le_min (le_of_lt hu') hm0
      · exact le_trans (min_le_left _ _) (le_trans huu hl'.2)
      · exact min_le_min huu hm

theorem urem (h : Within s r o r' o') : r.urem o ⊆ r'.urem o' := by
  have hForm := h.left.urem o
  rw [Range.urem, if_not_empty h.nonempty h.nonempty'] at hForm ⊢
  rw [Range.urem, if_not_empty h.nonempty_left h.nonempty_right, h.left'.sentinels_eq]
  by_cases hg : (!o'.isNonNegative || decide (0 ∈ o')) = true
  · rw [if_pos hg]
    exact subset_max hForm
  · have hParts := hg
    simp only [Bool.or_eq_true, Bool.not_eq_true', decide_eq_true_eq, not_or,
      Bool.not_eq_false] at hParts
    have hg' : ¬ (!o.isNonNegative || decide (0 ∈ o)) = true := by
      rw [h.nonneg_right hParts.1]
      simpa using fun h1 => hParts.2 (mem_of_subset h.subset' h1)
    have hEnd := (ends_of_subset h.left h.left' h.subset h.nonempty).2.2.2
    have hPred := pred_mono (ends_of_subset h.right h.right' h.subset' h.nonempty').2.2.2
    rw [if_neg hg, if_neg hg', h.left.sentinels_eq]
    refine Sentinels.span_subset (le_refl _) ?_
    split_ifs with hn hn' hn'
    · exact min_le_min hEnd hPred
    · exact le_trans (min_le_right _ _) hPred
    · exact absurd (h.nonneg_left hn') hn
    · exact hPred

theorem and (h : Within s r o r' o') : r.and o ⊆ r'.and o' := by
  have hForm := h.left.and o
  obtain ⟨hl, hu⟩ := h.bounds
  obtain ⟨hl', hu'⟩ := h.bounds'
  have hle := h.left.lower_le_upper h.nonempty
  have hle' := h.right.lower_le_upper h.nonempty'
  have hLeft := h.nonneg_left
  have hRight := h.nonneg_right
  rw [Range.and, if_not_empty h.nonempty h.nonempty', h.left.sentinels_eq] at hForm ⊢
  rw [Range.and, if_not_empty h.nonempty_left h.nonempty_right, h.left'.sentinels_eq]
  simp only [isNonNegative_iff h.nonempty, isNonNegative_iff h.nonempty',
    isNonNegative_iff h.nonempty_left, isNonNegative_iff h.nonempty_right] at *
  by_cases hn : 0 ≤ r'.lower
  · rw [if_pos hn, if_pos (hLeft hn)]
    refine interval_subset (le_refl _) ?_
    split_ifs <;> omega
  · rw [if_neg hn]
    by_cases hn' : 0 ≤ o'.lower
    · rw [if_pos hn']
      by_cases h1 : 0 ≤ r.lower
      · rw [if_pos h1, if_pos (hRight hn')]
        exact interval_subset (le_refl _) (by omega)
      · rw [if_neg h1, if_pos (hRight hn')]
        exact interval_subset (le_refl _) (by omega)
    · rw [if_neg hn']
      by_cases hneg : r'.upper < 0 ∧ o'.upper < 0
      · rw [if_pos hneg, if_neg (by omega), if_neg (by omega), if_pos (by omega)]
        exact interval_subset (le_refl _) (by omega)
      · rw [if_neg hneg]
        exact subset_max hForm

/-- The upper side of a disjunction of non-negative ranges grows with them. -/
theorem upper_mono (h : Within s r o r' o') :
    s.clamp (if r.upperUnbounded || o.upperUnbounded then s.posInf
      else allOnes (Max.max r.upper o.upper)) ≤
    s.clamp (if r'.upperUnbounded || o'.upperUnbounded then s.posInf
      else allOnes (Max.max r'.upper o'.upper)) := by
  obtain ⟨-, hu⟩ := h.bounds
  obtain ⟨-, hu'⟩ := h.bounds'
  have hTop := h.left'.le_posInf
  have hTop' := h.right'.le_posInf
  have hClamp : s.clamp s.posInf = s.posInf :=
    Sentinels.clamp_of_between (le_of_lt s.negInf_lt_posInf) (le_refl _)
  split_ifs with h1 h2 h2
  · exact le_refl _
  · simp only [upperUnbounded, h.nonempty, h.nonempty', h.nonempty_left, h.nonempty_right,
      h.left.sentinels_eq, h.right.sentinels_eq, h.left'.sentinels_eq, h.right'.sentinels_eq,
      Bool.not_false, Bool.true_and, Bool.or_eq_true, beq_iff_eq] at h1 h2
    omega
  · rw [hClamp]
    exact s.clamp_le_posInf _
  · exact s.clamp_mono (allOnes_mono (by omega))

theorem or (h : Within s r o r' o') : r.or o ⊆ r'.or o' := by
  obtain ⟨hl, hu⟩ := h.bounds
  obtain ⟨hl', hu'⟩ := h.bounds'
  have hle := h.left.lower_le_upper h.nonempty
  have hle' := h.right.lower_le_upper h.nonempty'
  have hUpper := h.upper_mono
  have hTop : s.clamp s.posInf = s.posInf :=
    Sentinels.clamp_of_between (le_of_lt s.negInf_lt_posInf) (le_refl _)
  rw [Range.or, if_not_empty h.nonempty h.nonempty', h.left.sentinels_eq]
  rw [Range.or, if_not_empty h.nonempty_left h.nonempty_right, h.left'.sentinels_eq]
  simp only [Bool.and_eq_true, isNonNegative_iff h.nonempty, isNonNegative_iff h.nonempty',
    isNonNegative_iff h.nonempty_left, isNonNegative_iff h.nonempty_right]
  by_cases hn : 0 ≤ r'.lower ∧ 0 ≤ o'.lower
  · rw [if_pos hn, if_pos (by omega)]
    exact interval_subset_of_clamp (s.clamp_mono (by omega)) hUpper
  · rw [if_neg hn]
    by_cases hneg : r'.upper < 0 ∧ o'.upper < 0
    · rw [if_pos hneg, if_neg (by omega), if_pos (by omega)]
      exact interval_subset (by omega) (le_refl _)
    · rw [if_neg hneg]
      have hBelow (u : Int) : s.clamp u ≤ s.clamp s.posInf := hTop.symm ▸ s.clamp_le_posInf u
      by_cases h1 : 0 ≤ r.lower ∧ 0 ≤ o.lower
      · rw [if_pos h1]
        exact interval_subset_of_clamp (s.clamp_mono (by omega)) (hBelow _)
      · rw [if_neg h1]
        split_ifs
        · exact interval_subset_of_clamp (s.clamp_mono (by omega)) (hBelow _)
        · exact interval_subset (by omega) (le_refl _)

theorem xor (h : Within s r o r' o') : r.xor o ⊆ r'.xor o' := by
  have hForm := h.left.xor o
  rw [Range.xor, if_not_empty h.nonempty h.nonempty', h.left.sentinels_eq] at hForm ⊢
  rw [Range.xor, if_not_empty h.nonempty_left h.nonempty_right, h.left'.sentinels_eq]
  by_cases hn : (r'.isNonNegative && o'.isNonNegative) = true
  · rw [Bool.and_eq_true] at hn
    rw [hn.1, hn.2, h.nonneg_left hn.1, h.nonneg_right hn.2]
    exact interval_subset_of_clamp (le_refl _) h.upper_mono
  · rw [if_neg hn]
    exact subset_max hForm

end Within

end Monotone

end Range

end ValueRange
