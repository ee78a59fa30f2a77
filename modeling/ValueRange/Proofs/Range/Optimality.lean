import Mathlib
import ValueRange.Proofs.Range.Soundness

/-! Range arithmetic is optimal on bounded operands. There the four corners are results themselves,
and the least and the greatest of them bound all results, so that the range of an operation is the
hull of its results, clamped to the sentinels. A shift that is cut off at the width gives another
number than the full shift, but one that clamps to the same bound. -/

namespace ValueRange

theorem pow2_eq (k : Nat) : pow2 k = 2 ^ k := by
  simp [pow2]

namespace Extended

theorem fin_mono : Monotone fin := fun m n h => (fin_le_fin m n).mpr h

end Extended

namespace Range

open Extended

variable {s : Sentinels} {r o : Range} {x y z : Int}

/-! ### Shifts of unbounded ranges -/

theorem Admits.convex (hx : r.Admits x) (hy : r.Admits y) (hl : x ≤ z) (hu : z ≤ y) :
    r.Admits z := by
  obtain ⟨he, hLower, -⟩ := hx
  obtain ⟨-, -, hUpper⟩ := hy
  exact ⟨he, by omega, by omega⟩

/-- The arithmetic right shifts of every integer that the range admits. An integer beyond a sentinel
is shifted to a place between those of the sentinel and of integers still further out. -/
theorem ashr_admits_beyond (hr : Open r) (hw : WellFormed s r) (ho : Open o)
    (hle : o.lower ≤ o.upper) (hx : r.Admits x) (hy : o.Admits y) (hy0 : 0 ≤ y) :
    (r.ashr o).Admits (x / pow2 y.toNat) := by
  have hBottom : r.sentinels.negInf ≤ r.lower := hw.sentinels_eq ▸ hw.negInf_le
  have hTop : r.upper ≤ r.sentinels.posInf := hw.sentinels_eq ▸ hw.le_posInf
  have hOrder := hw.lower_le_upper hx.1
  have hSides := r.sentinels.negInf_lt_posInf
  have hCut {n : Int} (hn : r.Admits n) :
      (r.ashr o).Admits (n / pow2 (shiftAmount r.sentinels.bits (.fin y))) :=
    shift_admits (shiftRight_boxed _) hr ho hle hn hy (shiftRight_fin _ n (.fin y))
  generalize shiftAmount r.sentinels.bits (.fin y) = k at hCut
  have hPow := pow2_pos k
  generalize hz : x / pow2 y.toNat = z
  rcases lt_or_ge x r.sentinels.negInf with hLow | hLow
  · have hLower := hx.2.1
    have hEdge : r.Admits r.sentinels.negInf := ⟨hx.1, .inl (by omega), .inr (by omega)⟩
    have hNear := ashr_admits hr ho hle hEdge hy hy0 le_rfl hSides.le
    have hFar := hCut (hx.below (by omega) (min_le_left x (z * pow2 k)))
    refine hFar.convex hNear ?_ ?_
    · calc Min.min x (z * pow2 k) / pow2 k ≤ z * pow2 k / pow2 k :=
            Int.ediv_le_ediv hPow (min_le_right _ _)
        _ = z := Int.mul_ediv_cancel z hPow.ne'
    · rw [← hz]
      exact Int.ediv_le_ediv (pow2_pos _) hLow.le
  rcases le_or_gt x r.sentinels.posInf with hHigh | hHigh
  · rw [← hz]
    exact ashr_admits hr ho hle hx hy hy0 hLow hHigh
  · have hUpper := hx.2.2
    have hEdge : r.Admits r.sentinels.posInf := ⟨hx.1, .inr (by omega), .inl (by omega)⟩
    have hNear := ashr_admits hr ho hle hEdge hy hy0 hSides.le le_rfl
    have hFar := hCut (hx.above (by omega) (le_max_left x (z * pow2 k)))
    refine hNear.convex hFar ?_ ?_
    · rw [← hz]
      exact Int.ediv_le_ediv (pow2_pos _) hHigh.le
    · calc z = z * pow2 k / pow2 k := (Int.mul_ediv_cancel z hPow.ne').symm
        _ ≤ Max.max x (z * pow2 k) / pow2 k := Int.ediv_le_ediv hPow (le_max_right _ _)

/-! ### Bounded ranges -/

/-- A range whose bounds lie strictly between the sentinels. -/
structure Bounded (s : Sentinels) (r : Range) : Prop where
  sentinels_eq : r.sentinels = s
  nonempty : r.isEmpty = false
  negInf_lt : s.negInf < r.lower
  le : r.lower ≤ r.upper
  lt_posInf : r.upper < s.posInf

theorem WellFormed.bounded (hr : WellFormed s r) (h : r.isBounded = true) : Bounded s r := by
  simp only [isBounded, lowerUnbounded, upperUnbounded, hr.sentinels_eq, Bool.and_eq_true,
    Bool.not_eq_true', Bool.and_eq_false_iff, Bool.not_eq_false', beq_eq_false_iff_ne] at h
  obtain ⟨⟨he, hLower⟩, hUpper⟩ := h
  have hBottom := hr.negInf_le
  have hTop := hr.le_posInf
  rw [he] at hLower hUpper
  refine ⟨hr.sentinels_eq, he, ?_, hr.lower_le_upper he, ?_⟩
  · exact lt_of_le_of_ne hBottom fun h => hLower.resolve_left Bool.false_ne_true h.symm
  · exact lt_of_le_of_ne hTop (hUpper.resolve_left Bool.false_ne_true)

namespace Bounded

theorem admits_iff (hr : Bounded s r) : r.Admits x ↔ r.lower ≤ x ∧ x ≤ r.upper := by
  have hBottom := hr.negInf_lt
  have hTop := hr.lt_posInf
  unfold Admits
  rw [hr.nonempty, hr.sentinels_eq]
  constructor
  · rintro ⟨-, hLower, hUpper⟩
    omega
  · rintro ⟨hLower, hUpper⟩
    exact ⟨rfl, .inr hLower, .inr hUpper⟩

theorem admits_iff_mem (hr : Bounded s r) : r.Admits x ↔ x ∈ r := by
  rw [hr.admits_iff]
  exact ⟨fun h => ⟨hr.nonempty, h⟩, And.right⟩

theorem admits_lower (hr : Bounded s r) : r.Admits r.lower := hr.admits_iff.mpr ⟨le_rfl, hr.le⟩

theorem admits_upper (hr : Bounded s r) : r.Admits r.upper := hr.admits_iff.mpr ⟨hr.le, le_rfl⟩

theorem ends_eq (hr : Bounded s r) : r.ends = (.fin r.lower, .fin r.upper) := by
  have hFin {n : Int} (hl : s.negInf < n) (hu : n < s.posInf) : s.toExtended n = .fin n := by
    rw [Sentinels.toExtended, if_neg (by omega), if_neg (by omega)]
  have hOrder := hr.le
  have hBottom := hr.negInf_lt
  have hTop := hr.lt_posInf
  rw [ends, hr.sentinels_eq, hFin hBottom (by omega), hFin (by omega) hTop]

end Bounded

/-! ### Results -/

/-- The results of a function on integers that two ranges admit. -/
def results (F : Int → Int → Int) (r o : Range) : Set Int :=
  Set.image2 F {x | r.Admits x} {y | o.Admits y}

/-- The range is the hull of all results of the function, clamped to the sentinels. -/
def Exact (F : Int → Int → Int) (r o q : Range) : Prop :=
  ∃ least greatest, IsLeast (results F r o) least ∧ IsGreatest (results F r o) greatest ∧
    q = ⟨r.sentinels, r.sentinels.clamp least, r.sentinels.clamp greatest, false⟩

section Corners

variable {F : Int → Int → Int} {f : Corner} {D : Extended → Prop}

/-- The least and the greatest result of a boxed operation are results at corners. -/
theorem isLeast_isGreatest_corners (hf : Boxed f D) (hr : Bounded s r) (ho : Bounded s o)
    (hl : D (.fin o.lower)) (hu : D (.fin o.upper))
    (hF : ∀ x y, r.Admits x → o.Admits y → f (.fin x) (.fin y) = some (.fin (F x y))) :
    IsLeast (results F r o) (Min.min (Min.min (F r.lower o.lower) (F r.lower o.upper))
      (Min.min (F r.upper o.lower) (F r.upper o.upper))) ∧
    IsGreatest (results F r o) (Max.max (Max.max (F r.lower o.lower) (F r.lower o.upper))
      (Max.max (F r.upper o.lower) (F r.upper o.upper))) := by
  have hMem {x y : Int} (hx : r.Admits x) (hy : o.Admits y) : F x y ∈ results F r o :=
    Set.mem_image2_of_mem hx hy
  have h₁ := hMem hr.admits_lower ho.admits_lower
  have h₂ := hMem hr.admits_lower ho.admits_upper
  have h₃ := hMem hr.admits_upper ho.admits_lower
  have h₄ := hMem hr.admits_upper ho.admits_upper
  -- the value of the operation at a point of the box is the result there
  have hBox {x y : Int} (hx : r.Admits x) (hy : o.Admits y) :
      Min.min (Min.min (F r.lower o.lower) (F r.lower o.upper))
        (Min.min (F r.upper o.lower) (F r.upper o.upper)) ≤ F x y ∧
      F x y ≤ Max.max (Max.max (F r.lower o.lower) (F r.lower o.upper))
        (Max.max (F r.upper o.lower) (F r.upper o.upper)) := by
    have hxBounds := hr.admits_iff.mp hx
    have hyBounds := ho.admits_iff.mp hy
    obtain ⟨v, hv, hLow, hHigh⟩ := hf.box hl hu (hF _ _ hr.admits_lower ho.admits_lower)
      (hF _ _ hr.admits_lower ho.admits_upper) (hF _ _ hr.admits_upper ho.admits_lower)
      (hF _ _ hr.admits_upper ho.admits_upper) (fin_mono hxBounds.1) (fin_mono hxBounds.2)
      (fin_mono hyBounds.1) (fin_mono hyBounds.2)
    rw [hF x y hx hy, Option.some.injEq] at hv
    rw [← hv, ← fin_mono.map_min, ← fin_mono.map_min, ← fin_mono.map_min, fin_le_fin] at hLow
    rw [← hv, ← fin_mono.map_max, ← fin_mono.map_max, ← fin_mono.map_max, fin_le_fin] at hHigh
    exact ⟨hLow, hHigh⟩
  refine ⟨⟨min_rec' (· ∈ results F r o) (min_rec' _ h₁ h₂) (min_rec' _ h₃ h₄), ?_⟩,
    max_rec' (· ∈ results F r o) (max_rec' _ h₁ h₂) (max_rec' _ h₃ h₄), ?_⟩
  · rintro z ⟨x, hx, y, hy, rfl⟩
    exact (hBox hx hy).1
  · rintro z ⟨x, hx, y, hy, rfl⟩
    exact (hBox hx hy).2

/-- Combining is exact if the corners clamp to the results there. -/
theorem combine_exact {f' : Corner} (hf : Boxed f D) (hr : Bounded s r) (ho : Bounded s o)
    (hl : D (.fin o.lower)) (hu : D (.fin o.upper))
    (hF : ∀ x y, r.Admits x → o.Admits y → f (.fin x) (.fin y) = some (.fin (F x y)))
    (hClamp : ∀ x y, r.Admits x → o.Admits y →
      ∃ z, f' (.fin x) (.fin y) = some (.fin z) ∧ s.clamp z = s.clamp (F x y)) :
    Exact F r o (r.combine o f') := by
  obtain ⟨hLeast, hGreatest⟩ := isLeast_isGreatest_corners hf hr ho hl hu hF
  refine ⟨_, _, hLeast, hGreatest, ?_⟩
  have hLe := hGreatest.2 hLeast.1
  obtain ⟨a, ha, haClamp⟩ := hClamp _ _ hr.admits_lower ho.admits_lower
  obtain ⟨b, hb, hbClamp⟩ := hClamp _ _ hr.admits_lower ho.admits_upper
  obtain ⟨c, hc, hcClamp⟩ := hClamp _ _ hr.admits_upper ho.admits_lower
  obtain ⟨d, hd, hdClamp⟩ := hClamp _ _ hr.admits_upper ho.admits_upper
  have hClampMono : Monotone s.clamp := fun _ _ h => Sentinels.clamp_mono h
  have hCombine := combine_of_some hr.nonempty ho.nonempty (f := f') (a := .fin a) (b := .fin b)
    (c := .fin c) (d := .fin d) (by rw [hr.ends_eq, ho.ends_eq]; exact ha)
    (by rw [hr.ends_eq, ho.ends_eq]; exact hb) (by rw [hr.ends_eq, ho.ends_eq]; exact hc)
    (by rw [hr.ends_eq, ho.ends_eq]; exact hd)
  rw [hCombine, hr.sentinels_eq]
  simp only [← fin_mono.map_min, ← fin_mono.map_max]
  show s.interval (s.clamp _) (s.clamp _) = _
  -- clamping passes through minima and maxima, and the corners clamp to the results
  simp only [hClampMono.map_min, hClampMono.map_max, haClamp, hbClamp, hcClamp, hdClamp]
  simp only [← hClampMono.map_min, ← hClampMono.map_max]
  exact Sentinels.interval_of_between (s.negInf_le_clamp _) (Sentinels.clamp_mono hLe)
    (s.clamp_le_posInf _)

/-- Combining by the operation itself is exact. -/
theorem combine_exact_self (hf : Boxed f D) (hr : Bounded s r) (ho : Bounded s o)
    (hl : D (.fin o.lower)) (hu : D (.fin o.upper))
    (hF : ∀ x y, r.Admits x → o.Admits y → f (.fin x) (.fin y) = some (.fin (F x y))) :
    Exact F r o (r.combine o f) :=
  combine_exact hf hr ho hl hu hF fun x y hx hy => ⟨F x y, hF x y hx hy, rfl⟩

end Corners

/-! ### Operations -/

theorem sdiv_exact (hr : Bounded s r) (ho : Bounded s o) (h0 : 0 ∉ o) :
    Exact Int.tdiv r o (r.sdiv o) := by
  have hOrder := ho.le
  rw [sdiv, if_not_empty hr.nonempty ho.nonempty, if_neg h0]
  rcases pos_or_neg ho.nonempty h0 with h | h
  · exact combine_exact_self quo_boxed hr ho ((fin_lt_fin _ _).mpr h)
      ((fin_lt_fin _ _).mpr (by omega)) fun _ _ _ _ => rfl
  · exact combine_exact_self quo_boxed_neg hr ho ((fin_lt_fin _ _).mpr (by omega))
      ((fin_lt_fin _ _).mpr h) fun _ _ _ _ => rfl

/-- A left shift that is cut off at the width clamps to the same bound as the full one. -/
theorem clamp_shiftLeft (hy : 0 ≤ y) :
    s.clamp (x * pow2 (shiftAmount s.bits (.fin y))) = s.clamp (x * pow2 y.toNat) := by
  by_cases h : y < s.bits
  · rw [shiftAmount_of_lt hy h]
  rw [shiftAmount_of_le (by omega)]
  have hPow : pow2 s.bits ≤ pow2 y.toNat := pow2_mono (by omega)
  have hBits : pow2 (s.bits - 1) < pow2 s.bits := by
    have := s.two_le_bits
    exact pow2_strictMono (by omega)
  have hPos := pow2_pos s.bits
  have hSides := s.negInf_lt_posInf
  rcases lt_trichotomy x 0 with hx | rfl | hx
  · have hBelow {n : Int} (hn : pow2 s.bits ≤ n) : s.clamp (x * n) = s.negInf := by
      have hOut : x * n ≤ -1 * pow2 s.bits := by nlinarith
      rw [Sentinels.clamp, if_pos]
      unfold Sentinels.negInf
      omega
    rw [hBelow le_rfl, hBelow hPow]
  · rw [Int.zero_mul, Int.zero_mul]
  · have hAbove {n : Int} (hn : pow2 s.bits ≤ n) : s.clamp (x * n) = s.posInf := by
      have hOut : 1 * pow2 s.bits ≤ x * n := by nlinarith
      have hOver : s.posInf < x * n := by
        unfold Sentinels.posInf
        omega
      rw [Sentinels.clamp, if_neg (by omega), if_pos hOver]
    rw [hAbove le_rfl, hAbove hPow]

/-- A right shift of a number between the sentinels that is cut off at the width is the full one. -/
theorem cut_shiftRight (hl : s.negInf < x) (hu : x < s.posInf) (hy : 0 ≤ y) :
    x / pow2 (shiftAmount s.bits (.fin y)) = x / pow2 y.toNat := by
  by_cases h : y < s.bits
  · rw [shiftAmount_of_lt hy h]
  have hPow : pow2 (s.bits - 1) ≤ pow2 s.bits := pow2_mono (by omega)
  unfold Sentinels.negInf at hl
  unfold Sentinels.posInf at hu
  rw [shiftAmount_of_le (by omega)]
  exact (ediv_pow2_saturate (by omega) (by omega) (by omega)).symm

section Shifts

variable (hr : Bounded s r) (ho : Bounded s o) (hn : o.isNonNegative = true)
include ho hn

/-- The amounts of a bounded range are not cut off at a limit above all of them. -/
theorem shiftAmount_of_bounded (hy : o.Admits y) :
    shiftAmount (o.upper.toNat + 1) (.fin y) = y.toNat := by
  have hUpper := (ho.admits_iff.mp hy).2
  have hNonneg := hy.nonneg hn
  exact shiftAmount_of_lt hNonneg (by omega)

include hr

theorem shift_exact {F : Int → Int → Int} {f f' : Corner} (hf : Boxed f fun y => .fin 0 ≤ y)
    (hF : ∀ x y, r.Admits x → o.Admits y → f (.fin x) (.fin y) = some (.fin (F x y)))
    (hClamp : ∀ x y, r.Admits x → o.Admits y →
      ∃ z, f' (.fin x) (.fin y) = some (.fin z) ∧ s.clamp z = s.clamp (F x y)) :
    Exact F r o (r.shift o f') := by
  have hLower := (isNonNegative_iff ho.nonempty).mp hn
  have hOrder := ho.le
  rw [shift, if_not_empty hr.nonempty ho.nonempty, hn]
  exact combine_exact hf hr ho ((fin_le_fin _ _).mpr hLower) ((fin_le_fin _ _).mpr (by omega)) hF
    hClamp

theorem shl_exact : Exact (fun x y => x * 2 ^ y.toNat) r o (r.shl o) := by
  refine shift_exact hr ho hn (shiftLeft_boxed (o.upper.toNat + 1)) (fun x y _ hy => ?_)
    fun x y _ hy => ⟨_, shiftLeft_fin _ x y, ?_⟩
  · rw [shiftLeft_fin, shiftAmount_of_bounded ho hn hy, pow2_eq]
  · rw [hr.sentinels_eq, clamp_shiftLeft (hy.nonneg hn), pow2_eq]

theorem ashr_exact : Exact (fun x y => x / 2 ^ y.toNat) r o (r.ashr o) := by
  refine shift_exact hr ho hn (shiftRight_boxed (o.upper.toNat + 1)) (fun x y _ hy => ?_)
    fun x y hx hy => ⟨_, shiftRight_fin _ x (.fin y), ?_⟩
  · rw [shiftRight_fin, shiftAmount_of_bounded ho hn hy, pow2_eq]
  · obtain ⟨hLower, hUpper⟩ := hr.admits_iff.mp hx
    have hBottom := hr.negInf_lt
    have hTop := hr.lt_posInf
    rw [hr.sentinels_eq, cut_shiftRight (by omega) (by omega) (hy.nonneg hn), pow2_eq]

end Shifts

/-- Range arithmetic is sound and optimal. For operands with a lower side below the upper sentinel
and an upper side above the lower one, the range of an operation admits every result on integers that
the operands admit. For bounded operands it is the hull of these results, clamped to the sentinels. -/
theorem arithmetic_exact (hr : WellFormed s r) (ho : WellFormed s o) (hre : r.isEmpty = false)
    (hoe : o.isEmpty = false) (hrl : r.lower ≠ s.posInf) (hru : r.upper ≠ s.negInf)
    (hol : o.lower ≠ s.posInf) (hou : o.upper ≠ s.negInf) :
    (∀ x y, r.Admits x → o.Admits y →
      (r.add o).Admits (x + y) ∧ (r.sub o).Admits (x - y) ∧ (r.mul o).Admits (x * y) ∧
      (y ≠ 0 → (r.sdiv o).Admits (x.tdiv y)) ∧
      (0 ≤ x → 0 < y → (r.udiv o).Admits (x.tdiv y)) ∧
      (0 ≤ y → (r.shl o).Admits (x * 2 ^ y.toNat) ∧ (r.ashr o).Admits (x / 2 ^ y.toNat))) ∧
    (r.isBounded = true → o.isBounded = true →
      Exact (· + ·) r o (r.add o) ∧ Exact (· - ·) r o (r.sub o) ∧ Exact (· * ·) r o (r.mul o) ∧
      (0 ∉ o → Exact Int.tdiv r o (r.sdiv o)) ∧
      (o.isNonNegative = true → Exact (fun x y => x * 2 ^ y.toNat) r o (r.shl o) ∧
        Exact (fun x y => x / 2 ^ y.toNat) r o (r.ashr o))) := by
  have hOpen {q : Range} (hq : WellFormed s q) (he : q.isEmpty = false) (hl : q.lower ≠ s.posInf)
      (hu : q.upper ≠ s.negInf) : Open q := by
    have hLe := hq.lower_le_upper he
    have hBottom := hq.negInf_le
    have hTop := hq.le_posInf
    exact ⟨by rw [hq.sentinels_eq]; omega, by rw [hq.sentinels_eq]; omega⟩
  have hrOpen := hOpen hr hre hrl hru
  have hoOpen := hOpen ho hoe hol hou
  have hLe := ho.lower_le_upper hoe
  constructor
  · intro x y hx hy
    refine ⟨add_admits hrOpen hoOpen hx hy, sub_admits hrOpen hoOpen hx hy,
      mul_admits hrOpen hoOpen hx hy, fun _ => sdiv_admits hrOpen hoOpen hLe hx hy,
      fun _ _ => udiv_admits hrOpen hoOpen hLe hx hy fun _ _ => rfl, fun hy0 => ?_⟩
    rw [← pow2_eq]
    exact ⟨shl_admits hrOpen hr hoOpen hLe hx hy hy0,
      ashr_admits_beyond hrOpen hr hoOpen hLe hx hy hy0⟩
  · intro hrBounded hoBounded
    have hr' := hr.bounded hrBounded
    have ho' := ho.bounded hoBounded
    exact ⟨combine_exact_self add_boxed hr' ho' trivial trivial fun _ _ _ _ => rfl,
      combine_exact_self sub_boxed hr' ho' trivial trivial fun _ _ _ _ => rfl,
      combine_exact_self mul_boxed hr' ho' trivial trivial fun _ _ _ _ => rfl,
      sdiv_exact hr' ho', fun hn => ⟨shl_exact hr' ho' hn, ashr_exact hr' ho' hn⟩⟩

/-- A range on both sides of zero and one of amounts, in eight bits. The shifts to the left reach
beyond the sentinels, and the negative ones only to the lower one. -/
theorem arithmetic_exact_eight :
    let s := Sentinels.ofWidth 8
    let r := s.interval (-3) 5
    let o := s.interval 2 6
    r.isBounded = true ∧ o.isBounded = true ∧ o.isNonNegative = true ∧ 0 ∉ o ∧
      (r.Admits (-3) ∧ o.Admits 6 ∧ (r.shl o).Admits (-192)) ∧
      Exact Int.tdiv r o (r.sdiv o) ∧ Exact (fun x y => x * 2 ^ y.toNat) r o (r.shl o) ∧
      r.shl o = s.max ∧ r.sdiv o = s.interval (-1) 2 := by
  intro s r o
  have hMain := arithmetic_exact (.interval s (-3) 5) (.interval s 2 6) (by decide) (by decide)
    (by decide) (by decide) (by decide) (by decide)
  have hx : r.Admits (-3) := ⟨by decide, .inr (by decide), .inr (by decide)⟩
  have hy : o.Admits 6 := ⟨by decide, .inr (by decide), .inr (by decide)⟩
  obtain ⟨-, -, -, hDiv, hShift⟩ := hMain.2 (by decide) (by decide)
  exact ⟨by decide, by decide, by decide, by decide,
    ⟨hx, hy, ((hMain.1 (-3) 6 hx hy).2.2.2.2.2 (by decide)).1⟩, hDiv (by decide),
    (hShift (by decide)).1, by decide, by decide⟩

end Range

end ValueRange
