import Mathlib.Tactic.Linarith
import Mathlib.Tactic.Ring
import ValueRange.Range.Conversion
import ValueRange.Proofs.Range.Lattice
import ValueRange.Proofs.Range.Operations

/-! Conversions between integer types. A conversion holds the value of the target type that is
congruent to the converted one modulo the power of two of the type's width, and a zero extension
adds that power to negative values. -/

namespace ValueRange

namespace IntType

variable {t : IntType} {x z : Int}

/-- Of the widths that a machine word holds, only the greatest unsigned one wraps around. -/
theorem signedWidthWord_eq (h : 0 ≤ t.width) (hWord : t.width ≤ 0x7fffffffffffffff) :
    t.signedWidthWord =
      if t.unsigned ∧ t.width = 0x7fffffffffffffff then -0x8000000000000000 else t.signedWidth := by
  unfold signedWidthWord signedWidth
  rw [Int.bmod_def]
  cases t.unsigned with
  | true =>
    simp only [true_and, if_true]
    split_ifs <;> omega
  | false =>
    simp only [Bool.false_eq_true, false_and, if_false]
    split_ifs <;> omega

/-- The integer is a value of the type. -/
def Contains (t : IntType) (n : Int) : Prop := t.minValue ≤ n ∧ n ≤ t.maxValue

instance (t : IntType) (n : Int) : Decidable (t.Contains n) :=
  inferInstanceAs (Decidable (t.minValue ≤ n ∧ n ≤ t.maxValue))

/-- The integer `z` is the value of the type that `x` is reduced to. -/
def Reduces (t : IntType) (x z : Int) : Prop := t.Contains z ∧ pow2 t.width.toNat ∣ z - x

theorem pow2_pred {w : Int} (h : 0 < w) : pow2 w.toNat = 2 * pow2 (w - 1).toNat := by
  have hw : w.toNat = 1 + (w - 1).toNat := by omega
  rw [hw, pow2_add]
  rfl

/-- The values of a type lie within its power of two. -/
theorem Contains.bounds (h : t.Contains x) : -pow2 t.width.toNat ≤ x ∧ x < pow2 t.width.toNat := by
  obtain ⟨hl, hu⟩ := h
  have hPos := pow2_pos t.width.toNat
  have hMono : pow2 (t.width - 1).toNat ≤ pow2 t.width.toNat := pow2_mono (by omega)
  unfold minValue at hl
  unfold maxValue at hu
  split_ifs at hl hu <;> omega

/-- Two values of an integer type are less than its power of two apart. -/
theorem sub_lt_of_contains (ht : t.isInteger = true) (hx : t.Contains x) (hz : t.Contains z) :
    z - x < pow2 t.width.toNat := by
  obtain ⟨hxl, -⟩ := hx
  obtain ⟨-, hzu⟩ := hz
  have hPow := pow2_pred (of_decide_eq_true ht)
  unfold minValue at hxl
  unfold maxValue at hzu
  split_ifs at hxl hzu <;> omega

/-- A value of the type is reduced to itself only. -/
theorem Reduces.eq (ht : t.isInteger = true) (hx : t.Contains x) (h : t.Reduces x z) : z = x := by
  obtain ⟨hz, k, hk⟩ := h
  have hLt := sub_lt_of_contains ht hx hz
  have hGt := sub_lt_of_contains ht hz hx
  have hPos := pow2_pos t.width.toNat
  have hk0 : k = 0 := by
    rcases lt_trichotomy k 0 with h | h | h
    · have : pow2 t.width.toNat * k ≤ pow2 t.width.toNat * -1 :=
        Int.mul_le_mul_of_nonneg_left (by omega) (by omega)
      omega
    · exact h
    · have : pow2 t.width.toNat * 1 ≤ pow2 t.width.toNat * k :=
        Int.mul_le_mul_of_nonneg_left (by omega) (by omega)
      omega
  rw [hk0, Int.mul_zero] at hk
  omega

/-- The value of the type that is congruent to `n` modulo the power of two of the type's width. -/
def wrap (t : IntType) (n : Int) : Int := t.minValue + (n - t.minValue) % pow2 t.width.toNat

theorem maxValue_eq (ht : t.isInteger = true) :
    t.maxValue = t.minValue + pow2 t.width.toNat - 1 := by
  have hPow := pow2_pred (of_decide_eq_true ht)
  unfold maxValue minValue
  split_ifs <;> omega

theorem contains_wrap (ht : t.isInteger = true) (x : Int) : t.Contains (t.wrap x) := by
  have hPos := pow2_pos t.width.toNat
  have hLow := Int.emod_nonneg (x - t.minValue) hPos.ne'
  have hHigh := Int.emod_lt_of_pos (x - t.minValue) hPos
  have hMax := maxValue_eq ht
  unfold wrap
  constructor <;> omega

/-- An integer is reduced to one value of the type. -/
theorem reduces_iff (ht : t.isInteger = true) : t.Reduces x z ↔ z = t.wrap x := by
  have hWrap : pow2 t.width.toNat ∣ t.wrap x - x := by
    refine ⟨-((x - t.minValue) / pow2 t.width.toNat), ?_⟩
    rw [wrap, Int.emod_def]
    ring
  constructor
  · rintro ⟨hz, hDvd⟩
    refine Reduces.eq ht (contains_wrap ht x) ⟨hz, ?_⟩
    have hSub := Int.dvd_sub hDvd hWrap
    rwa [sub_sub_sub_cancel_right] at hSub
  · rintro rfl
    exact ⟨contains_wrap ht x, hWrap⟩

theorem wrap_of_contains (ht : t.isInteger = true) (hx : t.Contains x) : t.wrap x = x :=
  ((reduces_iff ht).mpr rfl).eq ht hx

/-- The values of a type that is no wider than the sentinels are none beyond them. -/
theorem Contains.between {s : Sentinels} (hWidth : t.signedWidth ≤ s.bits) (h : t.Contains x) :
    s.negInf ≤ x ∧ x ≤ s.posInf := by
  obtain ⟨hl, hu⟩ := h
  have hBits := s.two_le_bits
  have hLess {k : Nat} (hk : k ≤ s.bits - 1) : pow2 k ≤ pow2 (s.bits - 1) := pow2_mono hk
  unfold minValue at hl
  unfold maxValue at hu
  unfold signedWidth at hWidth
  show -pow2 (s.bits - 1) ≤ x ∧ x ≤ pow2 (s.bits - 1) - 1
  cases hs : t.unsigned with
  | true =>
    rw [hs, if_pos rfl] at hl hu hWidth
    have := pow2_pos (s.bits - 1)
    have := hLess (k := t.width.toNat) (by omega)
    omega
  | false =>
    rw [hs, if_neg (by simp)] at hl hu hWidth
    have := hLess (k := (t.width - 1).toNat) (by omega)
    omega

theorem signedWidth_unsigned_le {s : Sentinels} {w : Int} (h : w < s.bits) :
    (⟨w, true⟩ : IntType).signedWidth ≤ s.bits := by
  show w + 1 ≤ (s.bits : Int)
  omega

/-- The zero extension of a signed value is an unsigned one of as many bits. -/
theorem Contains.extended {w : Int} (hw : 0 < w) (h : (signed w).Contains x) :
    (⟨w, true⟩ : IntType).Contains (if x < 0 then x + pow2 w.toNat else x) := by
  have hBounds : -pow2 (w - 1).toNat ≤ x ∧ x ≤ pow2 (w - 1).toNat - 1 := h
  have hPow := pow2_pred hw
  have hPos := pow2_pos (w - 1).toNat
  show 0 ≤ (if x < 0 then x + pow2 w.toNat else x) ∧
    (if x < 0 then x + pow2 w.toNat else x) ≤ pow2 w.toNat - 1
  split_ifs <;> omega

end IntType

/-- The range of all values of a type. -/
def Sentinels.ofType (s : Sentinels) (t : IntType) : Range := ⟨s, t.minValue, t.maxValue, false⟩

theorem Sentinels.interval_type {s : Sentinels} {t : IntType} (ht : t.isInteger = true)
    (hWidth : t.signedWidth ≤ s.bits) : s.interval t.minValue t.maxValue = s.ofType t := by
  have hPos := pow2_pos t.width.toNat
  have hMax := t.maxValue_eq ht
  have hMin : t.Contains t.minValue := ⟨le_rfl, by omega⟩
  have hTop : t.Contains t.maxValue := ⟨by omega, le_rfl⟩
  exact interval_of_between (hMin.between hWidth).1 (by omega) (hTop.between hWidth).2

namespace Range

variable {s : Sentinels} {r r' : Range} {t : IntType} {x z : Int}

theorem WellFormed.convert (hr : WellFormed s r) (t : IntType) : WellFormed s (r.convert t) := by
  unfold Range.convert
  split
  · exact hr
  · split
    · exact hr
    · rw [hr.sentinels_eq]
      exact .interval _ _ _

/-- The value that an integer is reduced to is in the converted range. -/
theorem mem_convert (ht : t.isInteger = true) (hx : x ∈ r) (hz : t.Reduces x z)
    (hl : r.sentinels.negInf ≤ z) (hu : z ≤ r.sentinels.posInf) : z ∈ r.convert t := by
  rw [convert, hx.1, ht]
  simp only [Bool.not_true, Bool.or_self, Bool.false_eq_true, if_false]
  split
  · rename_i h
    have hxt : t.Contains x := ⟨le_trans h.1 hx.2.1, le_trans hx.2.2 h.2⟩
    rw [hz.eq ht hxt]
    exact hx
  · exact Sentinels.mem_interval hz.1.1 hz.1.2 hl hu

theorem convert_of_empty (he : r.isEmpty = true) (t : IntType) : r.convert t = r := by
  rw [convert, he]
  rfl

theorem convert_of_subset (h : r ⊆ s.ofType t) : r.convert t = r := by
  unfold convert
  split_ifs with he hFits
  · rfl
  · rfl
  · rw [Bool.or_eq_true, not_or, Bool.not_eq_true] at he
    exact absurd (bounds_of_subset h he.1) hFits

theorem convert_subset_type (hr : WellFormed s r) (ht : t.isInteger = true)
    (hWidth : t.signedWidth ≤ s.bits) : r.convert t ⊆ s.ofType t := by
  unfold convert
  split_ifs with he hFits
  · rw [ht, Bool.not_true, Bool.or_false] at he
    exact .inl he
  · exact .inr ⟨rfl, hFits⟩
  · rw [hr.sentinels_eq, Sentinels.interval_type ht hWidth]
    exact subset_refl _

theorem convert_subset (hr : WellFormed s r) (hr' : WellFormed s r') (h : r ⊆ r') (t : IntType) :
    r.convert t ⊆ r'.convert t := by
  cases he : r.isEmpty with
  | true =>
    rw [convert_of_empty he]
    exact .inl he
  | false =>
    have hBounds := bounds_of_subset h he
    cases ht : t.isInteger with
    | false => simpa [convert, ht] using h
    | true =>
      simp only [convert, he, not_isEmpty_of_subset h he, ht, Bool.not_true, Bool.or_self,
        Bool.false_eq_true, if_false]
      split_ifs with h1 h2 h2
      · exact h
      · rw [hr'.sentinels_eq]
        exact hr.subset_interval h1.1 h1.2
      · omega
      · rw [hr.sentinels_eq, hr'.sentinels_eq]
        exact subset_refl _

/-- A sign extension changes nothing. -/
theorem signExtend_eq (hr : WellFormed s r) : r.signExtend = r := by
  unfold signExtend
  split_ifs with he
  · rfl
  · rw [hr.sentinels_eq]
    exact (hr.eq_interval (Bool.eq_false_of_not_eq_true he)).symm

theorem WellFormed.zeroExtend (hr : WellFormed s r) (w : Int) :
    WellFormed s (r.zeroExtend w) := by
  unfold Range.zeroExtend
  rw [hr.sentinels_eq]
  split
  · exact hr
  · split
    · exact .interval _ _ _
    · split <;> exact .interval _ _ _

theorem zeroExtend_of_empty (he : r.isEmpty = true) (w : Int) : r.zeroExtend w = r := by
  rw [zeroExtend, he]
  rfl

theorem zeroExtend_of_nonneg (h : r.isNonNegative = true) (w : Int) : r.zeroExtend w = r := by
  rw [zeroExtend, h, Bool.or_true, if_pos rfl]

/-- The zero extension of a value of the source type is in the extended range. -/
theorem mem_zeroExtend (hx : x ∈ r) (ht : t.Contains x) (hl : r.sentinels.negInf ≤ z)
    (hu : z ≤ r.sentinels.posInf) (hz : z = if x < 0 then x + pow2 t.width.toNat else x) :
    z ∈ r.zeroExtend t.width := by
  obtain ⟨hLow, hHigh⟩ := ht.bounds
  have hAll : 0 ≤ z ∧ z ≤ pow2 t.width.toNat - 1 := by
    split_ifs at hz <;> omega
  rw [zeroExtend, hx.1, Bool.false_or]
  split_ifs with hn hs hneg
  · have hx0 : 0 ≤ x := le_trans (of_decide_eq_true (Bool.and_eq_true _ _ ▸ hn).2) hx.2.1
    rw [if_neg (by omega)] at hz
    rw [hz]
    exact hx
  · exact Sentinels.mem_interval hAll.1 hAll.2 hl hu
  · have := hx.2.1
    have := hx.2.2
    rw [if_pos (by omega)] at hz
    exact Sentinels.mem_interval (by omega) (by omega) hl hu
  · exact Sentinels.mem_interval hAll.1 hAll.2 hl hu

/-- What a zero extension holds within the bits of the source is in that of a larger range. -/
theorem mem_zeroExtend_of_subset (hr : WellFormed s r) (hr' : WellFormed s r') (h : r ⊆ r') {w : Int}
    (hx : x ∈ r.zeroExtend w) (hLow : 0 ≤ x) (hHigh : x < pow2 w.toNat) :
    x ∈ r'.zeroExtend w := by
  have he : r.isEmpty = false := by
    by_contra he
    rw [Bool.not_eq_false] at he
    rw [zeroExtend_of_empty he] at hx
    exact absurd (he.symm.trans hx.1) (by decide)
  have hBounds := bounds_of_subset h he
  have he' := not_isEmpty_of_subset h he
  obtain ⟨hl, hu⟩ := (hr.zeroExtend w).mem_bounds hx
  have hAll : x ∈ s.interval 0 (pow2 w.toNat - 1) :=
    Sentinels.mem_interval hLow (by omega) hl hu
  by_cases hn : r'.isNonNegative = true
  · have hn' : r.isNonNegative = true := by
      simp only [isNonNegative, he, he', Bool.not_false, Bool.true_and, decide_eq_true_eq] at hn ⊢
      omega
    rw [zeroExtend_of_nonneg hn'] at hx
    rw [zeroExtend_of_nonneg hn]
    exact mem_of_subset h hx
  · have hEq : r'.zeroExtend w =
        if r'.lowerUnbounded || decide (w ≤ 0) then s.interval 0 (pow2 w.toNat - 1)
        else if r'.upper < 0 then s.interval (r'.lower + pow2 w.toNat) (r'.upper + pow2 w.toNat)
        else s.interval 0 (pow2 w.toNat - 1) := by
      rw [zeroExtend, hr'.sentinels_eq, he', Bool.false_or, if_neg hn]
    rw [hEq]
    split_ifs with hs hneg
    · exact hAll
    · -- both ranges lie below zero and are shifted as a whole
      simp only [Bool.or_eq_true, not_or, Bool.not_eq_true, decide_eq_true_eq, not_le] at hs
      have hle := hr.lower_le_upper he
      have hBounded : r.lowerUnbounded = false := by
        have := hr'.negInf_le
        simp only [lowerUnbounded, he, he', hr.sentinels_eq, hr'.sentinels_eq, Bool.not_false,
          Bool.true_and, beq_eq_false_iff_ne] at hs ⊢
        omega
      have hEq : r.zeroExtend w =
          s.interval (r.lower + pow2 w.toNat) (r.upper + pow2 w.toNat) := by
        have hn' : r.isNonNegative = false := by simp [isNonNegative, he]; omega
        rw [zeroExtend, hr.sentinels_eq, he, hn', hBounded]
        simp only [Bool.or_self, Bool.false_eq_true, if_false, Bool.false_or, decide_eq_true_eq]
        rw [if_neg (by omega), if_pos (by omega)]
      rw [hEq] at hx
      exact mem_of_subset (interval_subset (by omega) (by omega)) hx
    · exact hAll

section ZeroExtend

variable {w : Int} (hr : WellFormed s r) (hw : 0 < w) (hBits : w < s.bits)
  (h : r ⊆ s.ofType (.signed w))
include hr hw hBits h

/-- What integers of `w` signed bits are extended to. -/
theorem mem_zeroExtend_of_signed (hx : x ∈ r) :
    (if x < 0 then x + pow2 w.toNat else x) ∈ r.zeroExtend w := by
  have hx' : (IntType.signed w).Contains x := (mem_of_subset h hx).2
  obtain ⟨hLow, hHigh⟩ := (hx'.extended hw).between (IntType.signedWidth_unsigned_le hBits)
  rw [← hr.sentinels_eq] at hLow hHigh
  exact mem_zeroExtend hx hx' hLow hHigh rfl

/-- Integers of `w` signed bits are extended to unsigned ones of as many bits. -/
theorem zeroExtend_subset_type : r.zeroExtend w ⊆ s.ofType ⟨w, true⟩ := by
  have hPow := IntType.pow2_pred hw
  have hPos := pow2_pos (w - 1).toNat
  have hInterval {l u : Int} (hl : 0 ≤ l) (hu : u ≤ pow2 w.toNat - 1) :
      s.interval l u ⊆ s.ofType ⟨w, true⟩ := by
    rw [← Sentinels.interval_type (decide_eq_true hw) (IntType.signedWidth_unsigned_le hBits)]
    exact interval_subset hl hu
  cases he : r.isEmpty with
  | true =>
    rw [zeroExtend_of_empty he]
    exact .inl he
  | false =>
    have hBounds : -pow2 (w - 1).toNat ≤ r.lower ∧ r.upper ≤ pow2 (w - 1).toNat - 1 :=
      bounds_of_subset h he
    rw [zeroExtend, he, Bool.false_or, hr.sentinels_eq]
    split_ifs with hn _ hNeg
    · simp only [isNonNegative, he, Bool.not_false, Bool.true_and, decide_eq_true_eq] at hn
      exact .inr ⟨rfl, hn, show r.upper ≤ pow2 w.toNat - 1 by omega⟩
    · exact hInterval le_rfl le_rfl
    · exact hInterval (by omega) (by omega)
    · exact hInterval le_rfl le_rfl

end ZeroExtend

/-- The range `q` is what a conversion to the type makes of `r`: it holds the values that the integers
of `r` are reduced to and only values of the type, and is `r` itself if the type represents all of
`r`. -/
structure Converts (s : Sentinels) (t : IntType) (r q : Range) : Prop where
  wrap : ∀ x ∈ r, t.wrap x ∈ q
  subset : q ⊆ s.ofType t
  self : r ⊆ s.ofType t → q = r

theorem converts_convert (hr : WellFormed s r) (ht : t.isInteger = true)
    (hWidth : t.signedWidth ≤ s.bits) : Converts s t r (r.convert t) where
  wrap x hx := by
    obtain ⟨hLow, hHigh⟩ := (t.contains_wrap ht x).between hWidth
    rw [← hr.sentinels_eq] at hLow hHigh
    exact mem_convert ht hx ((IntType.reduces_iff ht).mpr rfl) hLow hHigh
  subset := convert_subset_type hr ht hWidth
  self := convert_of_subset

/-- Conversions are sound for integers that are reduced modulo a power of two. A conversion to a type
that is no wider than the sentinels, or to as many signed bits, makes of a range what it should, so
that a second one changes nothing. A zero extension of integers of `w` signed bits moves the negative
ones up by `2 ^ w`, into the unsigned integers of `w` bits. A sign extension keeps the range. -/
theorem conversion_sound (hr : WellFormed s r) :
    (∀ t : IntType, t.isInteger = true → t.signedWidth ≤ s.bits →
      Converts s t r (r.convert t) ∧ (r.convert t).convert t = r.convert t) ∧
    (∀ w : Int, 0 < w → w ≤ s.bits → Converts s (.signed w) r (r.truncate w)) ∧
    (∀ w : Int, 0 < w → w < s.bits → r ⊆ s.ofType (.signed w) →
      (∀ x ∈ r, (if x < 0 then x + pow2 w.toNat else x) ∈ r.zeroExtend w) ∧
      r.zeroExtend w ⊆ s.ofType ⟨w, true⟩) ∧
    r.signExtend = r := by
  refine ⟨fun t ht hWidth => ⟨converts_convert hr ht hWidth, ?_⟩, fun w hw hBits => ?_,
    fun w hw hBits h => ⟨fun x hx => ?_, ?_⟩, signExtend_eq hr⟩
  · exact convert_of_subset (convert_subset_type hr ht hWidth)
  · exact converts_convert hr (decide_eq_true hw) hBits
  · exact mem_zeroExtend_of_signed hr hw hBits h hx
  · exact zeroExtend_subset_type hr hw hBits h

/-- A range on both sides of zero in eight bits, which four bits do not hold, and one of four signed
bits. -/
theorem conversion_sound_eight :
    let s := Sentinels.ofWidth 8
    let r := s.interval (-3) 20
    let q := s.interval (-8) 3
    (-3 ∈ r ∧ 13 ∈ r.convert ⟨4, true⟩ ∧ r.convert ⟨4, true⟩ ⊆ s.ofType ⟨4, true⟩) ∧
      (20 ∈ r ∧ 4 ∈ r.truncate 4) ∧
      (-8 ∈ q ∧ q ⊆ s.ofType (.signed 4) ∧ 8 ∈ q.zeroExtend 4 ∧
        q.zeroExtend 4 ⊆ s.ofType ⟨4, true⟩) := by
  intro s r q
  have hLow : -3 ∈ r := by decide
  have hHigh : 20 ∈ r := by decide
  have hLeast : -8 ∈ q := by decide
  have hNarrow : q ⊆ s.ofType (.signed 4) := by decide
  have hMain := conversion_sound (.interval s (-3) 20)
  obtain ⟨hConvert, -⟩ := hMain.1 ⟨4, true⟩ (by decide) (by decide)
  have hTruncate := hMain.2.1 4 (by decide) (by decide)
  obtain ⟨hExtend, hBits⟩ :=
    (conversion_sound (.interval s (-8) 3)).2.2.1 4 (by decide) (by decide) hNarrow
  exact ⟨⟨hLow, hConvert.wrap (-3) hLow, hConvert.subset⟩, ⟨hHigh, hTruncate.wrap 20 hHigh⟩,
    hLeast, hNarrow, hExtend (-8) hLeast, hBits⟩

end Range

end ValueRange
