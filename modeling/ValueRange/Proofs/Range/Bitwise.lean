import Mathlib.Data.Int.Bitwise
import ValueRange.Range.Bitwise
import ValueRange.Proofs.Range.Soundness

/-! Bitwise operations on ranges are sound for the two's complement of unlimited width. -/

namespace ValueRange

theorem ldiff_le (m n : Nat) : Nat.ldiff m n ≤ m := by
  apply Nat.le_of_testBit
  intro i h
  rw [Nat.testBit_ldiff, Bool.and_eq_true] at h
  exact h.1

theorem lt_pow_bitLength (n : Nat) : n < 2 ^ bitLength n := by
  unfold bitLength
  split
  · subst n
    decide
  · exact Nat.lt_log2_self

theorem le_allOnes {m n : Int} (hm : 0 ≤ m) (h : m.toNat < 2 ^ bitLength n.toNat) :
    m ≤ allOnes n := by
  unfold allOnes pow2
  have : (m.toNat : Int) < ((2 ^ bitLength n.toNat : Nat) : Int) := Int.ofNat_lt.mpr h
  simp only [Int.ofNat_eq_natCast, Nat.pow_eq]
  omega

/-- The bits of a number that is not above `n` are among those of `allOnes n`. -/
theorem toNat_lt_pow {m n : Int} (h : m ≤ n) : m.toNat < 2 ^ bitLength n.toNat :=
  lt_of_le_of_lt (Int.toNat_le_toNat h) (lt_pow_bitLength _)

section Integers

variable {x y : Int}

theorem land_comm (x y : Int) : x.land y = y.land x := by
  cases x <;> cases y <;> simp [Int.land, Nat.land_comm, Nat.lor_comm]

theorem lor_comm (x y : Int) : x.lor y = y.lor x := by
  cases x <;> cases y <;> simp [Int.lor, Nat.land_comm, Nat.lor_comm]

theorem land_bounds (hx : 0 ≤ x) (y : Int) : 0 ≤ x.land y ∧ x.land y ≤ x := by
  obtain ⟨m, rfl⟩ := Int.eq_ofNat_of_zero_le hx
  cases y with
  | ofNat n => exact ⟨Int.natCast_nonneg _, Int.ofNat_le.mpr Nat.and_le_left⟩
  | negSucc n => exact ⟨Int.natCast_nonneg _, Int.ofNat_le.mpr (ldiff_le m n)⟩

theorem land_le_of_neg (hx : x < 0) (hy : y < 0) : x.land y ≤ x := by
  obtain ⟨m, rfl⟩ := Int.eq_negSucc_of_lt_zero hx
  obtain ⟨n, rfl⟩ := Int.eq_negSucc_of_lt_zero hy
  have : m ≤ m ||| n := Nat.left_le_or
  simp only [Int.land]
  omega

theorem le_lor (hx : 0 ≤ x) (hy : 0 ≤ y) : x ≤ x.lor y := by
  obtain ⟨m, rfl⟩ := Int.eq_ofNat_of_zero_le hx
  obtain ⟨n, rfl⟩ := Int.eq_ofNat_of_zero_le hy
  exact Int.ofNat_le.mpr Nat.left_le_or

theorem lor_of_neg (hx : x < 0) (y : Int) : x ≤ x.lor y ∧ x.lor y < 0 := by
  obtain ⟨m, rfl⟩ := Int.eq_negSucc_of_lt_zero hx
  cases y with
  | ofNat n =>
    have := ldiff_le m n
    simp only [Int.lor]
    omega
  | negSucc n =>
    have : m &&& n ≤ m := Nat.and_le_left
    simp only [Int.lor]
    omega

/-- A disjunction is not below both of its operands. -/
theorem min_le_lor (x y : Int) : Min.min x y ≤ x.lor y := by
  rcases lt_or_ge x 0 with hx | hx
  · exact le_trans (min_le_left x y) (lor_of_neg hx y).1
  · rcases lt_or_ge y 0 with hy | hy
    · rw [lor_comm]
      exact le_trans (min_le_right x y) (lor_of_neg hy x).1
    · exact le_trans (min_le_left x y) (le_lor hx hy)

theorem lor_le_allOnes {n : Int} (hx : 0 ≤ x) (hy : 0 ≤ y) (hxn : x ≤ n) (hyn : y ≤ n) :
    x.lor y ≤ allOnes n := by
  have hxPow := toNat_lt_pow hxn
  have hyPow := toNat_lt_pow hyn
  refine le_allOnes (le_trans hx (le_lor hx hy)) ?_
  obtain ⟨m, rfl⟩ := Int.eq_ofNat_of_zero_le hx
  obtain ⟨k, rfl⟩ := Int.eq_ofNat_of_zero_le hy
  exact Nat.or_lt_two_pow hxPow hyPow

theorem xor_le_allOnes {n : Int} (hx : 0 ≤ x) (hy : 0 ≤ y) (hxn : x ≤ n) (hyn : y ≤ n) :
    x.xor y ≤ allOnes n := by
  have hxPow := toNat_lt_pow hxn
  have hyPow := toNat_lt_pow hyn
  obtain ⟨m, rfl⟩ := Int.eq_ofNat_of_zero_le hx
  obtain ⟨k, rfl⟩ := Int.eq_ofNat_of_zero_le hy
  exact le_allOnes (Int.natCast_nonneg _) (Nat.xor_lt_two_pow hxPow hyPow)

theorem xor_nonneg (hx : 0 ≤ x) (hy : 0 ≤ y) : 0 ≤ x.xor y := by
  obtain ⟨m, rfl⟩ := Int.eq_ofNat_of_zero_le hx
  obtain ⟨k, rfl⟩ := Int.eq_ofNat_of_zero_le hy
  exact Int.natCast_nonneg _

end Integers

namespace Range

variable {s : Sentinels} {r o : Range} {x y : Int}

theorem and_admits (hr : WellFormed s r) (ho : WellFormed s o) (hx : r.Admits x)
    (hy : o.Admits y) : (r.and o).Admits (x.land y) := by
  have hxUpper := hx.2.2
  have hyUpper := hy.2.2
  have hrTop := hr.le_posInf
  have hoTop := ho.le_posInf
  have hPos := s.posInf_pos
  rw [hr.sentinels_eq] at hxUpper
  rw [ho.sentinels_eq] at hyUpper
  rw [Range.and, if_not_empty hx.1 hy.1, hr.sentinels_eq]
  split_ifs with hn hm hm hneg
  · have hLeft := land_bounds (hx.nonneg hn) y
    have hRight := land_bounds (hy.nonneg hm) x
    rw [land_comm] at hRight
    exact interval_admits_sides (.inr hLeft.1) (by omega)
  · have hLeft := land_bounds (hx.nonneg hn) y
    exact interval_admits_sides (.inr hLeft.1) (by omega)
  · have hRight := land_bounds (hy.nonneg hm) x
    rw [land_comm]
    exact interval_admits_sides (.inr hRight.1) (by omega)
  · have hLeft := land_le_of_neg (show x < 0 by omega) (show y < 0 by omega)
    have hRight := land_le_of_neg (show y < 0 by omega) (show x < 0 by omega)
    rw [land_comm] at hRight
    exact interval_admits_sides (.inl rfl) (by omega)
  · exact max_admits s _

/-- The upper side of a disjunction of non-negative ranges. -/
theorem upper_admits (s : Sentinels) (hx : r.Admits x) (hy : o.Admits y) {z : Int}
    (hz : ∀ n, x ≤ n → y ≤ n → z ≤ allOnes n) :
    (if r.upperUnbounded || o.upperUnbounded then s.posInf
      else allOnes (Max.max r.upper o.upper)) = s.posInf ∨
    z ≤ if r.upperUnbounded || o.upperUnbounded then s.posInf
      else allOnes (Max.max r.upper o.upper) := by
  split_ifs with h
  · exact .inl rfl
  · simp only [Bool.or_eq_true, not_or, Bool.not_eq_true] at h
    exact .inr (hz _ (le_trans (hx.le_of_bounded h.1) (le_max_left _ _))
      (le_trans (hy.le_of_bounded h.2) (le_max_right _ _)))

theorem or_admits (hr : WellFormed s r) (ho : WellFormed s o) (hx : r.Admits x)
    (hy : o.Admits y) : (r.or o).Admits (x.lor y) := by
  have hxLower := hx.2.1
  have hyLower := hy.2.1
  have hxUpper := hx.2.2
  have hyUpper := hy.2.2
  have hrBottom := hr.negInf_le
  have hoBottom := ho.negInf_le
  rw [hr.sentinels_eq] at hxLower hxUpper
  rw [ho.sentinels_eq] at hyLower hyUpper
  rw [Range.or, if_not_empty hx.1 hy.1, hr.sentinels_eq]
  split
  · rename_i h
    rw [Bool.and_eq_true] at h
    have hx0 := hx.nonneg h.1
    have hy0 := hy.nonneg h.2
    have hLeft := le_lor hx0 hy0
    have hRight := le_lor hy0 hx0
    rw [lor_comm] at hRight
    rw [isNonNegative_iff hx.1, isNonNegative_iff hy.1] at h
    have := s.negInf_neg
    exact interval_admits_sides (.inr (by omega))
      (upper_admits s hx hy fun n => lor_le_allOnes hx0 hy0)
  · split_ifs with hneg
    · have := s.posInf_pos
      have hLeft := lor_of_neg (show x < 0 by omega) y
      have hRight := lor_of_neg (show y < 0 by omega) x
      rw [lor_comm] at hRight
      exact interval_admits_sides (by omega) (.inr (by omega))
    · have hLower := min_le_lor x y
      exact interval_admits_sides (by omega) (.inl rfl)

theorem xor_admits (hx : r.Admits x) (hy : o.Admits y) : (r.xor o).Admits (x.xor y) := by
  rw [Range.xor, if_not_empty hx.1 hy.1]
  split
  · rename_i h
    rw [Bool.and_eq_true] at h
    have hx0 := hx.nonneg h.1
    have hy0 := hy.nonneg h.2
    exact interval_admits_sides (.inr (xor_nonneg hx0 hy0))
      (upper_admits _ hx hy fun n => xor_le_allOnes hx0 hy0)
  · exact max_admits _ _

/-- Bitwise operations are sound. For any two ranges that are not empty they admit the conjunction,
the disjunction and the exclusive disjunction of integers that the operands admit, be these negative
or not. -/
theorem bitwise_sound (hr : WellFormed s r) (ho : WellFormed s o) (hx : r.Admits x)
    (hy : o.Admits y) :
    (r.and o).Admits (x.land y) ∧ (r.or o).Admits (x.lor y) ∧ (r.xor o).Admits (x.xor y) :=
  ⟨and_admits hr ho hx hy, or_admits hr ho hx hy, xor_admits hx hy⟩

/-- Two ranges of negative integers in eight bits, one of them without a lower bound. -/
theorem bitwise_sound_eight :
    let s := Sentinels.ofWidth 8
    let r := s.interval (-128) (-3)
    let o := s.interval (-100) (-5)
    (r.Admits (-1000) ∧ o.Admits (-77)) ∧
      ((r.and o).Admits (-1008) ∧ (r.or o).Admits (-69) ∧ (r.xor o).Admits 939) ∧
      r.and o = s.interval (-128) (-5) ∧ r.or o = s.interval (-100) (-1) := by
  intro s r o
  have hx : r.Admits (-1000) := by decide
  have hy : o.Admits (-77) := by decide
  have hMain := bitwise_sound (.interval s (-128) (-3)) (.interval s (-100) (-5)) hx hy
  exact ⟨⟨hx, hy⟩, hMain, by decide, by decide⟩

end Range

end ValueRange
