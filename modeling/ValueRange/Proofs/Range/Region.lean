import ValueRange.Proofs.Range.Optimality

/-! The regions of comparisons. The region of a range admits every integer that compares so with an
integer that the range admits, where a side at its sentinel is unbounded and negative integers lie
above all others in the unsigned order. Equality and the signed order with a bounded range leave no
other integer: what compares so with some integer of the range does so with one of its bounds. -/

namespace ValueRange.Range

variable {s : Sentinels} {b : Range} {c : Comparison} {l u x : Int}

/-! ### Half-bounded ranges -/

theorem admits_below_iff (hu : u < s.posInf) :
    (⟨s, s.negInf, u, false⟩ : Range).Admits x ↔ x ≤ u := by
  constructor
  · rintro ⟨-, -, hTop | hx⟩
    · exact absurd hTop hu.ne
    · exact hx
  · intro hx
    exact ⟨rfl, .inl rfl, .inr hx⟩

theorem admits_above_iff (hl : s.negInf < l) :
    (⟨s, l, s.posInf, false⟩ : Range).Admits x ↔ l ≤ x := by
  constructor
  · rintro ⟨-, hBottom | hx, -⟩
    · exact absurd hBottom hl.ne'
    · exact hx
  · intro hx
    exact ⟨rfl, .inr hx, .inl rfl⟩

/-- Between the sentinels it makes no difference that sides at them are unbounded. -/
theorem WellFormed.admits_iff_mem (h : WellFormed s b) (hl : s.negInf ≤ x) (hu : x ≤ s.posInf) :
    b.Admits x ↔ x ∈ b := by
  constructor
  · intro hx
    rw [← h.sentinels_eq] at hl hu
    exact hx.mem hl hu
  · exact Admits.of_mem

/-! ### Bounded ranges -/

namespace Bounded

theorem lowerUnbounded_eq (hb : Bounded s b) : b.lowerUnbounded = false := by
  simp [lowerUnbounded, hb.sentinels_eq, hb.negInf_lt.ne']

theorem upperUnbounded_eq (hb : Bounded s b) : b.upperUnbounded = false := by
  simp [upperUnbounded, hb.sentinels_eq, hb.lt_posInf.ne]

/-- What passes on to greater integers holds in the range if and only if it holds at the top. -/
theorem exists_mem_iff_upper (hb : Bounded s b) {P : Int → Prop} (hP : Monotone P) :
    (∃ y ∈ b, P y) ↔ P b.upper := by
  constructor
  · rintro ⟨y, ⟨-, -, hy⟩, h⟩
    exact hP hy h
  · intro h
    exact ⟨b.upper, ⟨hb.nonempty, hb.le, le_rfl⟩, h⟩

/-- What passes on to smaller integers holds in the range if and only if it holds at the bottom. -/
theorem exists_mem_iff_lower (hb : Bounded s b) {P : Int → Prop} (hP : Antitone P) :
    (∃ y ∈ b, P y) ↔ P b.lower := by
  constructor
  · rintro ⟨y, ⟨-, hy, -⟩, h⟩
    exact hP hy h
  · intro h
    exact ⟨b.lower, ⟨hb.nonempty, le_rfl, hb.le⟩, h⟩

section Regions

variable (hb : Bounded s b)
include hb

theorem region_eq : region s .eq b = b := by
  rw [region, hb.nonempty]
  rfl

theorem region_sle : region s .sle b = ⟨s, s.negInf, b.upper, false⟩ := by
  have hBottom := hb.negInf_lt
  have hOrder := hb.le
  rw [region, hb.nonempty]
  exact Sentinels.interval_of_between le_rfl (by omega) hb.lt_posInf.le

theorem region_slt : region s .slt b = ⟨s, s.negInf, b.upper - 1, false⟩ := by
  have hBottom := hb.negInf_lt
  have hOrder := hb.le
  have hTop := hb.lt_posInf
  rw [region, hb.nonempty, hb.upperUnbounded_eq]
  exact Sentinels.interval_of_between le_rfl (by omega) (by omega)

theorem region_sge : region s .sge b = ⟨s, b.lower, s.posInf, false⟩ := by
  have hOrder := hb.le
  have hTop := hb.lt_posInf
  rw [region, hb.nonempty]
  exact Sentinels.interval_of_between hb.negInf_lt.le (by omega) le_rfl

theorem region_sgt : region s .sgt b = ⟨s, b.lower + 1, s.posInf, false⟩ := by
  have hBottom := hb.negInf_lt
  have hOrder := hb.le
  have hTop := hb.lt_posInf
  rw [region, hb.nonempty, hb.lowerUnbounded_eq]
  exact Sentinels.interval_of_between (by omega) (by omega) le_rfl

/-- Equality and the signed order leave exactly the integers that compare so with some integer of
the range. -/
theorem region_admits_iff (hc : c ∈ [Comparison.eq, .slt, .sle, .sgt, .sge]) :
    (region s c b).Admits x ↔ ∃ y ∈ b, c.Holds x y := by
  have hBottom := hb.negInf_lt
  have hTop := hb.lt_posInf
  cases c with
  | eq =>
    rw [hb.region_eq, hb.admits_iff_mem]
    constructor
    · intro hx
      exact ⟨x, hx, rfl⟩
    · rintro ⟨y, hy, rfl⟩
      exact hy
  | slt =>
    calc (region s .slt b).Admits x ↔ x ≤ b.upper - 1 := by
          rw [hb.region_slt, admits_below_iff (by omega)]
      _ ↔ x < b.upper := Int.le_sub_one_iff
      _ ↔ ∃ y ∈ b, x < y := (hb.exists_mem_iff_upper fun _ _ hle h => lt_of_lt_of_le h hle).symm
  | sle =>
    calc (region s .sle b).Admits x ↔ x ≤ b.upper := by
          rw [hb.region_sle, admits_below_iff hTop]
      _ ↔ ∃ y ∈ b, x ≤ y := (hb.exists_mem_iff_upper fun _ _ hle h => le_trans h hle).symm
  | sgt =>
    calc (region s .sgt b).Admits x ↔ b.lower + 1 ≤ x := by
          rw [hb.region_sgt, admits_above_iff (by omega)]
      _ ↔ b.lower < x := Int.add_one_le_iff
      _ ↔ ∃ y ∈ b, y < x := (hb.exists_mem_iff_lower fun _ _ hle h => lt_of_le_of_lt hle h).symm
  | sge =>
    calc (region s .sge b).Admits x ↔ b.lower ≤ x := by
          rw [hb.region_sge, admits_above_iff hBottom]
      _ ↔ ∃ y ∈ b, y ≤ x := (hb.exists_mem_iff_lower fun _ _ hle h => le_trans hle h).symm
  | ne | ult | ule | ugt | uge => simp at hc

end Regions

end Bounded

/-- The region of a comparison with a range is never too small, and it is exact for equality and the
signed order with a bounded range. Sides at their sentinels are read as unbounded; between the
sentinels the integers that the region admits are those in it. -/
theorem region_exact (hb : WellFormed s b) (c : Comparison) :
    (∀ x y, b.Admits y → c.Holds x y → (region s c b).Admits x) ∧
    (b.isBounded = true → c ∈ [Comparison.eq, .slt, .sle, .sgt, .sge] → ∀ x,
      ((region s c b).Admits x ↔ ∃ y ∈ b, c.Holds x y) ∧
      (s.negInf ≤ x → x ≤ s.posInf → (x ∈ region s c b ↔ ∃ y ∈ b, c.Holds x y))) := by
  refine ⟨fun x y hy h => region_admits hb.sentinels_eq hy h, fun hBounded hc x => ?_⟩
  have hExact := (hb.bounded hBounded).region_admits_iff (x := x) hc
  refine ⟨hExact, fun hl hu => ?_⟩
  rw [← hExact]
  exact ((hb.region c).admits_iff_mem hl hu).symm

/-- Next to the sentinels of eight bits. What is greater than 126 is the sentinel, which stands for all
integers from there on; and an integer beyond the sentinel is less than some integer that an unbounded
range admits. -/
theorem region_exact_eight :
    let s := Sentinels.ofWidth 8
    region s .sgt (s.singleton 126) = ⟨s, 127, 127, false⟩ ∧
      (127 ∈ region s .sgt (s.singleton 126) ↔ ∃ y ∈ s.singleton 126, y < 127) ∧
      ((region s .sgt (s.singleton 126)).Admits 1000 ↔ ∃ y ∈ s.singleton 126, y < 1000) ∧
      (region s .ult (s.interval 0 127)).Admits 200 := by
  intro s
  have hEdge := (region_exact (WellFormed.interval s 126 126) .sgt).2 (by decide) (by decide)
  have hOpen := (region_exact (WellFormed.interval s 0 127) .ult).1 200 300 (by decide)
  refine ⟨by decide, (hEdge 127).2 (by decide) (by decide), (hEdge 1000).1, hOpen ?_⟩
  show Comparison.UnsignedLt 200 300
  simp [Comparison.UnsignedLt]

end ValueRange.Range
