import Mathlib.Order.Lattice
import ValueRange.Range.Basic

/-! The bounds of ranges. A range is well-formed if it is the empty range of its sentinels or lies
between them with its bounds the right way around. A side at its sentinel is unbounded, and a range
admits the integers between its bounded sides. -/

namespace ValueRange

namespace Sentinels

variable {s : Sentinels} {l u m n : Int}

theorem negInf_neg (s : Sentinels) : s.negInf < 0 := by
  have := pow2_pos (s.bits - 1)
  unfold negInf
  omega

theorem posInf_pos (s : Sentinels) : 0 < s.posInf := by
  have hTwo : pow2 1 ≤ pow2 (s.bits - 1) :=
    Int.ofNat_le.mpr (Nat.pow_le_pow_right (by decide) (by have := s.two_le_bits; omega))
  have hPow : pow2 1 = 2 := rfl
  unfold posInf
  omega

theorem clamp_of_between (hl : s.negInf ≤ n) (hu : n ≤ s.posInf) : s.clamp n = n := by
  unfold clamp
  rw [if_neg (by omega), if_neg (by omega)]

theorem clamp_mono (h : m ≤ n) : s.clamp m ≤ s.clamp n := by
  have := s.negInf_lt_posInf
  unfold clamp
  split_ifs <;> omega

/-- The clamped number is at most `n` unless all of the range lies above `n`. -/
theorem clamp_le_of_le (h : m ≤ n) (hn : s.negInf ≤ n) : s.clamp m ≤ n := by
  have := s.negInf_lt_posInf
  unfold clamp
  split_ifs <;> omega

theorem le_clamp_of_le (h : n ≤ m) (hn : n ≤ s.posInf) : n ≤ s.clamp m := by
  have := s.negInf_lt_posInf
  unfold clamp
  split_ifs <;> omega

/-- A clamped lower bound is unbounded or still a bound. -/
theorem clamp_eq_negInf_or_le (h : m ≤ n) : s.clamp m = s.negInf ∨ s.clamp m ≤ n := by
  have := s.negInf_lt_posInf
  unfold clamp
  split_ifs <;> omega

/-- A clamped upper bound is unbounded or still a bound. -/
theorem clamp_eq_posInf_or_le (h : n ≤ m) : s.clamp m = s.posInf ∨ n ≤ s.clamp m := by
  have := s.negInf_lt_posInf
  unfold clamp
  split_ifs <;> omega

theorem interval_of_le (h : l ≤ u) : s.interval l u = ⟨s, s.clamp l, s.clamp u, false⟩ := by
  unfold interval
  rw [if_neg (by have := s.clamp_mono h; omega)]

/-- Bounds between the sentinels are kept as they are. -/
theorem interval_of_between (hl : s.negInf ≤ l) (h : l ≤ u) (hu : u ≤ s.posInf) :
    s.interval l u = ⟨s, l, u, false⟩ := by
  rw [interval_of_le h, clamp_of_between hl (by omega), clamp_of_between (by omega) hu]

theorem mem_interval (hl : l ≤ n) (hu : n ≤ u) (hn : s.negInf ≤ n) (hp : n ≤ s.posInf) :
    n ∈ s.interval l u := by
  rw [interval_of_le (by omega)]
  exact ⟨rfl, clamp_le_of_le hl hn, le_clamp_of_le hu hp⟩

/-- What an interval holds lies between its bounds, unless these are beyond the sentinels. -/
theorem bounds_of_mem_interval (hl : l ≤ s.posInf) (hu : s.negInf ≤ u) (h : n ∈ s.interval l u) :
    l ≤ n ∧ n ≤ u := by
  unfold interval at h
  split at h
  · cases h.1
  · obtain ⟨-, hLow, hHigh⟩ := h
    unfold clamp at hLow hHigh
    dsimp only at hLow hHigh
    split_ifs at hLow hHigh <;> omega

theorem negInf_le_ofExtended (e : Extended) : s.negInf ≤ s.ofExtended e := by
  have := s.negInf_lt_posInf
  cases e with
  | negInf => exact le_refl _
  | fin n => exact s.negInf_le_clamp n
  | posInf => exact le_of_lt this

theorem ofExtended_le_posInf (e : Extended) : s.ofExtended e ≤ s.posInf := by
  have := s.negInf_lt_posInf
  cases e with
  | negInf => exact le_of_lt this
  | fin n => exact s.clamp_le_posInf n
  | posInf => exact le_refl _

end Sentinels

namespace Range

/-- The range is the empty one of the sentinels, or lies between them. -/
inductive WellFormed (s : Sentinels) : Range → Prop
  | empty : WellFormed s s.empty
  | between {l u : Int} (hl : s.negInf ≤ l) (h : l ≤ u) (hu : u ≤ s.posInf) :
      WellFormed s ⟨s, l, u, false⟩

/-- The integer lies between the bounded sides of the range, which is not empty. -/
def Admits (r : Range) (n : Int) : Prop :=
  r.isEmpty = false ∧ (r.lower = r.sentinels.negInf ∨ r.lower ≤ n) ∧
    (r.upper = r.sentinels.posInf ∨ n ≤ r.upper)

instance (r : Range) (n : Int) : Decidable (r.Admits n) :=
  inferInstanceAs (Decidable (_ ∧ _ ∧ _))

variable {s : Sentinels} {r o q : Range} {l u n : Int}

theorem Admits.of_mem (h : n ∈ r) : r.Admits n := ⟨h.1, .inr h.2.1, .inr h.2.2⟩

/-- What a range admits between the sentinels is in the range. -/
theorem Admits.mem (h : r.Admits n) (hl : r.sentinels.negInf ≤ n) (hu : n ≤ r.sentinels.posInf) :
    n ∈ r := by
  obtain ⟨he, hlo, hup⟩ := h
  exact ⟨he, by omega, by omega⟩

namespace WellFormed

theorem sentinels_eq (h : WellFormed s r) : r.sentinels = s := by
  cases h <;> rfl

theorem negInf_le (h : WellFormed s r) : s.negInf ≤ r.lower := by
  have := s.negInf_lt_posInf
  cases h with
  | empty => exact le_of_lt this
  | between hl _ _ => exact hl

theorem le_posInf (h : WellFormed s r) : r.upper ≤ s.posInf := by
  have := s.negInf_lt_posInf
  cases h with
  | empty => exact le_of_lt this
  | between _ _ hu => exact hu

theorem lower_le_upper (h : WellFormed s r) (he : r.isEmpty = false) : r.lower ≤ r.upper := by
  cases h with
  | empty => cases he
  | between _ hlu _ => exact hlu

/-- A well-formed range is given by its bounds, unless it is empty. -/
theorem eq_of_not_empty (h : WellFormed s r) (he : r.isEmpty = false) :
    r = ⟨s, r.lower, r.upper, false⟩ := by
  cases h with
  | empty => cases he
  | between => rfl

theorem max (s : Sentinels) : WellFormed s s.max :=
  .between (le_refl _) (le_of_lt s.negInf_lt_posInf) (le_refl _)

theorem interval (s : Sentinels) (l u : Int) : WellFormed s (s.interval l u) := by
  unfold Sentinels.interval
  split
  · exact .empty
  · exact .between (s.negInf_le_clamp l) (by omega) (s.clamp_le_posInf u)

theorem span (s : Sentinels) (l u : Extended) : WellFormed s (s.span l u) := interval s _ _

end WellFormed

theorem subset_refl (r : Range) : r ⊆ r := by
  cases h : r.isEmpty with
  | true => exact .inl h
  | false => exact .inr ⟨h, le_refl _, le_refl _⟩

theorem subset_trans (h : r ⊆ o) (h' : o ⊆ q) : r ⊆ q := by
  rcases h with he | ⟨he, hl, hu⟩
  · exact .inl he
  · rcases h' with he' | ⟨he', hl', hu'⟩
    · rw [he] at he'
      cases he'
    · exact .inr ⟨he', le_trans hl' hl, le_trans hu hu'⟩

theorem mem_of_subset (h : r ⊆ o) (hn : n ∈ r) : n ∈ o := by
  rcases h with he | ⟨he, hl, hu⟩
  · rw [hn.1] at he
    cases he
  · exact ⟨he, le_trans hl hn.2.1, le_trans hn.2.2 hu⟩

/-- A range is within another if its integers are. -/
theorem subset_of_forall_mem (hr : WellFormed s r) (h : ∀ n ∈ r, n ∈ o) : r ⊆ o := by
  cases hr with
  | empty => exact .inl rfl
  | between _ hle _ =>
    have hLower := h _ ⟨rfl, le_refl _, hle⟩
    have hUpper := h _ ⟨rfl, hle, le_refl _⟩
    exact .inr ⟨hLower.1, hLower.2.1, hUpper.2.2⟩

theorem empty_subset (s : Sentinels) (r : Range) : s.empty ⊆ r := .inl rfl

theorem subset_max (h : WellFormed s r) : r ⊆ s.max := .inr ⟨rfl, h.negInf_le, h.le_posInf⟩

theorem not_isEmpty_of_subset (h : r ⊆ o) (he : r.isEmpty = false) : o.isEmpty = false := by
  rcases h with hr | ⟨ho, -⟩
  · rw [he] at hr
    cases hr
  · exact ho

theorem bounds_of_subset (h : r ⊆ o) (he : r.isEmpty = false) :
    o.lower ≤ r.lower ∧ r.upper ≤ o.upper := by
  rcases h with hr | ⟨-, h⟩
  · rw [he] at hr
    cases hr
  · exact h

/-- Intervals are compared by their clamped bounds. -/
theorem interval_subset_of_clamp {l' u' : Int} (hl : s.clamp l' ≤ s.clamp l)
    (hu : s.clamp u ≤ s.clamp u') : s.interval l u ⊆ s.interval l' u' := by
  by_cases h : s.clamp u < s.clamp l
  · unfold Sentinels.interval
    rw [if_pos h]
    exact .inl rfl
  · unfold Sentinels.interval
    rw [if_neg h, if_neg (by omega)]
    exact .inr ⟨rfl, hl, hu⟩

theorem interval_subset {l' u' : Int} (hl : l' ≤ l) (hu : u ≤ u') :
    s.interval l u ⊆ s.interval l' u' :=
  interval_subset_of_clamp (s.clamp_mono hl) (s.clamp_mono hu)

/-- A range between the bounds of an interval is part of it. -/
theorem WellFormed.subset_interval {l' u' : Int} (h : WellFormed s r) (hl : l' ≤ r.lower)
    (hu : r.upper ≤ u') : r ⊆ s.interval l' u' := by
  cases h with
  | empty => exact .inl rfl
  | between hLow hle hHigh =>
    rw [← Sentinels.interval_of_between hLow hle hHigh]
    exact interval_subset hl hu

/-- An interval admits what lies between its bounds, also where they are clamped. -/
theorem interval_admits (hl : l ≤ n) (hu : n ≤ u) : (s.interval l u).Admits n := by
  rw [Sentinels.interval_of_le (by omega)]
  exact ⟨rfl, Sentinels.clamp_eq_negInf_or_le hl, Sentinels.clamp_eq_posInf_or_le hu⟩

/-- An interval admits what lies between those of its bounds that are no sentinels. -/
theorem interval_admits_sides (hl : l = s.negInf ∨ l ≤ n) (hu : u = s.posInf ∨ n ≤ u) :
    (s.interval l u).Admits n := by
  have hLt := s.negInf_lt_posInf
  have hBottom : s.clamp s.negInf = s.negInf := Sentinels.clamp_of_between (le_refl _) (by omega)
  have hTop : s.clamp s.posInf = s.posInf := Sentinels.clamp_of_between (by omega) (le_refl _)
  have hLower : s.clamp l = s.negInf ∨ s.clamp l ≤ n := by
    rcases hl with rfl | hl
    · exact .inl hBottom
    · exact Sentinels.clamp_eq_negInf_or_le hl
  have hUpper : s.clamp u = s.posInf ∨ n ≤ s.clamp u := by
    rcases hu with rfl | hu
    · exact .inl hTop
    · exact Sentinels.clamp_eq_posInf_or_le hu
  have := s.negInf_le_clamp u
  have := s.clamp_le_posInf l
  rw [Sentinels.interval, if_neg (by omega)]
  exact ⟨rfl, hLower, hUpper⟩

theorem max_admits (s : Sentinels) (n : Int) : s.max.Admits n := ⟨rfl, .inl rfl, .inl rfl⟩

/-- A well-formed range is the interval between its bounds, unless it is empty. -/
theorem WellFormed.eq_interval (h : WellFormed s r) (he : r.isEmpty = false) :
    r = s.interval r.lower r.upper := by
  rw [Sentinels.interval_of_between h.negInf_le (h.lower_le_upper he) h.le_posInf]
  exact h.eq_of_not_empty he

theorem WellFormed.mem_bounds (h : WellFormed s r) (hn : n ∈ r) : s.negInf ≤ n ∧ n ≤ s.posInf :=
  ⟨le_trans h.negInf_le hn.2.1, le_trans hn.2.2 h.le_posInf⟩

theorem isMax_iff (h : WellFormed s r) : r.isMax = true ↔ r = s.max := by
  constructor
  · intro hm
    cases h with
    | empty => cases hm
    | between hl hlu hu =>
      simp only [isMax, lowerUnbounded, upperUnbounded, Bool.not_false, Bool.true_and,
        Bool.and_eq_true, beq_iff_eq] at hm
      rw [hm.1, hm.2]
      rfl
  · rintro rfl
    simp [isMax, lowerUnbounded, upperUnbounded, Sentinels.max]

end Range

end ValueRange
