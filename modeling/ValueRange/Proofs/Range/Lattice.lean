import Mathlib.Order.BoundedOrder.Basic
import ValueRange.Proofs.Range.Bounds

/-! Intersections and unions of ranges: what they hold, that they are well-formed, and that they are
monotone. The well-formed ranges of one pair of sentinels are a bounded lattice. -/

namespace ValueRange

namespace Range

variable {s : Sentinels} {r o q r' o' : Range} {n : Int}

theorem intersect_of_empty (h : r.isEmpty = true ∨ o.isEmpty = true) :
    r.intersect o = r.sentinels.empty := by
  rw [intersect, if_pos (by simpa using h)]

theorem WellFormed.intersect (hr : WellFormed s r) (o : Range) : WellFormed s (r.intersect o) := by
  rw [← hr.sentinels_eq]
  unfold Range.intersect
  split
  · exact .empty
  · exact .interval _ _ _

theorem mem_intersect (hr : WellFormed s r) (hn : n ∈ r) (hn' : n ∈ o) : n ∈ r.intersect o := by
  obtain ⟨hl, hu⟩ := hr.mem_bounds hn
  rw [intersect, hn.1, hn'.1, hr.sentinels_eq]
  exact Sentinels.mem_interval (max_le hn.2.1 hn'.2.1) (le_min hn.2.2 hn'.2.2) hl hu

theorem intersect_subset_left (hr : WellFormed s r) (o : Range) : r.intersect o ⊆ r := by
  by_cases he : r.isEmpty = true ∨ o.isEmpty = true
  · rw [intersect_of_empty he]
    exact .inl rfl
  · simp only [not_or, Bool.not_eq_true] at he
    rw [intersect, he.1, he.2, hr.sentinels_eq]
    refine subset_trans (interval_subset (le_max_left r.lower o.lower) (min_le_left r.upper o.upper)) ?_
    rw [← hr.eq_interval he.1]
    exact subset_refl r

theorem intersect_comm (hr : WellFormed s r) (ho : WellFormed s o) :
    r.intersect o = o.intersect r := by
  rw [intersect, intersect, hr.sentinels_eq, ho.sentinels_eq, Bool.or_comm, max_comm, min_comm]

theorem intersect_subset_right (hr : WellFormed s r) (ho : WellFormed s o) : r.intersect o ⊆ o := by
  rw [intersect_comm hr ho]
  exact intersect_subset_left ho r

/-- The intersection is the greatest range that both hold. -/
theorem subset_intersect (hr : WellFormed s r) (hq : WellFormed s q) (h : q ⊆ r) (h' : q ⊆ o) :
    q ⊆ r.intersect o := by
  cases he : q.isEmpty with
  | true => exact .inl he
  | false =>
    obtain ⟨hl, hu⟩ := bounds_of_subset h he
    obtain ⟨hl', hu'⟩ := bounds_of_subset h' he
    rw [intersect, not_isEmpty_of_subset h he, not_isEmpty_of_subset h' he, hr.sentinels_eq]
    exact hq.subset_interval (max_le hl hl') (le_min hu hu')

theorem mem_intersect_iff (hr : WellFormed s r) (ho : WellFormed s o) :
    n ∈ r.intersect o ↔ n ∈ r ∧ n ∈ o := by
  constructor
  · intro h
    exact ⟨mem_of_subset (intersect_subset_left hr o) h,
      mem_of_subset (intersect_subset_right hr ho) h⟩
  · rintro ⟨h, h'⟩
    exact mem_intersect hr h h'

theorem intersect_subset (hr : WellFormed s r) (hr' : WellFormed s r') (h : r ⊆ r')
    (h' : o ⊆ o') : r.intersect o ⊆ r'.intersect o' := by
  by_cases he : r.isEmpty = true ∨ o.isEmpty = true
  · rw [intersect_of_empty he]
    exact .inl rfl
  · simp only [not_or, Bool.not_eq_true] at he
    have hRight := not_isEmpty_of_subset h he.1
    have hLeft := not_isEmpty_of_subset h' he.2
    have hBounds := bounds_of_subset h he.1
    have hBounds' := bounds_of_subset h' he.2
    rw [intersect, intersect, he.1, he.2, hRight, hLeft, hr.sentinels_eq, hr'.sentinels_eq]
    exact interval_subset (by omega) (by omega)

theorem WellFormed.union (hr : WellFormed s r) (ho : WellFormed s o) :
    WellFormed s (r.union o) := by
  unfold Range.union
  split
  · exact ho
  · split
    · exact hr
    · rw [hr.sentinels_eq]
      exact .interval _ _ _

theorem subset_union_left (hr : WellFormed s r) (o : Range) : r ⊆ r.union o := by
  unfold Range.union
  split
  · exact .inl ‹_›
  · split
    · exact subset_refl r
    · rw [hr.sentinels_eq]
      exact hr.subset_interval (min_le_left _ _) (le_max_left _ _)

theorem subset_union_right (hr : WellFormed s r) (ho : WellFormed s o) : o ⊆ r.union o := by
  unfold Range.union
  split
  · exact subset_refl o
  · split
    · exact .inl ‹_›
    · rw [hr.sentinels_eq]
      exact ho.subset_interval (min_le_right _ _) (le_max_right _ _)

/-- The union is the least range that holds both. -/
theorem union_subset (hr : WellFormed s r) (hq : WellFormed s r') (h : r ⊆ r') (h' : o ⊆ r') :
    r.union o ⊆ r' := by
  unfold Range.union
  split
  · exact h'
  · split
    · exact h
    · rename_i he ho
      rw [Bool.not_eq_true] at he ho
      obtain ⟨hl, hu⟩ := bounds_of_subset h he
      obtain ⟨hl', hu'⟩ := bounds_of_subset h' ho
      rw [hq.eq_interval (not_isEmpty_of_subset h he), hr.sentinels_eq]
      exact interval_subset (le_min hl hl') (max_le hu hu')

/-! ### The order -/

theorem WellFormed.eq_empty (h : WellFormed s r) (he : r.isEmpty = true) : r = s.empty := by
  cases h with
  | empty => rfl
  | between => cases he

theorem subset_antisymm (hr : WellFormed s r) (ho : WellFormed s o) (h : r ⊆ o) (h' : o ⊆ r) :
    r = o := by
  cases he : r.isEmpty with
  | true =>
    have he' : o.isEmpty = true := by
      by_contra hNot
      rw [Bool.not_eq_true] at hNot
      exact absurd (he.symm.trans (not_isEmpty_of_subset h' hNot)) (by decide)
    rw [hr.eq_empty he, ho.eq_empty he']
  | false =>
    have he' := not_isEmpty_of_subset h he
    obtain ⟨hl, hu⟩ := bounds_of_subset h he
    obtain ⟨hl', hu'⟩ := bounds_of_subset h' he'
    rw [hr.eq_of_not_empty he, ho.eq_of_not_empty he', le_antisymm hl' hl, le_antisymm hu hu']

/-- Well-formed ranges of one pair of sentinels that hold the same integers are equal. -/
theorem same_iff_eq (hr : WellFormed s r) (ho : WellFormed s o) : r.Same o ↔ r = o := by
  constructor
  · intro h
    unfold Same at h
    split_ifs at h with he
    · rw [h, Bool.or_self] at he
      rw [hr.eq_empty (h.trans he), ho.eq_empty he]
    · simp only [Bool.or_eq_true, not_or, Bool.not_eq_true] at he
      rw [hr.eq_of_not_empty he.1, ho.eq_of_not_empty he.2, h.1, h.2]
  · rintro rfl
    unfold Same
    split_ifs
    · rfl
    · exact ⟨rfl, rfl⟩

end Range

/-- The well-formed ranges of the sentinels. -/
abbrev Sentinels.Ranges (s : Sentinels) : Type := {r : Range // Range.WellFormed s r}

open Range

/-- Ranges are ordered by what they hold. A join is a union and a meet an intersection. -/
instance (s : Sentinels) : Lattice s.Ranges where
  le r o := r.1 ⊆ o.1
  le_refl r := subset_refl r.1
  le_trans _ _ _ h h' := subset_trans h h'
  le_antisymm r o h h' := Subtype.ext (subset_antisymm r.2 o.2 h h')
  sup r o := ⟨r.1.union o.1, r.2.union o.2⟩
  le_sup_left r o := subset_union_left r.2 o.1
  le_sup_right r o := subset_union_right r.2 o.2
  sup_le r _ q h h' := union_subset r.2 q.2 h h'
  inf r o := ⟨r.1.intersect o.1, r.2.intersect o.1⟩
  inf_le_left r o := intersect_subset_left r.2 o.1
  inf_le_right r o := intersect_subset_right r.2 o.2
  le_inf q r _ h h' := subset_intersect r.2 q.2 h h'

instance (s : Sentinels) : BoundedOrder s.Ranges where
  top := ⟨s.max, .max s⟩
  le_top r := subset_max r.2
  bot := ⟨s.empty, .empty⟩
  bot_le _ := .inl rfl

end ValueRange
