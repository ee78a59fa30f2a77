import ValueRange.Proofs.Graph.Points
import ValueRange.Proofs.Graph.Retention
import ValueRange.Proofs.Range.Optimality

/-! Sums, differences and products that wrap around. On bounded operands the least and the greatest
result are at corners, so that an overflow at the corners is one of some pair of integers and the
other way around. Then the sink may hold any value of its type; otherwise it holds the hull of the
results, which are all in the type. -/

namespace ValueRange

namespace Range

variable {s : Sentinels} {r o : Range} {t : IntType} {c : Corner} {F : Int → Int → Int} {x z : Int}

section Overflow

variable (hF : ∀ x y, c (.fin x) (.fin y) = some (.fin (F x y))) (hr : Bounded s r)
  (ho : Bounded s o) (ht : t.isInteger = true)
include hF hr ho

include ht in
/-- An overflow is looked for at the four corners. -/
theorem overflows_iff_corners : r.overflows o c t = true ↔
    (¬ t.Contains (F r.lower o.lower) ∨ ¬ t.Contains (F r.lower o.upper)) ∨
      (¬ t.Contains (F r.upper o.lower) ∨ ¬ t.Contains (F r.upper o.upper)) := by
  have hLeaves (n : Int) : (n < t.minValue ∨ t.maxValue < n) ↔ ¬ t.Contains n := by
    unfold IntType.Contains
    omega
  simp [overflows, corners, hr.ends_eq, ho.ends_eq, hr.nonempty, ho.nonempty, ht, hF, hLeaves,
    or_assoc]

variable (hc : Boxed c fun _ => True)
include hc

/-- If the results at the corners are in the type, all results are. -/
theorem contains_of_corners
    (hLow : t.Contains (F r.lower o.lower) ∧ t.Contains (F r.lower o.upper))
    (hHigh : t.Contains (F r.upper o.lower) ∧ t.Contains (F r.upper o.upper))
    (hz : z ∈ results F r o) : t.Contains z := by
  obtain ⟨hLeast, hGreatest⟩ :=
    isLeast_isGreatest_corners hc hr ho trivial trivial fun x y _ _ => hF x y
  constructor
  · refine le_trans ?_ (hLeast.2 hz)
    exact le_min (le_min hLow.1.1 hLow.2.1) (le_min hHigh.1.1 hHigh.2.1)
  · refine le_trans (hGreatest.2 hz) ?_
    exact max_le (max_le hLow.1.2 hLow.2.2) (max_le hHigh.1.2 hHigh.2.2)

/-- An overflow at the corners is one of some pair of integers. -/
theorem overflows_iff (ht : t.isInteger = true) :
    r.overflows o c t = true ↔ ∃ z ∈ results F r o, ¬ t.Contains z := by
  rw [overflows_iff_corners hF hr ho ht]
  constructor
  · rintro ((h | h) | (h | h))
    · exact ⟨_, Set.mem_image2_of_mem hr.admits_lower ho.admits_lower, h⟩
    · exact ⟨_, Set.mem_image2_of_mem hr.admits_lower ho.admits_upper, h⟩
    · exact ⟨_, Set.mem_image2_of_mem hr.admits_upper ho.admits_lower, h⟩
    · exact ⟨_, Set.mem_image2_of_mem hr.admits_upper ho.admits_upper, h⟩
  · rintro ⟨z, hz, hOut⟩
    -- were all corners in the type, so would be the least and the greatest result
    by_contra hCorners
    simp only [not_or, not_not] at hCorners
    exact hOut (contains_of_corners hF hr ho hc hCorners.1 hCorners.2 hz)

end Overflow

end Range

namespace Graph

open Range

variable {g : Graph} {f : BinaryOp} {n a b : NodeId} {t : IntType}
variable {s : Sentinels} {r o : Range} {c : Corner} {F : Int → Int → Int}

section Wrapping

variable (hF : ∀ x y, c (.fin x) (.fin y) = some (.fin (F x y))) (hr : Bounded s r)
  (ho : Bounded s o) (hc : Boxed c fun _ => True) (ht : t.isInteger = true)
  (hWidth : t.signedWidth ≤ s.bits)
include hF hr ho hc ht hWidth

theorem evalWrapping_of_overflow (h : ∃ z ∈ results F r o, ¬ t.Contains z) :
    evalWrapping s c t r o = s.ofType t := by
  rw [evalWrapping, if_pos ((overflows_iff hF hr ho hc ht).mpr h)]
  exact Sentinels.interval_type ht hWidth

theorem evalWrapping_of_fits (h : ∀ z ∈ results F r o, t.Contains z) :
    ∃ least greatest, IsLeast (results F r o) least ∧ IsGreatest (results F r o) greatest ∧
      evalWrapping s c t r o = ⟨s, least, greatest, false⟩ := by
  have hFits : ¬ r.overflows o c t = true := by
    rw [overflows_iff hF hr ho hc ht]
    rintro ⟨z, hz, hOut⟩
    exact hOut (h z hz)
  obtain ⟨least, greatest, hLeast, hGreatest, hEq⟩ :=
    combine_exact_self hc hr ho trivial trivial fun x y _ _ => hF x y
  obtain ⟨hBottom, hTop⟩ := (h least hLeast.1).between hWidth
  obtain ⟨hBottom', hTop'⟩ := (h greatest hGreatest.1).between hWidth
  refine ⟨least, greatest, hLeast, hGreatest, ?_⟩
  rw [evalWrapping, if_neg hFits, hEq, hr.sentinels_eq, Sentinels.clamp_of_between hBottom hTop,
    Sentinels.clamp_of_between hBottom' hTop']

/-- The result reduced into the type is held, whether it wraps around or not. -/
theorem mem_evalWrapping_wrap {z : Int} (hz : z ∈ results F r o) :
    t.wrap z ∈ evalWrapping s c t r o := by
  by_cases h : ∃ z ∈ results F r o, ¬ t.Contains z
  · rw [evalWrapping_of_overflow hF hr ho hc ht hWidth h]
    exact ⟨rfl, t.contains_wrap ht z⟩
  · simp only [not_exists, not_and, not_not] at h
    obtain ⟨least, greatest, hLeast, hGreatest, hEq⟩ :=
      evalWrapping_of_fits hF hr ho hc ht hWidth h
    rw [hEq, IntType.wrap_of_contains ht (h z hz)]
    exact ⟨rfl, hLeast.2 hz, hGreatest.2 hz⟩

end Wrapping

/-- Wrap-around is covered for bounded operands. The range of a sum, difference or product holds every
result of integers of its operands, reduced into the type of the sink; and if all results are in the
type, the range is the interval from the least to the greatest of them. -/
theorem evalBinary_wraps (hF : Interpretation.exact.binary? f = some F)
    (ha : WellFormed g.sentinels (g.range a)) (hb : WellFormed g.sentinels (g.range b))
    (haBounded : (g.range a).isBounded = true) (hbBounded : (g.range b).isBounded = true)
    (hType : g.typeOf n = t) (ht : t.isInteger = true) (hWidth : t.signedWidth ≤ g.sentinels.bits) :
    (∀ x ∈ g.range a, ∀ y ∈ g.range b, t.wrap (F x y) ∈ g.evalKind n (.binary f a b)) ∧
    ((∀ x ∈ g.range a, ∀ y ∈ g.range b, t.Contains (F x y)) →
      ∃ least greatest, IsLeast {z | ∃ x ∈ g.range a, ∃ y ∈ g.range b, F x y = z} least ∧
        IsGreatest {z | ∃ x ∈ g.range a, ∃ y ∈ g.range b, F x y = z} greatest ∧
        g.evalKind n (.binary f a b) = ⟨g.sentinels, least, greatest, false⟩) := by
  obtain ⟨c, hCorner⟩ : ∃ c, f.corner? = some c := by
    cases f <;> cases hF <;> exact ⟨_, rfl⟩
  have hExact := corner_of_fin hCorner hF
  have hr := ha.bounded haBounded
  have ho := hb.bounded hbBounded
  have hBoxed := corner_boxed hCorner
  have hEval : g.evalKind n (.binary f a b) =
      evalWrapping g.sentinels c t (g.range a) (g.range b) := by
    rw [evalKind, hType, evalBinary_of_corner hCorner]
  have hResults : {z | ∃ x ∈ g.range a, ∃ y ∈ g.range b, F x y = z} =
      results F (g.range a) (g.range b) := by
    simp only [results, Set.image2, Set.mem_ofPred_eq, hr.admits_iff_mem, ho.admits_iff_mem]
  rw [hEval, hResults]
  constructor
  · intro x hx y hy
    apply mem_evalWrapping_wrap hExact hr ho hBoxed ht hWidth
    exact Set.mem_image2_of_mem (hr.admits_iff_mem.mpr hx) (ho.admits_iff_mem.mpr hy)
  · intro hFits
    apply evalWrapping_of_fits hExact hr ho hBoxed ht hWidth
    rintro z ⟨x, hx, y, hy, rfl⟩
    exact hFits x (hr.admits_iff_mem.mp hx) y (ho.admits_iff_mem.mp hy)

/-- The ranges and types at the product and the difference of the loop that counts down. -/
theorem descending_operands :
    let g := (solve.run.run descending).2
    let s := Sentinels.ofWidth 9
    g.sentinels = s ∧
      (g.range 2 = ⟨s, 0, 5, false⟩ ∧ g.range 3 = ⟨s, 0, 0, false⟩ ∧ g.typeOf 4 = ⟨8, true⟩) ∧
      g.range 5 = ⟨s, 0, 5, false⟩ ∧ g.range 6 = ⟨s, 1, 1, false⟩ ∧ g.typeOf 1 = ⟨8, true⟩ := by
  decide +kernel

/-- In the loop that counts down, the product by zero stays in the type, and the difference at the end
wraps around. -/
theorem descending_wraps :
    let g := (solve.run.run descending).2
    g.evalKind 4 (.binary .mul 2 3) = ⟨.ofWidth 9, 0, 0, false⟩ ∧
      255 ∈ g.evalKind 1 (.binary .sub 5 6) := by
  obtain ⟨hs, ⟨h2, h3, hProduct⟩, h5, h6, hDifference⟩ := descending_operands
  generalize (solve.run.run descending).2 = g at *
  have hFormed {n : NodeId} {l u : Int} (hRange : g.range n = ⟨.ofWidth 9, l, u, false⟩)
      (hl : -256 ≤ l) (h : l ≤ u) (hu : u ≤ 255) : WellFormed g.sentinels (g.range n) := by
    rw [hs, hRange]
    exact .between hl h hu
  have hWidth : (⟨8, true⟩ : IntType).signedWidth ≤ g.sentinels.bits := by
    rw [hs]
    decide
  have hZero {x y : Int} (hy : y ∈ g.range 3) : x * y = 0 := by
    rw [h3] at hy
    rw [le_antisymm hy.2.2 hy.2.1, mul_zero]
  constructor
  · have hMul := evalBinary_wraps (f := .mul) rfl
      (hFormed h2 (by decide) (by decide) (by decide)) (hFormed h3 (by decide) (by decide) (by decide))
      (by rw [h2]; decide) (by rw [h3]; decide) hProduct (by decide) hWidth
    obtain ⟨least, greatest, ⟨⟨x, -, y, hy, hLeast⟩, -⟩, ⟨⟨x', -, y', hy', hGreatest⟩, -⟩, hEval⟩ :=
      hMul.2 fun x _ y hy => by rw [hZero hy]; decide
    rw [hEval, ← hLeast, ← hGreatest, hZero hy, hZero hy', hs]
  · have hSub := evalBinary_wraps (f := .sub) rfl
      (hFormed h5 (by decide) (by decide) (by decide)) (hFormed h6 (by decide) (by decide) (by decide))
      (by rw [h5]; decide) (by rw [h6]; decide) hDifference (by decide) hWidth
    exact hSub.1 0 (by rw [h5]; decide) 1 (by rw [h6]; decide)

end Graph

end ValueRange
