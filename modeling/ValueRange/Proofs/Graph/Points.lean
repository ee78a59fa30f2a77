import ValueRange.Proofs.Graph.Evaluation
import ValueRange.Proofs.Program.StraightLine

/-! Sums, differences and products of single integers. A bound that equals a sentinel counts as
infinite, so that arithmetic on it saturates, or leaves the result unbounded where infinities cancel
each other. Arithmetic on ranges of one integer is this saturating arithmetic. -/

namespace ValueRange

/-- A sum, difference or product of integers of which the sentinels count as infinite. Nothing is
known of the sum of opposite infinities, nor of what is computed from it except by a product with
zero. -/
def Sentinels.saturate (s : Sentinels) (f : BinaryOp) (c : Range.Corner) (x y : Option Int) :
    Option Int :=
  match x, y with
  | some m, some n => (c (s.toExtended m) (s.toExtended n)).map s.ofExtended
  | _, _ => if f = .mul ∧ (x = some 0 ∨ y = some 0) then some 0 else none

/-- Integers between the sentinels with saturating arithmetic. -/
def Interpretation.saturating (s : Sentinels) : Interpretation (Option Int) where
  const c := some (s.clamp c)
  binary? f := f.corner?.map (s.saturate f)

/-- Sums, differences and products have an exact meaning and one at the corners of ranges. -/
theorem exists_meaning {f : BinaryOp} (hf : f ∈ [BinaryOp.add, .sub, .mul]) :
    ∃ c F, f.corner? = some c ∧ Interpretation.exact.binary? f = some F := by
  simp only [List.mem_cons, List.not_mem_nil, or_false] at hf
  rcases hf with rfl | rfl | rfl <;> exact ⟨_, _, rfl, rfl⟩

namespace Sentinels

variable {s : Sentinels} {n : Int}

/-- The range of one integer, or the unbounded one. -/
def point (s : Sentinels) : Option Int → Range
  | some n => s.singleton n
  | none => s.max

/-- The integer, if any, is not beyond the sentinels. -/
def Holds (s : Sentinels) (x : Option Int) : Prop :=
  ∀ n, x = some n → s.negInf ≤ n ∧ n ≤ s.posInf

theorem singleton_of_between (hl : s.negInf ≤ n) (hu : n ≤ s.posInf) :
    s.singleton n = ⟨s, n, n, false⟩ :=
  interval_of_between hl (Int.le_refl n) hu

theorem point_clamp (s : Sentinels) (n : Int) : s.point (some (s.clamp n)) = s.singleton n := by
  rw [point, singleton_of_between (s.negInf_le_clamp n) (s.clamp_le_posInf n), singleton,
    interval_of_le (Int.le_refl n)]

theorem holds_clamp (s : Sentinels) (n : Int) : s.Holds (some (s.clamp n)) := by
  rintro m ⟨⟩
  exact ⟨s.negInf_le_clamp n, s.clamp_le_posInf n⟩

theorem clamp_of_inner (h : s.Inner (s.clamp n)) : s.clamp n = n := by
  have := s.negInf_lt_posInf
  obtain ⟨hl, hu⟩ := h
  unfold clamp at hl hu ⊢
  split_ifs at hl hu ⊢ <;> omega

theorem toExtended_fin {m : Int} (h : s.toExtended m = .fin n) : n = m ∧ s.Inner m := by
  unfold toExtended at h
  split_ifs at h
  cases h
  exact ⟨rfl, by omega, by omega⟩

theorem toExtended_of_inner (h : s.Inner n) : s.toExtended n = .fin n := by
  have := h.1
  have := h.2
  rw [toExtended, if_neg (by omega), if_neg (by omega)]

theorem inner_zero (s : Sentinels) : s.Inner 0 := ⟨s.negInf_neg, s.posInf_pos⟩

/-- The ranges that hold an integer, among those of one integer and the unbounded one. -/
theorem mem_point {x : Option Int} (hx : s.Holds x) (hl : s.negInf ≤ n) (hu : n ≤ s.posInf) :
    n ∈ s.point x ↔ x = none ∨ x = some n := by
  cases x with
  | none => exact ⟨fun _ => .inl rfl, fun _ => ⟨rfl, hl, hu⟩⟩
  | some m =>
    obtain ⟨hLow, hHigh⟩ := hx m rfl
    rw [point, singleton_of_between hLow hHigh]
    constructor
    · rintro ⟨-, h, h'⟩
      exact .inr (congrArg some (Int.le_antisymm h h'))
    · rintro (h | h)
      · cases h
      · cases h
        exact ⟨rfl, Int.le_refl _, Int.le_refl _⟩

end Sentinels

open Range

variable {s : Sentinels} {f : BinaryOp} {c : Corner} {x y : Option Int} {m n k : Int}

/-! ### Corners -/

section Corners

variable {r o : Range}

/-- A combined range is unbounded if a corner has no value, or if one is infinite on each side. -/
theorem combine_eq_max (hr : r.isEmpty = false) (ho : o.isEmpty = false)
    (h : (∃ q ∈ r.corners o, c q.1 q.2 = none) ∨
      (∃ q ∈ r.corners o, c q.1 q.2 = some .negInf) ∧ ∃ q ∈ r.corners o, c q.1 q.2 = some .posInf) :
    r.combine o c = r.sentinels.max := by
  rcases combine_cases (f := c) hr ho with hMax | ⟨a, b, d, e, ha, hb, hd, he⟩
  · exact hMax
  rw [combine_of_some hr ho ha hb hd he]
  simp only [corners, List.mem_cons, List.not_mem_nil, or_false, exists_eq_or_imp, exists_eq_left,
    ha, hb, hd, he, Option.some.injEq, reduceCtorEq, or_self, false_or] at h
  obtain ⟨hLow, hHigh⟩ := h
  have hMin : Min.min (Min.min a b) (Min.min d e) = .negInf := by
    refine Extended.eq_negInf ?_
    rcases hLow with rfl | rfl | rfl | rfl <;> simp
  have hMax : Max.max (Max.max a b) (Max.max d e) = .posInf := by
    refine Extended.eq_posInf ?_
    rcases hHigh with rfl | rfl | rfl | rfl <;> simp
  rw [hMin, hMax]
  exact Sentinels.interval_of_between (Int.le_refl _) (Int.le_of_lt r.sentinels.negInf_lt_posInf)
    (Int.le_refl _)

/-- A combined range is a point if all corners have one value. -/
theorem combine_eq_singleton {v : Extended} (hr : r.isEmpty = false) (ho : o.isEmpty = false)
    (h : ∀ q ∈ r.corners o, c q.1 q.2 = some v) :
    r.combine o c = r.sentinels.singleton (r.sentinels.ofExtended v) := by
  simp only [corners, List.forall_mem_cons, List.not_mem_nil, false_implies, implies_true,
    and_true] at h
  obtain ⟨h₁, h₂, h₃, h₄⟩ := h
  rw [combine_of_some hr ho h₁ h₂ h₃ h₄]
  simp only [min_self, max_self]
  rfl

theorem ends_max (s : Sentinels) : s.max.ends = (.negInf, .posInf) :=
  Prod.ext s.toExtended_negInf s.toExtended_posInf

/-- At an infinity on the left a sum, difference or product has no value, or changes its side with
the infinity. -/
theorem corner_infinite_left (hf : f.corner? = some c) {e : Extended} (he : f = .mul → e ≠ .fin 0) :
    (c .negInf e = none ∨ c .posInf e = none) ∨
      (c .negInf e = some .negInf ∧ c .posInf e = some .posInf) ∨
      (c .negInf e = some .posInf ∧ c .posInf e = some .negInf) := by
  cases f <;> cases hf
  case add => cases e <;> simp [Extended.add]
  case sub => cases e <;> simp [Extended.sub, Extended.neg, Extended.add]
  case mul =>
    have hNe := he rfl
    cases hSign : e.isNegative <;> cases e <;>
      simp_all [Extended.mul, Extended.infinity, Extended.isNegative]

theorem corner_infinite_right (hf : f.corner? = some c) {e : Extended} (he : f = .mul → e ≠ .fin 0) :
    (c e .negInf = none ∨ c e .posInf = none) ∨
      (c e .negInf = some .negInf ∧ c e .posInf = some .posInf) ∨
      (c e .negInf = some .posInf ∧ c e .posInf = some .negInf) := by
  cases f <;> cases hf
  case add => cases e <;> simp [Extended.add]
  case sub => cases e <;> simp [Extended.sub, Extended.neg, Extended.add]
  case mul =>
    rw [Extended.mul_comm e, Extended.mul_comm e]
    exact corner_infinite_left (f := .mul) rfl he

theorem combine_max_left (hf : f.corner? = some c) (ho : o.isEmpty = false)
    (hZero : f = .mul → o.ends.1 ≠ .fin 0) : s.max.combine o c = s.max := by
  refine combine_eq_max (r := s.max) rfl ho ?_
  simp only [corners, ends_max, List.mem_cons, List.not_mem_nil, or_false, exists_eq_or_imp,
    exists_eq_left]
  rcases corner_infinite_left hf hZero with (h | h) | h | h <;> simp [h]

theorem combine_max_right (hf : f.corner? = some c) (hr : r.isEmpty = false)
    (hs : r.sentinels = s) (hZero : f = .mul → r.ends.1 ≠ .fin 0) : r.combine s.max c = s.max := by
  rw [← hs]
  refine combine_eq_max hr rfl ?_
  simp only [corners, ends_max, List.mem_cons, List.not_mem_nil, or_false, exists_eq_or_imp,
    exists_eq_left]
  rcases corner_infinite_right hf hZero with (h | h) | h | h <;> simp [h]

end Corners

/-! ### Points -/

theorem isEmpty_point (x : Option Int) (hx : s.Holds x) : (s.point x).isEmpty = false := by
  cases x with
  | none => rfl
  | some m =>
    obtain ⟨hl, hu⟩ := hx m rfl
    rw [Sentinels.point, Sentinels.singleton_of_between hl hu]

theorem sentinels_point (x : Option Int) (hx : s.Holds x) : (s.point x).sentinels = s := by
  cases x with
  | none => rfl
  | some m =>
    obtain ⟨hl, hu⟩ := hx m rfl
    rw [Sentinels.point, Sentinels.singleton_of_between hl hu]

theorem ends_point (hx : s.Holds (some m)) :
    (s.point (some m)).ends = (s.toExtended m, s.toExtended m) := by
  obtain ⟨hl, hu⟩ := hx m rfl
  rw [Sentinels.point, Sentinels.singleton_of_between hl hu]
  rfl

/-- A finite end of a point is its integer. -/
theorem eq_some_of_end (hx : s.Holds x)
    (h : (s.point x).ends.1 = .fin k ∨ (s.point x).ends.2 = .fin k) : x = some k ∧ s.Inner k := by
  cases x with
  | none =>
    rw [Sentinels.point, ends_max] at h
    rcases h with h | h <;> cases h
  | some m =>
    rw [ends_point hx, or_self] at h
    obtain ⟨rfl, hInner⟩ := Sentinels.toExtended_fin h
    exact ⟨rfl, hInner⟩

theorem zero_mul (e : Extended) : Extended.mul (.fin 0) e = some (.fin 0) := by
  rw [Extended.mul_comm]
  exact Extended.mul_zero e

theorem ends_zero (s : Sentinels) : (s.point (some 0)).ends = (.fin 0, .fin 0) := by
  rw [ends_point fun n hn => ?_, Sentinels.toExtended_of_inner s.inner_zero]
  cases hn
  exact ⟨Int.le_of_lt s.inner_zero.1, Int.le_of_lt s.inner_zero.2⟩

/-- At a product with zero all corners are zero. -/
theorem corner_zero (hZero : x = some 0 ∨ y = some 0) {q : Extended × Extended}
    (hq : q ∈ (s.point x).corners (s.point y)) : Extended.mul q.1 q.2 = some (.fin 0) := by
  simp only [corners, List.mem_cons, List.not_mem_nil, or_false] at hq
  rcases hZero with rfl | rfl
  · rw [ends_zero] at hq
    rcases hq with rfl | rfl | rfl | rfl <;> exact zero_mul _
  · rw [ends_zero] at hq
    rcases hq with rfl | rfl | rfl | rfl <;> exact Extended.mul_zero _

theorem ofExtended_zero (s : Sentinels) : s.ofExtended (.fin 0) = 0 :=
  Sentinels.clamp_of_between (Int.le_of_lt s.inner_zero.1) (Int.le_of_lt s.inner_zero.2)

theorem saturate_zero (hf : f.corner? = some c) (hMul : f = .mul) (hZero : x = some 0 ∨ y = some 0) :
    s.saturate f c x y = some 0 := by
  subst hMul
  cases hf
  have hFin := Sentinels.toExtended_of_inner s.inner_zero
  unfold Sentinels.saturate
  split
  · rcases hZero with h | h
    · cases h
      rw [hFin, zero_mul, Option.map_some, ofExtended_zero]
    · cases h
      rw [hFin, Extended.mul_zero, Option.map_some, ofExtended_zero]
  · rw [if_pos ⟨rfl, hZero⟩]

/-- Points are combined by saturating arithmetic. -/
theorem combine_point (hf : f.corner? = some c) (hx : s.Holds x) (hy : s.Holds y) :
    (s.point x).combine (s.point y) c = s.point (s.saturate f c x y) := by
  have hEmpty := isEmpty_point x hx
  have hEmpty' := isEmpty_point y hy
  by_cases hZero : f = .mul ∧ (x = some 0 ∨ y = some 0)
  · rw [saturate_zero hf hZero.1 hZero.2]
    obtain ⟨rfl, hZero⟩ := hZero
    cases hf
    rw [combine_eq_singleton hEmpty hEmpty' fun q hq => corner_zero hZero hq, sentinels_point x hx]
    rw [ofExtended_zero]
    rfl
  -- otherwise an unbounded operand leaves the result unbounded
  have hLeft (hMul : f = .mul) : (s.point y).ends.1 ≠ .fin 0 := fun h =>
    hZero ⟨hMul, .inr (eq_some_of_end hy (.inl h)).1⟩
  have hRight (hMul : f = .mul) : (s.point x).ends.1 ≠ .fin 0 := fun h =>
    hZero ⟨hMul, .inl (eq_some_of_end hx (.inl h)).1⟩
  match x, y with
  | none, y =>
    rw [Sentinels.saturate, if_neg hZero]
    · exact combine_max_left hf hEmpty' hLeft
    · exact nofun
  | some m, none =>
    rw [Sentinels.saturate, if_neg hZero]
    · exact combine_max_right hf hEmpty (sentinels_point _ hx) hRight
    · exact nofun
  | some m, some n =>
    have hCorner {q : Extended × Extended}
        (hq : q ∈ (s.point (some m)).corners (s.point (some n))) :
        q = (s.toExtended m, s.toExtended n) := by
      simpa [corners, ends_point hx, ends_point hy] using hq
    cases hc : c (s.toExtended m) (s.toExtended n) with
    | none =>
      rw [Sentinels.saturate, hc]
      refine (combine_eq_max hEmpty hEmpty' (.inl ?_)).trans (by rw [sentinels_point _ hx]; rfl)
      exact ⟨(s.toExtended m, s.toExtended n), by simp [corners, ends_point hx, ends_point hy], hc⟩
    | some v =>
      rw [Sentinels.saturate, hc, combine_eq_singleton hEmpty hEmpty' fun q hq => ?_,
        sentinels_point _ hx]
      · rfl
      · rw [hCorner hq]
        exact hc

/-! ### Exact integers -/

/-- What is known of an exact integer: nothing, a sentinel, or the integer itself. -/
structure Sentinels.Knows (s : Sentinels) (x : Option Int) (n : Int) : Prop where
  holds : s.Holds x
  exact {m : Int} : x = some m → s.Inner m → m = n

theorem knows_clamp (s : Sentinels) (n : Int) : s.Knows (some (s.clamp n)) n where
  holds := s.holds_clamp n
  exact := by
    rintro m ⟨⟩ hInner
    exact Sentinels.clamp_of_inner hInner

/-- A finite value of a sum, difference or product comes from finite operands, or is the product of
zero with an infinity. -/
theorem corner_fin {op : Int → Int → Int} (hf : f.corner? = some c)
    (hOp : Interpretation.exact.binary? f = some op) {e e' : Extended} (h : c e e' = some (.fin k)) :
    (∃ m n, e = .fin m ∧ e' = .fin n ∧ k = op m n) ∨
      f = .mul ∧ k = 0 ∧ (e = .fin 0 ∨ e' = .fin 0) := by
  cases f <;> cases hf <;> cases hOp
  case add =>
    cases e <;> cases e' <;> cases h
    exact .inl ⟨_, _, rfl, rfl, rfl⟩
  case sub =>
    cases e <;> cases e' <;> cases h
    exact .inl ⟨_, _, rfl, rfl, rfl⟩
  case mul =>
    unfold Extended.mul at h
    split at h
    · cases h
      exact .inl ⟨_, _, rfl, rfl, rfl⟩
    · split at h
      case isTrue hZero =>
        cases h
        exact .inr ⟨rfl, rfl, hZero⟩
      case isFalse =>
        unfold Extended.infinity at h
        split at h <;> cases h

theorem corner_of_fin {op : Int → Int → Int} (hf : f.corner? = some c)
    (hOp : Interpretation.exact.binary? f = some op) (a b : Int) :
    c (.fin a) (.fin b) = some (.fin (op a b)) := by
  cases f <;> cases hf <;> cases hOp <;> rfl

/-- Between the sentinels saturating arithmetic is exact. -/
theorem saturate_of_inner {op : Int → Int → Int} {a b : Int} (hf : f.corner? = some c)
    (hOp : Interpretation.exact.binary? f = some op) (ha : s.Inner a) (hb : s.Inner b)
    (hl : s.negInf ≤ op a b) (hu : op a b ≤ s.posInf) :
    s.saturate f c (some a) (some b) = some (op a b) := by
  rw [Sentinels.saturate, Sentinels.toExtended_of_inner ha, Sentinels.toExtended_of_inner hb,
    corner_of_fin hf hOp]
  exact congrArg some (Sentinels.clamp_of_between hl hu)

section Knows

variable {op : Int → Int → Int} {a b : Int} (hf : f.corner? = some c)
  (hOp : Interpretation.exact.binary? f = some op) (hx : s.Knows x a) (hy : s.Knows y b)
include hf hOp hx hy

/-- A finite corner of two points is the exact integer. -/
theorem Sentinels.Knows.corner {q : Extended × Extended}
    (hq : q ∈ (s.point x).corners (s.point y)) (h : c q.1 q.2 = some (.fin k)) : k = op a b := by
  have hMem : (q.1 = (s.point x).ends.1 ∨ q.1 = (s.point x).ends.2) ∧
      (q.2 = (s.point y).ends.1 ∨ q.2 = (s.point y).ends.2) := by
    simp only [corners, List.mem_cons, List.not_mem_nil, or_false] at hq
    rcases hq with rfl | rfl | rfl | rfl <;> simp
  have hLeft {m : Int} (hm : q.1 = .fin m) : m = a := by
    obtain ⟨hSome, hInner⟩ := eq_some_of_end hx.holds (hMem.1.imp (·.symm.trans hm) (·.symm.trans hm))
    exact hx.exact hSome hInner
  have hRight {n : Int} (hn : q.2 = .fin n) : n = b := by
    obtain ⟨hSome, hInner⟩ := eq_some_of_end hy.holds (hMem.2.imp (·.symm.trans hn) (·.symm.trans hn))
    exact hy.exact hSome hInner
  rcases corner_fin hf hOp h with ⟨m, n, hm, hn, rfl⟩ | ⟨rfl, rfl, hZero⟩
  · rw [hLeft hm, hRight hn]
  · cases hOp
    rcases hZero with h | h
    · rw [← hLeft h]
      exact (Int.zero_mul b).symm
    · rw [← hRight h]
      exact (Int.mul_zero a).symm

/-- What saturating arithmetic knows of its operands it knows of the result. -/
theorem Sentinels.Knows.saturate (hl : s.negInf ≤ op a b) (hu : op a b ≤ s.posInf) :
    s.Knows (s.saturate f c x y) (op a b) := by
  have hFirst : ((s.point x).ends.1, (s.point y).ends.1) ∈ (s.point x).corners (s.point y) :=
    List.mem_cons_self
  unfold Sentinels.saturate
  split
  case h_1 m n =>
    refine ⟨fun k hk => ?_, fun {k} hk hInner => ?_⟩
    · obtain ⟨e, -, rfl⟩ := Option.map_eq_some_iff.mp hk
      exact ⟨s.negInf_le_ofExtended e, s.ofExtended_le_posInf e⟩
    · obtain ⟨e, he, rfl⟩ := Option.map_eq_some_iff.mp hk
      cases e with
      | negInf => exact absurd hInner.1 (Int.lt_irrefl _)
      | posInf => exact absurd hInner.2 (Int.lt_irrefl _)
      | fin k =>
        rw [ends_point hx.holds, ends_point hy.holds] at hFirst
        rw [hx.corner hf hOp hy hFirst he]
        exact Sentinels.clamp_of_between hl hu
  case h_2 =>
    split
    case isTrue hZero =>
      obtain ⟨rfl, hZero⟩ := hZero
      cases hf
      rw [← hx.corner rfl hOp hy hFirst (corner_zero hZero hFirst)]
      have hKnows := knows_clamp s 0
      rwa [show s.clamp 0 = 0 from ofExtended_zero s] at hKnows
    case isFalse => exact ⟨nofun, nofun⟩

theorem Sentinels.Knows.overflows {t : IntType} (ht : t.Contains (op a b)) :
    (s.point x).overflows (s.point y) c t = false := by
  unfold Range.overflows
  rw [List.any_eq_false.mpr fun q hq => ?_, Bool.and_false]
  split
  case h_1 k hk =>
    rw [hx.corner hf hOp hy hq hk]
    obtain ⟨hMin, hMax⟩ := ht
    simp only [decide_eq_true_eq]
    omega
  · exact Bool.false_ne_true

/-- A sum, difference or product of points, the exact result of which is in the type. -/
theorem Sentinels.Knows.evalBinary {t : IntType} (ht : t.Contains (op a b)) :
    Graph.evalBinary s f t (s.point x) (s.point y) = s.point (s.saturate f c x y) := by
  rw [Graph.evalBinary_of_corner hf, Graph.evalWrapping, hx.overflows hf hOp hy ht]
  exact combine_point hf hx.holds hy.holds

end Knows

end ValueRange
