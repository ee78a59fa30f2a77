import Mathlib.Order.Defs.LinearOrder
import Mathlib.Order.MinMax
import ValueRange.Range.Arithmetic
import ValueRange.Proofs.Range.Bounds

/-! The hull of the four corners. An operation on extended integers is boxed if its value at every
point of a box lies between the least and the greatest of its values at the corners. For a boxed
operation the combined range of two ranges admits what the operation gives at integers that the
ranges admit, and combining is monotone. -/

namespace ValueRange

namespace Extended

instance : LE Extended := ⟨fun a b => le a b = true⟩

instance (a b : Extended) : Decidable (a ≤ b) := inferInstanceAs (Decidable (le a b = true))

@[simp] theorem negInf_le (a : Extended) : negInf ≤ a := by cases a <;> rfl

@[simp] theorem le_posInf (a : Extended) : a ≤ posInf := by cases a <;> rfl

@[simp] theorem fin_le_fin (a b : Int) : fin a ≤ fin b ↔ a ≤ b := decide_eq_true_iff

@[simp] theorem not_fin_le_negInf (a : Int) : ¬ fin a ≤ negInf := nofun

@[simp] theorem not_posInf_le_fin (a : Int) : ¬ posInf ≤ fin a := nofun

@[simp] theorem not_posInf_le_negInf : ¬ posInf ≤ negInf := nofun

theorem eq_posInf {a : Extended} (h : posInf ≤ a) : a = posInf := by cases a <;> simp_all

theorem eq_negInf {a : Extended} (h : a ≤ negInf) : a = negInf := by cases a <;> simp_all

/-- The order of the extended integers, with the minimum and maximum that ranges use. -/
instance : LinearOrder Extended where
  le_refl a := by cases a <;> simp
  le_trans a b c hab hbc := by
    cases a <;> cases b <;> cases c <;> simp_all
    omega
  le_antisymm a b hab hba := by
    cases a <;> cases b <;> simp_all
    omega
  le_total a b := by
    cases a <;> cases b <;> simp
    omega
  toDecidableLE := inferInstance
  min := min
  max := max
  min_def a b := rfl
  max_def a b := by
    show (if le b a then a else b) = if le a b then b else a
    cases a <;> cases b <;> simp [le]
    split_ifs <;> simp only [fin.injEq] <;> omega

theorem min_eq (a b : Extended) : Extended.min a b = Min.min a b := rfl

theorem max_eq (a b : Extended) : Extended.max a b = Max.max a b := rfl

/-- The number lies between two others, whichever of them is the smaller. -/
def Between (a b v : Extended) : Prop := Min.min a b ≤ v ∧ v ≤ Max.max a b

theorem Between.of_le {a b v : Extended} (ha : a ≤ v) (hb : v ≤ b) : Between a b v :=
  ⟨le_trans (min_le_left a b) ha, le_trans hb (le_max_right a b)⟩

theorem Between.of_ge {a b v : Extended} (hb : b ≤ v) (ha : v ≤ a) : Between a b v :=
  ⟨le_trans (min_le_right a b) hb, le_trans ha (le_max_left a b)⟩

theorem Between.within {a b v lo hi : Extended} (h : Between a b v) (ha : lo ≤ a ∧ a ≤ hi)
    (hb : lo ≤ b ∧ b ≤ hi) : lo ≤ v ∧ v ≤ hi :=
  ⟨le_trans (le_min ha.1 hb.1) h.1, le_trans h.2 (max_le ha.2 hb.2)⟩

end Extended

namespace Sentinels

variable {s : Sentinels}

theorem ofExtended_mono {a b : Extended} (h : a ≤ b) : s.ofExtended a ≤ s.ofExtended b := by
  cases a with
  | negInf => exact negInf_le_ofExtended b
  | fin m =>
    cases b with
    | negInf => simp at h
    | fin n => exact clamp_mono (by simpa using h)
    | posInf => exact s.clamp_le_posInf m
  | posInf => rw [Extended.eq_posInf h]

theorem toExtended_negInf (s : Sentinels) : s.toExtended s.negInf = .negInf := if_pos (le_refl _)

theorem toExtended_posInf (s : Sentinels) : s.toExtended s.posInf = .posInf := by
  have := s.negInf_lt_posInf
  rw [toExtended, if_neg (by omega), if_pos (le_refl _)]

theorem toExtended_mono {m n : Int} (h : m ≤ n) : s.toExtended m ≤ s.toExtended n := by
  have := s.negInf_lt_posInf
  unfold toExtended
  split_ifs <;> simp <;> omega

/-- A lower bound below the upper sentinel stays below what it admits. -/
theorem toExtended_le {m n : Int} (h : m = s.negInf ∨ m ≤ n) (hm : m < s.posInf) :
    s.toExtended m ≤ .fin n := by
  unfold toExtended
  split_ifs <;> simp <;> omega

/-- An upper bound above the lower sentinel stays above what it admits. -/
theorem le_toExtended {m n : Int} (h : m = s.posInf ∨ n ≤ m) (hm : s.negInf < m) :
    .fin n ≤ s.toExtended m := by
  unfold toExtended
  split_ifs <;> simp <;> omega

theorem span_subset {l u l' u' : Extended} (hl : l' ≤ l) (hu : u ≤ u') :
    s.span l u ⊆ s.span l' u' :=
  Range.interval_subset (ofExtended_mono hl) (ofExtended_mono hu)

/-- A span admits the integers between its ends. -/
theorem span_admits {l u : Extended} {n : Int} (hl : l ≤ .fin n) (hu : .fin n ≤ u) :
    (s.span l u).Admits n := by
  have hLower : s.ofExtended l = s.negInf ∨ s.ofExtended l ≤ n := by
    cases l with
    | negInf => exact .inl rfl
    | fin m => exact clamp_eq_negInf_or_le (by simpa using hl)
    | posInf => simp at hl
  have hUpper : s.ofExtended u = s.posInf ∨ n ≤ s.ofExtended u := by
    cases u with
    | negInf => simp at hu
    | fin m => exact clamp_eq_posInf_or_le (by simpa using hu)
    | posInf => exact .inl rfl
  have hOrder : s.ofExtended l ≤ s.ofExtended u := ofExtended_mono (le_trans hl hu)
  rw [span, interval_of_between (negInf_le_ofExtended l) hOrder (ofExtended_le_posInf u)]
  exact ⟨rfl, hLower, hUpper⟩

end Sentinels

namespace Range

open Extended

/-- On `D` the values of the function never fall. -/
def Rising (D : Extended → Prop) (f : Extended → Option Extended) : Prop :=
  ∀ {x x' a b}, D x → D x' → x ≤ x' → f x = some a → f x' = some b → a ≤ b

/-- On `D` the values of the function never grow. -/
def Falling (D : Extended → Prop) (f : Extended → Option Extended) : Prop :=
  ∀ {x x' a b}, D x → D x' → x ≤ x' → f x = some a → f x' = some b → b ≤ a

/-- Between two points the values lie between those at the points. -/
theorem between_of_steady {D : Extended → Prop} {f : Extended → Option Extended}
    (h : Rising D f ∨ Falling D f) {l x u a b v : Extended} (hl : D l) (hx : D x) (hu : D u)
    (hlx : l ≤ x) (hxu : x ≤ u) (ha : f l = some a) (hb : f u = some b) (hv : f x = some v) :
    Between a b v := by
  rcases h with h | h
  · exact .of_le (h hl hx hlx ha hv) (h hx hu hxu hv hb)
  · exact .of_ge (h hx hu hxu hv hb) (h hl hx hlx ha hv)

/-- The operation has values within a box of operands: where one operand is finite it has some
value, and along each axis it rises or falls. The second operands of the box are in `D`. -/
structure Boxed (f : Corner) (D : Extended → Prop) : Prop where
  convex : ∀ {l y u}, l ≤ y → y ≤ u → D l → D u → D y
  finLeft : ∀ (a : Int) {y}, D y → ∃ v, f (.fin a) y = some v
  finRight : ∀ (x : Extended) {b : Int}, D (.fin b) → ∃ v, f x (.fin b) = some v
  left : ∀ {y}, D y → Rising (fun _ => True) (f · y) ∨ Falling (fun _ => True) (f · y)
  right : ∀ x, Rising D (f x) ∨ Falling D (f x)

namespace Boxed

variable {f : Corner} {D : Extended → Prop} {l u l' u' x y lo hi : Extended}

/-- On the edge of a box at `x` the values lie between those at the two corners. -/
theorem edge (hf : Boxed f D) (hly : l' ≤ y) (hyu : y ≤ u') (hl : D l') (hu : D u')
    (hLow : ∃ a, f x l' = some a ∧ lo ≤ a ∧ a ≤ hi)
    (hHigh : ∃ b, f x u' = some b ∧ lo ≤ b ∧ b ≤ hi) :
    ∃ v, f x y = some v ∧ lo ≤ v ∧ v ≤ hi := by
  obtain ⟨a, ha, hLowBounds⟩ := hLow
  obtain ⟨b, hb, hHighBounds⟩ := hHigh
  cases y with
  | negInf =>
    rw [eq_negInf hly] at ha
    exact ⟨a, ha, hLowBounds⟩
  | fin n =>
    obtain ⟨v, hv⟩ := hf.finRight x (hf.convex hly hyu hl hu)
    have hBetween : Between a b v :=
      between_of_steady (hf.right x) hl (hf.convex hly hyu hl hu) hu hly hyu ha hb hv
    exact ⟨v, hv, hBetween.within hLowBounds hHighBounds⟩
  | posInf =>
    rw [eq_posInf hyu] at hb
    exact ⟨b, hb, hHighBounds⟩

/-- In a box the values lie between the least and the greatest of those at the four corners. -/
theorem box (hf : Boxed f D) {a b c d : Extended} (hl : D l') (hu : D u')
    (ha : f l l' = some a) (hb : f l u' = some b) (hc : f u l' = some c) (hd : f u u' = some d)
    (hlx : l ≤ x) (hxu : x ≤ u) (hly : l' ≤ y) (hyu : y ≤ u') :
    ∃ v, f x y = some v ∧ Min.min (Min.min a b) (Min.min c d) ≤ v ∧
      v ≤ Max.max (Max.max a b) (Max.max c d) := by
  have hLow : ∃ v, f l y = some v ∧ Min.min (Min.min a b) (Min.min c d) ≤ v ∧
      v ≤ Max.max (Max.max a b) (Max.max c d) :=
    hf.edge hly hyu hl hu ⟨a, ha, by simp, by simp⟩ ⟨b, hb, by simp, by simp⟩
  have hHigh : ∃ v, f u y = some v ∧ Min.min (Min.min a b) (Min.min c d) ≤ v ∧
      v ≤ Max.max (Max.max a b) (Max.max c d) :=
    hf.edge hly hyu hl hu ⟨c, hc, by simp, by simp⟩ ⟨d, hd, by simp, by simp⟩
  obtain ⟨e, he, hLowBounds⟩ := hLow
  obtain ⟨e', he', hHighBounds⟩ := hHigh
  have hy : D y := hf.convex hly hyu hl hu
  cases x with
  | negInf =>
    rw [eq_negInf hlx] at he
    exact ⟨e, he, hLowBounds⟩
  | fin n =>
    obtain ⟨v, hv⟩ := hf.finLeft n hy
    have hBetween : Between e e' v :=
      between_of_steady (hf.left hy) trivial trivial trivial hlx hxu he he' hv
    exact ⟨v, hv, hBetween.within hLowBounds hHighBounds⟩
  | posInf =>
    rw [eq_posInf hxu] at he'
    exact ⟨e', he', hHighBounds⟩

end Boxed

variable {s : Sentinels} {r o r' o' : Range} {f : Corner}

theorem combine_of_empty (h : r.isEmpty = true ∨ o.isEmpty = true) (f : Corner) :
    r.combine o f = r.sentinels.empty := by
  rw [combine, if_pos (by simpa using h)]

/-- Where the operation has a value at each corner, the combined range is the span of the least and
the greatest of them. -/
theorem combine_of_some (hr : r.isEmpty = false) (ho : o.isEmpty = false) {a b c d : Extended}
    (ha : f r.ends.1 o.ends.1 = some a) (hb : f r.ends.1 o.ends.2 = some b)
    (hc : f r.ends.2 o.ends.1 = some c) (hd : f r.ends.2 o.ends.2 = some d) :
    r.combine o f = r.sentinels.span (Min.min (Min.min a b) (Min.min c d))
      (Max.max (Max.max a b) (Max.max c d)) := by
  unfold combine
  rw [hr, ho]
  simp only [corners, Bool.or_self, Bool.false_eq_true, if_false, List.mapM_cons, List.mapM_nil,
    ha, hb, hc, hd]
  show r.sentinels.span
    (Extended.min (Extended.min (Extended.min (Extended.min .posInf a) b) c) d)
    (Extended.max (Extended.max (Extended.max (Extended.max .negInf a) b) c) d) = _
  simp only [min_eq, max_eq, min_eq_right (le_posInf a), max_eq_right (negInf_le a), min_assoc,
    max_assoc]

/-- The combined range is unbounded, or the operation has a value at each corner. -/
theorem combine_cases (hr : r.isEmpty = false) (ho : o.isEmpty = false) :
    r.combine o f = r.sentinels.max ∨
    ∃ a b c d, f r.ends.1 o.ends.1 = some a ∧ f r.ends.1 o.ends.2 = some b ∧
      f r.ends.2 o.ends.1 = some c ∧ f r.ends.2 o.ends.2 = some d := by
  unfold combine
  rw [hr, ho]
  simp only [corners, Bool.or_self, Bool.false_eq_true, if_false, List.mapM_cons, List.mapM_nil]
  cases h1 : f r.ends.1 o.ends.1 with
  | none => exact .inl rfl
  | some a =>
    cases h2 : f r.ends.1 o.ends.2 with
    | none => exact .inl rfl
    | some b =>
      cases h3 : f r.ends.2 o.ends.1 with
      | none => exact .inl rfl
      | some c =>
        cases h4 : f r.ends.2 o.ends.2 with
        | none => exact .inl rfl
        | some d => exact .inr ⟨a, b, c, d, rfl, rfl, rfl, rfl⟩

theorem WellFormed.combine (hr : WellFormed s r) (o : Range) (f : Corner) :
    WellFormed s (r.combine o f) := by
  rw [← hr.sentinels_eq]
  unfold Range.combine
  split
  · exact .empty
  · split
    · exact .max _
    · exact .span _ _ _

/-- The lower side of the range is not at the upper sentinel, nor its upper side at the lower one:
as extended integers the bounds enclose what the range admits. -/
structure Open (r : Range) : Prop where
  lower_lt : r.lower < r.sentinels.posInf
  lt_upper : r.sentinels.negInf < r.upper

theorem Open.of_mem {n : Int} (h : n ∈ r) (hl : r.sentinels.negInf < n)
    (hu : n < r.sentinels.posInf) : Open r :=
  ⟨lt_of_le_of_lt h.2.1 hu, lt_of_lt_of_le hl h.2.2⟩

theorem ends_le {n : Int} (h : r.Admits n) (ho : Open r) : r.ends.1 ≤ .fin n :=
  Sentinels.toExtended_le h.2.1 ho.lower_lt

theorem le_ends {n : Int} (h : r.Admits n) (ho : Open r) : .fin n ≤ r.ends.2 :=
  Sentinels.le_toExtended h.2.2 ho.lt_upper

/-- The combined range admits the value of a boxed operation at integers that the ranges admit. -/
theorem combine_admits {D : Extended → Prop} (hf : Boxed f D) (hr : Open r) (ho : Open o)
    (hl : D o.ends.1) (hu : D o.ends.2) {x y z : Int} (hx : r.Admits x) (hy : o.Admits y)
    (hz : f (.fin x) (.fin y) = some (.fin z)) : (r.combine o f).Admits z := by
  rcases combine_cases (f := f) hx.1 hy.1 with hMax | ⟨a, b, c, d, ha, hb, hc, hd⟩
  · rw [hMax]
    exact max_admits _ z
  · rw [combine_of_some hx.1 hy.1 ha hb hc hd]
    obtain ⟨v, hv, hLow, hHigh⟩ := hf.box hl hu ha hb hc hd (ends_le hx hr) (le_ends hx hr)
      (ends_le hy ho) (le_ends hy ho)
    rw [hz, Option.some.injEq] at hv
    subst hv
    exact Sentinels.span_admits hLow hHigh

/-- The ends of a range that is not empty enclose those of a range within it. -/
theorem ends_of_subset (hr : WellFormed s r) (hr' : WellFormed s r') (h : r ⊆ r')
    (he : r.isEmpty = false) :
    r'.ends.1 ≤ r.ends.1 ∧ r.ends.1 ≤ r'.ends.2 ∧ r'.ends.1 ≤ r.ends.2 ∧ r.ends.2 ≤ r'.ends.2 := by
  obtain ⟨hl, hu⟩ := bounds_of_subset h he
  have hlu := hr.lower_le_upper he
  unfold ends
  rw [hr.sentinels_eq, hr'.sentinels_eq]
  exact ⟨Sentinels.toExtended_mono hl, Sentinels.toExtended_mono (by omega),
    Sentinels.toExtended_mono (by omega), Sentinels.toExtended_mono hu⟩

/-- Combining by a boxed operation is monotone. -/
theorem combine_subset {D : Extended → Prop} (hf : Boxed f D) (hr : WellFormed s r)
    (ho : WellFormed s o) (hr' : WellFormed s r') (ho' : WellFormed s o') (h : r ⊆ r')
    (h' : o ⊆ o') (hl : D o'.ends.1) (hu : D o'.ends.2) :
    r.combine o f ⊆ r'.combine o' f := by
  by_cases he : r.isEmpty = true ∨ o.isEmpty = true
  · refine .inl ?_
    unfold combine
    rw [if_pos (by simpa using he)]
    rfl
  · simp only [not_or, Bool.not_eq_true] at he
    have he' : r'.isEmpty = false := not_isEmpty_of_subset h he.1
    have ho'e : o'.isEmpty = false := not_isEmpty_of_subset h' he.2
    obtain ⟨hll, hlu, hul, huu⟩ := ends_of_subset hr hr' h he.1
    obtain ⟨hll', hlu', hul', huu'⟩ := ends_of_subset ho ho' h' he.2
    rcases combine_cases (f := f) he' ho'e with hMax | ⟨a, b, c, d, ha, hb, hc, hd⟩
    · rw [hMax, hr'.sentinels_eq]
      exact subset_max (hr.combine o f)
    · -- every corner of the smaller box lies in the larger one
      have hBox {x y : Extended} := hf.box (x := x) (y := y) hl hu ha hb hc hd
      obtain ⟨a', ha', hLow1, hHigh1⟩ := hBox hll hlu hll' hlu'
      obtain ⟨b', hb', hLow2, hHigh2⟩ := hBox hll hlu hul' huu'
      obtain ⟨c', hc', hLow3, hHigh3⟩ := hBox hul huu hll' hlu'
      obtain ⟨d', hd', hLow4, hHigh4⟩ := hBox hul huu hul' huu'
      rw [combine_of_some he' ho'e ha hb hc hd, combine_of_some he.1 he.2 ha' hb' hc' hd',
        hr.sentinels_eq, hr'.sentinels_eq]
      exact Sentinels.span_subset (le_min (le_min hLow1 hLow2) (le_min hLow3 hLow4))
        (max_le (max_le hHigh1 hHigh2) (max_le hHigh3 hHigh4))

end Range

end ValueRange
