import Mathlib.Tactic.Linarith
import ValueRange.Proofs.Range.Corners

/-! Sums, differences, products, quotients and shifts of extended integers are boxed: along each
axis they are monotone or antitone, depending on the sign of the other operand. -/

namespace ValueRange

theorem pow2_mono {k k' : Nat} (h : k ≤ k') : pow2 k ≤ pow2 k' :=
  Int.ofNat_le.mpr (Nat.pow_le_pow_right (by decide) h)

theorem pow2_strictMono {k k' : Nat} (h : k < k') : pow2 k < pow2 k' :=
  Int.ofNat_lt.mpr (Nat.pow_lt_pow_right (by decide) h)

theorem pow2_add (k k' : Nat) : pow2 (k + k') = pow2 k * pow2 k' := by
  simp [pow2, pow_add]

namespace Extended

variable {x x' y y' a b : Extended}

@[simp] theorem fin_lt_fin (m n : Int) : fin m < fin n ↔ m < n := by
  rw [← not_le, fin_le_fin, not_le]

@[simp] theorem fin_lt_posInf (m : Int) : fin m < posInf := by
  rw [← not_le]
  exact not_posInf_le_fin m

@[simp] theorem not_posInf_lt (x : Extended) : ¬ posInf < x := by
  rw [not_lt]
  exact le_posInf x

@[simp] theorem not_fin_lt_negInf (m : Int) : ¬ fin m < negInf := by
  rw [not_lt]
  exact negInf_le _

theorem neg_le_neg (h : x ≤ x') : x'.neg ≤ x.neg := by
  cases x <;> cases x' <;> simp_all [neg]

theorem neg_pos (h : x < fin 0) : fin 0 < x.neg := by
  cases x <;> simp_all [neg]

theorem neg_neg (x : Extended) : x.neg.neg = x := by
  cases x <;> simp [neg]

theorem le_of_neg_le_neg (h : x.neg ≤ x'.neg) : x' ≤ x := by
  rw [← neg_neg x, ← neg_neg x']
  exact neg_le_neg h

theorem add_comm (x y : Extended) : x.add y = y.add x := by
  cases x <;> cases y <;> simp [add, Int.add_comm]

theorem add_mono (h : x ≤ x') (ha : x.add y = some a) (hb : x'.add y = some b) : a ≤ b := by
  cases x <;> cases x' <;> cases y <;> cases ha <;> cases hb <;> simp_all

theorem sub_anti (h : y ≤ y') (ha : x.sub y = some a) (hb : x.sub y' = some b) : b ≤ a := by
  unfold sub at ha hb
  rw [add_comm] at ha hb
  exact add_mono (neg_le_neg h) hb ha

theorem mul_comm (x y : Extended) : x.mul y = y.mul x := by
  cases x <;> cases y <;> simp [mul, infinity, isNegative, Int.mul_comm]

theorem exists_mul (x y : Extended) : ∃ v, x.mul y = some v := by
  unfold mul
  split
  · exact ⟨_, rfl⟩
  · split <;> exact ⟨_, rfl⟩

theorem mul_zero (x : Extended) : x.mul (fin 0) = some (fin 0) := by
  cases x <;> simp [mul]

theorem negInf_mul (hy : fin 0 < y) : negInf.mul y = some negInf := by
  cases y with
  | negInf => simp at hy
  | fin n =>
    rw [fin_lt_fin] at hy
    simp [mul, infinity, isNegative, ne_of_gt hy, not_lt_of_gt hy]
  | posInf => rfl

theorem posInf_mul (hy : fin 0 < y) : posInf.mul y = some posInf := by
  cases y with
  | negInf => simp at hy
  | fin n =>
    rw [fin_lt_fin] at hy
    simp [mul, infinity, isNegative, ne_of_gt hy, not_lt_of_gt hy]
  | posInf => rfl

theorem fin_mul_posInf (m : Int) :
    (fin m).mul posInf = some (if m = 0 then fin 0 else if m < 0 then negInf else posInf) := by
  by_cases h : m = 0 <;> by_cases h' : m < 0 <;> simp [mul, infinity, isNegative, h, h']

theorem mul_mono (hy : fin 0 ≤ y) (h : x ≤ x') (ha : x.mul y = some a) (hb : x'.mul y = some b) :
    a ≤ b := by
  rcases eq_or_lt_of_le hy with rfl | hy
  · rw [mul_zero] at ha hb
    rw [← Option.some.inj ha, ← Option.some.inj hb]
  · cases x with
    | negInf =>
      rw [negInf_mul hy] at ha
      rw [← Option.some.inj ha]
      exact negInf_le b
    | posInf =>
      rw [eq_posInf h] at hb
      rw [← Option.some.inj (ha.symm.trans hb)]
    | fin m =>
      cases x' with
      | negInf => simp at h
      | posInf =>
        rw [posInf_mul hy] at hb
        rw [← Option.some.inj hb]
        exact le_posInf a
      | fin m' =>
        rw [fin_le_fin] at h
        cases y with
        | negInf => simp at hy
        | fin n =>
          rw [fin_lt_fin] at hy
          rw [← Option.some.inj ha, ← Option.some.inj hb, fin_le_fin]
          exact Int.mul_le_mul_of_nonneg_right h (le_of_lt hy)
        | posInf =>
          rw [fin_mul_posInf] at ha hb
          rw [← Option.some.inj ha, ← Option.some.inj hb]
          split_ifs <;> simp <;> omega

theorem infinity_neg {y : Extended} (hy : y ≠ fin 0) (x : Extended) :
    x.infinity y.neg = (x.infinity y).neg := by
  have hFlip : y.neg.isNegative = !y.isNegative := by
    cases y with
    | fin n =>
      have hn : n ≠ 0 := fun h => hy (congrArg fin h)
      simp only [neg, isNegative]
      by_cases h : n < 0 <;> simp [h] <;> omega
    | _ => rfl
  unfold infinity
  rw [hFlip]
  cases x.isNegative <;> cases y.isNegative <;> rfl

theorem mul_neg (x y : Extended) : x.mul y.neg = (x.mul y).map neg := by
  by_cases hy : y = fin 0
  · subst hy
    cases x <;> simp [mul, neg]
  · have hy' : y.neg ≠ fin 0 := by cases y <;> simp_all [neg]
    have hInf := infinity_neg hy x
    cases x <;> cases y <;> simp_all [mul, neg]
    all_goals split_ifs <;> simp [neg]

theorem mul_anti (hy : y ≤ fin 0) (h : x ≤ x') (ha : x.mul y = some a) (hb : x'.mul y = some b) :
    b ≤ a := by
  have hNeg : x.mul y.neg = some a.neg := by rw [mul_neg, ha]; rfl
  have hNeg' : x'.mul y.neg = some b.neg := by rw [mul_neg, hb]; rfl
  exact le_of_neg_le_neg (mul_mono (neg_le_neg hy) h hNeg hNeg')

theorem infinite_quo (hx : x = negInf ∨ x = posInf) {n : Int} (hn : 0 < n) :
    x.quo (fin n) = some x := by
  rcases hx with rfl | rfl <;> simp [quo, infinity, isNegative, not_lt_of_gt hn]

theorem quo_infinite (hx : x = negInf ∨ x = posInf) (hy : fin 0 < y) (ha : x.quo y = some a) :
    a = x := by
  cases y with
  | negInf => simp at hy
  | fin n =>
    rw [infinite_quo hx ((fin_lt_fin 0 n).mp hy)] at ha
    exact (Option.some.inj ha).symm
  | posInf => rcases hx with rfl | rfl <;> cases ha

theorem quo_mono (hy : fin 0 < y) (h : x ≤ x') (ha : x.quo y = some a) (hb : x'.quo y = some b) :
    a ≤ b := by
  cases y with
  | negInf => simp at hy
  | fin n =>
    rw [fin_lt_fin] at hy
    cases x with
    | negInf =>
      rw [infinite_quo (.inl rfl) hy] at ha
      rw [← Option.some.inj ha]
      exact negInf_le b
    | posInf =>
      rw [eq_posInf h] at hb
      rw [← Option.some.inj (ha.symm.trans hb)]
    | fin m =>
      cases x' with
      | negInf => simp at h
      | posInf =>
        rw [infinite_quo (.inr rfl) hy] at hb
        rw [← Option.some.inj hb]
        exact le_posInf a
      | fin m' =>
        rw [← Option.some.inj ha, ← Option.some.inj hb, fin_le_fin]
        exact Int.tdiv_le_tdiv hy ((fin_le_fin m m').mp h)
  | posInf => cases x <;> cases x' <;> simp_all [quo]

theorem tdiv_anti {a b b' : Int} (ha : 0 ≤ a) (hb : 0 < b) (h : b ≤ b') :
    a.tdiv b' ≤ a.tdiv b := by
  rw [Int.tdiv_eq_ediv_of_nonneg ha, Int.tdiv_eq_ediv_of_nonneg ha]
  apply Int.le_ediv_of_mul_le hb
  calc a / b' * b ≤ a / b' * b' :=
        Int.mul_le_mul_of_nonneg_left h (Int.ediv_nonneg ha (by omega))
    _ ≤ a := Int.ediv_mul_le a (by omega)

/-- A quotient of a non-negative number falls as the divisor grows. -/
theorem quo_anti {m : Int} (hm : 0 ≤ m) (hy : fin 0 < y) (h : y ≤ y')
    (ha : (fin m).quo y = some a) (hb : (fin m).quo y' = some b) : b ≤ a := by
  cases y <;> cases y' <;> simp_all [quo] <;> subst ha <;> subst hb
  · exact (fin_le_fin _ _).mpr (tdiv_anti hm hy h)
  · exact (fin_le_fin _ _).mpr (Int.tdiv_nonneg hm (le_of_lt hy))

theorem fin_quo_neg (m : Int) (y : Extended) : (fin (-m)).quo y = ((fin m).quo y).map neg := by
  cases y <;> simp [quo, neg]

theorem neg_quo_neg (hy : y < fin 0) : x.neg.quo y.neg = x.quo y := by
  cases y with
  | fin n =>
    rw [fin_lt_fin] at hy
    cases x <;> simp [quo, neg, infinity, isNegative, hy, not_lt_of_gt hy]
  | _ => cases x <;> simp [quo, neg]

theorem shiftLeft_fin (limit : Nat) (m n : Int) : shiftLeft limit (fin m) (fin n) =
    some (fin (m * pow2 (shiftAmount limit (fin n)))) := by
  by_cases h : m = 0 <;> simp [shiftLeft, h]

theorem shiftLeft_posInf (limit : Nat) (m : Int) : shiftLeft limit (fin m) posInf =
    some (if m = 0 then fin 0 else if m < 0 then negInf else posInf) := by
  by_cases h : m = 0 <;> by_cases h' : m < 0 <;> simp [shiftLeft, infinity, isNegative, h, h']

theorem shiftAmount_mono (limit : Nat) (hy : fin 0 ≤ y) (h : y ≤ y') :
    shiftAmount limit y ≤ shiftAmount limit y' := by
  cases y <;> cases y' <;> simp_all [shiftAmount] <;> split_ifs <;> omega

theorem shiftLeft_mono {limit : Nat} (hy : fin 0 ≤ y) (h : x ≤ x')
    (ha : shiftLeft limit x y = some a) (hb : shiftLeft limit x' y = some b) : a ≤ b := by
  cases y with
  | negInf => simp at hy
  | fin n =>
    cases x with
    | negInf =>
      rw [← Option.some.inj ha]
      exact negInf_le b
    | posInf =>
      rw [eq_posInf h] at hb
      rw [← Option.some.inj (ha.symm.trans hb)]
    | fin m =>
      cases x' with
      | negInf => simp at h
      | posInf =>
        rw [← Option.some.inj hb]
        exact le_posInf a
      | fin m' =>
        rw [shiftLeft_fin] at ha hb
        rw [← Option.some.inj ha, ← Option.some.inj hb, fin_le_fin]
        exact Int.mul_le_mul_of_nonneg_right ((fin_le_fin m m').mp h) (le_of_lt (pow2_pos _))
  | posInf =>
    cases x with
    | fin m =>
      cases x' with
      | fin m' =>
        rw [fin_le_fin] at h
        rw [shiftLeft_posInf] at ha hb
        rw [← Option.some.inj ha, ← Option.some.inj hb]
        split_ifs <;> simp <;> omega
      | _ => cases hb
    | _ => cases ha

theorem fin_shiftLeft_neg (limit : Nat) (m : Int) (y : Extended) :
    shiftLeft limit (fin (-m)) y = (shiftLeft limit (fin m) y).map neg := by
  by_cases hm : m = 0
  · subst hm
    simp [shiftLeft, neg]
  · have hSign : infinity (fin (-m)) (fin 1) = (infinity (fin m) (fin 1)).neg := by
      by_cases h : m < 0 <;> by_cases h' : 0 < m <;> simp [infinity, isNegative, neg, h, h']
      all_goals omega
    cases y <;> simp [shiftLeft, hm, hSign, neg]

/-- A non-negative number grows as it is shifted further to the left. -/
theorem shiftLeft_rising {limit : Nat} {m : Int} (hm : 0 ≤ m) :
    Range.Rising (fin 0 ≤ ·) (shiftLeft limit (fin m)) := by
  intro y y' a b hy _ h ha hb
  have hPow := pow2_mono (shiftAmount_mono limit hy h)
  cases y with
  | negInf => simp at hy
  | fin n =>
    rw [shiftLeft_fin] at ha
    cases y' with
    | negInf => simp at h
    | fin n' =>
      rw [shiftLeft_fin] at hb
      rw [← Option.some.inj ha, ← Option.some.inj hb, fin_le_fin]
      exact Int.mul_le_mul_of_nonneg_left hPow hm
    | posInf =>
      rw [shiftLeft_posInf] at hb
      rw [← Option.some.inj ha, ← Option.some.inj hb]
      split_ifs with hZero hNeg
      · simp [hZero]
      · omega
      · exact le_posInf _
  | posInf =>
    rw [eq_posInf h] at hb
    rw [← Option.some.inj (ha.symm.trans hb)]

theorem shiftLeft_falling {limit : Nat} {m : Int} (hm : m ≤ 0) :
    Range.Falling (fin 0 ≤ ·) (shiftLeft limit (fin m)) := by
  intro y y' a b hy hy' h ha hb
  have hNeg : shiftLeft limit (fin (-m)) y = some a.neg := by rw [fin_shiftLeft_neg, ha]; rfl
  have hNeg' : shiftLeft limit (fin (-m)) y' = some b.neg := by rw [fin_shiftLeft_neg, hb]; rfl
  exact le_of_neg_le_neg (shiftLeft_rising (by omega) hy hy' h hNeg hNeg')

theorem shiftRight_fin (limit : Nat) (m : Int) (y : Extended) :
    shiftRight limit (fin m) y = some (fin (m / pow2 (shiftAmount limit y))) := by
  by_cases h : m = 0 <;> simp [shiftRight, h]

theorem ediv_pow2_anti {m : Int} (hm : 0 ≤ m) {k k' : Nat} (h : k ≤ k') :
    m / pow2 k' ≤ m / pow2 k := by
  obtain ⟨d, rfl⟩ := Nat.exists_eq_add_of_le h
  rw [pow2_add, ← Int.ediv_ediv_of_nonneg (le_of_lt (pow2_pos k))]
  exact Int.ediv_le_self _ (Int.ediv_nonneg hm (le_of_lt (pow2_pos k)))

theorem ediv_pow2_mono {m : Int} (hm : m < 0) {k k' : Nat} (h : k ≤ k') :
    m / pow2 k ≤ m / pow2 k' := by
  obtain ⟨d, rfl⟩ := Nat.exists_eq_add_of_le h
  rw [pow2_add, ← Int.ediv_ediv_of_nonneg (le_of_lt (pow2_pos k))]
  have hNeg : m / pow2 k < 0 := Int.ediv_neg_of_neg_of_pos hm (pow2_pos k)
  apply Int.le_ediv_of_mul_le (pow2_pos d)
  have hOne : 1 ≤ pow2 d := pow2_pos d
  nlinarith

theorem shiftRight_mono {limit : Nat} (h : x ≤ x') (ha : shiftRight limit x y = some a)
    (hb : shiftRight limit x' y = some b) : a ≤ b := by
  cases x with
  | negInf =>
    cases y <;> cases ha
    exact negInf_le b
  | posInf =>
    rw [eq_posInf h] at hb
    rw [← Option.some.inj (ha.symm.trans hb)]
  | fin m =>
    cases x' with
    | negInf => simp at h
    | posInf =>
      cases y <;> cases hb
      exact le_posInf a
    | fin m' =>
      rw [shiftRight_fin] at ha hb
      rw [← Option.some.inj ha, ← Option.some.inj hb, fin_le_fin]
      exact Int.ediv_le_ediv (pow2_pos _) ((fin_le_fin m m').mp h)

end Extended

namespace Range

open Extended

theorem rising_of_const {D : Extended → Prop} {f : Extended → Option Extended} {c : Extended}
    (h : ∀ {y a}, D y → f y = some a → a = c) : Rising D f := by
  intro y y' a b hy hy' _ ha hb
  rw [h hy ha, h hy' hb]

theorem add_boxed : Boxed Extended.add fun _ => True where
  convex _ _ _ _ := trivial
  finLeft a y _ := by cases y <;> exact ⟨_, rfl⟩
  finRight x b _ := by cases x <;> exact ⟨_, rfl⟩
  left _ := .inl fun _ _ h ha hb => add_mono h ha hb
  right x := .inl fun _ _ h ha hb => by
    rw [Extended.add_comm] at ha hb
    exact add_mono h ha hb

theorem sub_boxed : Boxed Extended.sub fun _ => True where
  convex _ _ _ _ := trivial
  finLeft a y _ := by cases y <;> exact ⟨_, rfl⟩
  finRight x b _ := by cases x <;> exact ⟨_, rfl⟩
  left _ := .inl fun _ _ h ha hb => add_mono h ha hb
  right x := .inr fun _ _ h ha hb => sub_anti h ha hb

theorem mul_boxed : Boxed Extended.mul fun _ => True where
  convex _ _ _ _ := trivial
  finLeft a y _ := exists_mul (.fin a) y
  finRight x b _ := exists_mul x (.fin b)
  left {y} _ := by
    rcases le_total (.fin 0) y with hy | hy
    · exact .inl fun _ _ h ha hb => mul_mono hy h ha hb
    · exact .inr fun _ _ h ha hb => mul_anti hy h ha hb
  right x := by
    rw [show Extended.mul x = (Extended.mul · x) from funext (Extended.mul_comm x)]
    rcases le_total (.fin 0) x with hx | hx
    · exact .inl fun _ _ h ha hb => mul_mono hx h ha hb
    · exact .inr fun _ _ h ha hb => mul_anti hx h ha hb

theorem quo_boxed : Boxed Extended.quo fun y => .fin 0 < y where
  convex hl _ hLow _ := lt_of_lt_of_le hLow hl
  finLeft a y _ := by cases y <;> exact ⟨_, rfl⟩
  finRight x b _ := by cases x <;> exact ⟨_, rfl⟩
  left hy := .inl fun _ _ h ha hb => quo_mono hy h ha hb
  right x := by
    cases x with
    | fin m =>
      rcases le_total 0 m with hm | hm
      · exact .inr fun hy _ h ha hb => quo_anti hm hy h ha hb
      · refine .inl fun {y y' a b} hy _ h ha hb => ?_
        have hNeg : (Extended.fin (-m)).quo y = some a.neg := by rw [fin_quo_neg, ha]; rfl
        have hNeg' : (Extended.fin (-m)).quo y' = some b.neg := by rw [fin_quo_neg, hb]; rfl
        exact le_of_neg_le_neg (quo_anti (by omega) hy h hNeg hNeg')
    | negInf =>
      exact .inl (rising_of_const (D := (.fin 0 < ·)) fun hy ha => quo_infinite (.inl rfl) hy ha)
    | posInf =>
      exact .inl (rising_of_const (D := (.fin 0 < ·)) fun hy ha => quo_infinite (.inr rfl) hy ha)

/-- By a negative divisor the quotients are those of the opposite numbers. -/
theorem quo_boxed_neg : Boxed Extended.quo fun y => y < .fin 0 where
  convex _ hu _ hHigh := lt_of_le_of_lt hu hHigh
  finLeft a y _ := by cases y <;> exact ⟨_, rfl⟩
  finRight x b _ := by cases x <;> exact ⟨_, rfl⟩
  left {y} hy := by
    refine .inr fun {x x' a b} _ _ h ha hb => ?_
    have hNeg : x.neg.quo y.neg = some a := (neg_quo_neg hy).trans ha
    have hNeg' : x'.neg.quo y.neg = some b := (neg_quo_neg hy).trans hb
    exact quo_mono (neg_pos hy) (neg_le_neg h) hNeg' hNeg
  right x := by
    rcases quo_boxed.right x.neg with hRise | hFall
    · refine .inr fun hy hy' h ha hb => ?_
      rw [← neg_quo_neg hy] at ha
      rw [← neg_quo_neg hy'] at hb
      exact hRise (neg_pos hy') (neg_pos hy) (neg_le_neg h) hb ha
    · refine .inl fun hy hy' h ha hb => ?_
      rw [← neg_quo_neg hy] at ha
      rw [← neg_quo_neg hy'] at hb
      exact hFall (neg_pos hy') (neg_pos hy) (neg_le_neg h) hb ha

theorem shiftLeft_boxed (limit : Nat) : Boxed (shiftLeft limit) fun y => .fin 0 ≤ y where
  convex hl _ hLow _ := le_trans hLow hl
  finLeft a y hy := by
    cases y with
    | negInf => simp at hy
    | fin n => exact ⟨_, shiftLeft_fin limit a n⟩
    | posInf => exact ⟨_, shiftLeft_posInf limit a⟩
  finRight x b _ := by
    cases x with
    | fin m => exact ⟨_, shiftLeft_fin limit m b⟩
    | _ => exact ⟨_, rfl⟩
  left hy := .inl fun _ _ h ha hb => shiftLeft_mono hy h ha hb
  right x := by
    cases x with
    | fin m =>
      rcases le_total 0 m with hm | hm
      · exact .inl (shiftLeft_rising hm)
      · exact .inr (shiftLeft_falling hm)
    | _ => exact .inl (rising_of_const fun {y _} _ ha => by cases y <;> cases ha; rfl)

theorem shiftRight_boxed (limit : Nat) : Boxed (shiftRight limit) fun y => .fin 0 ≤ y where
  convex hl _ hLow _ := le_trans hLow hl
  finLeft a y _ := ⟨_, shiftRight_fin limit a y⟩
  finRight x b _ := by
    cases x with
    | fin m => exact ⟨_, shiftRight_fin limit m (.fin b)⟩
    | _ => exact ⟨_, rfl⟩
  left _ := .inl fun _ _ h ha hb => shiftRight_mono h ha hb
  right x := by
    cases x with
    | fin m =>
      rcases le_or_gt 0 m with hm | hm
      · refine .inr fun hy _ h ha hb => ?_
        rw [shiftRight_fin] at ha hb
        rw [← Option.some.inj ha, ← Option.some.inj hb, fin_le_fin]
        exact ediv_pow2_anti hm (shiftAmount_mono limit hy h)
      · refine .inl fun hy _ h ha hb => ?_
        rw [shiftRight_fin] at ha hb
        rw [← Option.some.inj ha, ← Option.some.inj hb, fin_le_fin]
        exact ediv_pow2_mono hm (shiftAmount_mono limit hy h)
    | _ => exact .inl (rising_of_const fun {y _} _ ha => by cases y <;> cases ha; rfl)

end Range

end ValueRange
