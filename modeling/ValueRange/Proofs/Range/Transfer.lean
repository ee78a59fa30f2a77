import ValueRange.Opcode
import ValueRange.Proofs.Range.Conversion
import ValueRange.Proofs.Range.Monotone

/-! The transfer functions: what each operation does to ranges. They keep ranges well-formed, the
empty range gives the empty range, and all but the logical right shift and the zero extension are
monotone. -/

namespace ValueRange

/-- The ranges of a binary operation, on ranges of its operands. -/
def BinaryOp.transfer : BinaryOp → Range → Range → Range
  | .add => Range.add
  | .sub => Range.sub
  | .mul => Range.mul
  | .udiv => Range.udiv
  | .sdiv => Range.sdiv
  | .urem => Range.urem
  | .srem => Range.srem
  | .shl => Range.shl
  | .lshr => Range.lshr
  | .ashr => Range.ashr
  | .and => Range.and
  | .or => Range.or
  | .xor => Range.xor

namespace Range

variable {s : Sentinels} {r o r' o' : Range} {f : BinaryOp}

/-! ### Well-formed and empty results -/

theorem WellFormed.transfer (hr : WellFormed s r) (f : BinaryOp) (o : Range) :
    WellFormed s (f.transfer r o) := by
  cases f with
  | add | sub | mul => exact hr.combine o _
  | udiv => exact hr.udiv o
  | sdiv => exact hr.sdiv o
  | urem => exact hr.urem o
  | srem => exact hr.srem o
  | shl | ashr => exact hr.shift o _
  | lshr => exact hr.lshr o
  | and => exact hr.and o
  | or => exact hr.or o
  | xor => exact hr.xor o

theorem transfer_of_empty (h : r.isEmpty = true ∨ o.isEmpty = true) (f : BinaryOp) :
    f.transfer r o = r.sentinels.empty := by
  have hOr : (r.isEmpty || o.isEmpty) = true := by simpa using h
  -- every operation tests for an empty operand first
  cases f <;> exact if_pos hOr

/-- The function keeps ranges of the sentinels well-formed, and the empty range empty. -/
def Strict (s : Sentinels) (f : Range → Range) : Prop :=
  ∀ r, WellFormed s r → WellFormed s (f r) ∧ (r.isEmpty = true → f r = s.empty)

/-- The function keeps ranges of the sentinels well-formed, and is empty if one of them is. -/
def Strict₂ (s : Sentinels) (f : Range → Range → Range) : Prop :=
  ∀ r o, WellFormed s r → WellFormed s o →
    WellFormed s (f r o) ∧ (r.isEmpty = true ∨ o.isEmpty = true → f r o = s.empty)

theorem strict_convert (s : Sentinels) (t : IntType) : Strict s fun r => r.convert t := by
  intro r hr
  refine ⟨hr.convert t, fun he => ?_⟩
  exact (convert_of_empty he t).trans (hr.eq_empty he)

theorem strict_signExtend (s : Sentinels) : Strict s signExtend := by
  intro r hr
  rw [signExtend_eq hr]
  exact ⟨hr, hr.eq_empty⟩

theorem strict_zeroExtend (s : Sentinels) (w : Int) : Strict s fun r => r.zeroExtend w := by
  intro r hr
  refine ⟨hr.zeroExtend w, fun he => ?_⟩
  exact (zeroExtend_of_empty he w).trans (hr.eq_empty he)

theorem strict₂_transfer (s : Sentinels) (f : BinaryOp) : Strict₂ s f.transfer := by
  intro r o hr _
  refine ⟨hr.transfer f o, fun he => ?_⟩
  rw [transfer_of_empty he, hr.sentinels_eq]

theorem strict₂_intersect (s : Sentinels) : Strict₂ s intersect := by
  intro r o hr _
  refine ⟨hr.intersect o, fun he => ?_⟩
  rw [intersect_of_empty he, hr.sentinels_eq]

/-! ### Monotonicity -/

theorem Within.transfer (h : Within s r o r' o') (hf : f ≠ .lshr) :
    f.transfer r o ⊆ f.transfer r' o' := by
  cases f with
  | add => exact h.combine add_boxed trivial trivial
  | sub => exact h.combine sub_boxed trivial trivial
  | mul => exact h.combine mul_boxed trivial trivial
  | udiv => exact h.udiv
  | sdiv => exact h.sdiv
  | urem => exact h.urem
  | srem => exact h.srem
  | shl =>
    simp only [BinaryOp.transfer, shl, h.left.sentinels_eq, h.left'.sentinels_eq]
    exact h.shift (shiftLeft_boxed _)
  | lshr => exact absurd rfl hf
  | ashr =>
    simp only [BinaryOp.transfer, ashr, h.left.sentinels_eq, h.left'.sentinels_eq]
    exact h.shift (shiftRight_boxed _)
  | and => exact h.and
  | or => exact h.or
  | xor => exact h.xor

theorem transfer_subset (hr : WellFormed s r) (ho : WellFormed s o) (hr' : WellFormed s r')
    (ho' : WellFormed s o') (h : r ⊆ r') (h' : o ⊆ o') (hf : f ≠ .lshr) :
    f.transfer r o ⊆ f.transfer r' o' := by
  by_cases he : r.isEmpty = true ∨ o.isEmpty = true
  · rw [transfer_of_empty he]
    exact .inl rfl
  · rw [not_or, Bool.not_eq_true, Bool.not_eq_true] at he
    exact Within.transfer ⟨hr, ho, hr', ho', h, h', he.1, he.2⟩ hf

theorem union_subset_union (hr : WellFormed s r) (hr' : WellFormed s r') (ho' : WellFormed s o')
    (h : r ⊆ r') (h' : o ⊆ o') : r.union o ⊆ r'.union o' := by
  apply union_subset hr (hr'.union ho')
  · exact subset_trans h (subset_union_left hr' o')
  · exact subset_trans h' (subset_union_right hr' ho')

/-- Larger operands give larger results: under each binary operation but the logical right shift,
under intersection and union, and under the conversions that keep or reduce integers. -/
theorem operations_monotone (hr : WellFormed s r) (ho : WellFormed s o) (hr' : WellFormed s r')
    (ho' : WellFormed s o') (h : r ⊆ r') (h' : o ⊆ o') :
    (∀ f : BinaryOp, f ≠ .lshr → f.transfer r o ⊆ f.transfer r' o') ∧
    r.intersect o ⊆ r'.intersect o' ∧ r.union o ⊆ r'.union o' ∧
    (∀ w, r.truncate w ⊆ r'.truncate w) ∧ r.signExtend ⊆ r'.signExtend ∧
    ∀ t, r.convert t ⊆ r'.convert t := by
  refine ⟨?_, intersect_subset hr hr' h h', union_subset_union hr hr' ho' h h', ?_, ?_, ?_⟩
  · intro f hf
    exact transfer_subset hr ho hr' ho' h h' hf
  · intro w
    exact convert_subset hr hr' h (.signed w)
  · rw [signExtend_eq hr, signExtend_eq hr']
    exact h
  · exact convert_subset hr hr' h

/-- Ranges of which only a sentinel is known, and the empty one, within larger ranges. -/
theorem operations_monotone_eight :
    let s := Sentinels.ofWidth 8
    let r := s.interval 127 127
    let r' := s.interval 3 127
    let o := s.interval (-128) (-128)
    let o' := s.interval (-128) (-5)
    (r ⊆ r' ∧ o ⊆ o' ∧ s.empty ⊆ o') ∧ r.sub o ⊆ r'.sub o' ∧ r.sdiv o ⊆ r'.sdiv o' ∧
      r.and o ⊆ r'.and o' ∧ r.union s.empty ⊆ r'.union o' ∧ o.truncate 4 ⊆ o'.truncate 4 := by
  intro s r r' o o'
  have hr : WellFormed s r := .interval s 127 127
  have hr' : WellFormed s r' := .interval s 3 127
  have ho : WellFormed s o := .interval s (-128) (-128)
  have ho' : WellFormed s o' := .interval s (-128) (-5)
  have hSubset : r ⊆ r' := by decide
  have hSubset' : o ⊆ o' := by decide
  have hBoth := operations_monotone hr ho hr' ho' hSubset hSubset'
  have hEmpty := operations_monotone hr .empty hr' ho' hSubset (.inl rfl)
  have hTurned := operations_monotone ho hr ho' hr' hSubset' hSubset
  exact ⟨⟨hSubset, hSubset', .inl rfl⟩, hBoth.1 .sub (by decide), hBoth.1 .sdiv (by decide),
    hBoth.1 .and (by decide), hEmpty.2.2.1, hTurned.2.2.2.1 4⟩

/-- The logical right shift of the non-negative integers is larger than that of a larger range. -/
example : let s := Sentinels.ofWidth 8
    let o := s.interval 1 127
    s.interval 0 127 ⊆ s.interval (-1) 127 ∧
      ¬ (s.interval 0 127).lshr o ⊆ (s.interval (-1) 127).lshr o := by decide

/-- Integers below those of four bits are extended below zero, unless the range ends at the
sentinel. -/
example : let s := Sentinels.ofWidth 8
    s.interval (-20) (-18) ⊆ s.interval (-128) (-18) ∧
      ¬ (s.interval (-20) (-18)).zeroExtend 4 ⊆ (s.interval (-128) (-18)).zeroExtend 4 := by decide

end Range

end ValueRange
