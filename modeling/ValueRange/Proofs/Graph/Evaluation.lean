import ValueRange.Graph.Eval
import ValueRange.Proofs.Range.Bitwise
import ValueRange.Proofs.Range.Transfer

/-! Evaluating operations. The values that an operation may give are described apart from ranges;
the range of an operation holds every value of the sink's type that the operation gives for values in
the ranges of its sources. -/

namespace ValueRange

/-- The values that a unary operation gives. A conversion reduces its operand into the target type,
and a zero extension moves a negative operand up by the power of two of the source type's width. -/
def UnaryOp.Gives (op : UnaryOp) (sourceType targetType : IntType) (x z : Int) : Prop :=
  match op with
  | .copy | .load | .store | .sext => z = x
  | .cast | .trunc => targetType.Reduces x z
  | .zext => z = if x < 0 then x + pow2 sourceType.width.toNat else x

/-- The values that a binary operation gives. Sums, differences and products are exact. The unsigned
operations are those of the integers on non-negative operands; a negative operand, which stands for
an integer whose width is not known here, leaves a quotient open, a remainder anywhere below a
positive divisor, and a right shift by a positive amount anywhere above zero. -/
def BinaryOp.Gives (op : BinaryOp) (x y z : Int) : Prop :=
  match op with
  | .add => z = x + y
  | .sub => z = x - y
  | .mul => z = x * y
  | .sdiv => y ≠ 0 ∧ z = x.tdiv y
  | .srem => y ≠ 0 ∧ z = x.tmod y
  | .udiv => 0 ≤ x → 0 ≤ y → y ≠ 0 ∧ z = x / y
  | .urem => if 0 ≤ x ∧ 0 ≤ y then y ≠ 0 ∧ z = x % y else 0 < y → 0 ≤ z ∧ z < y
  | .shl => 0 ≤ y ∧ z = x * pow2 y.toNat
  | .ashr => 0 ≤ y ∧ z = x / pow2 y.toNat
  | .lshr => 0 ≤ y → if 0 ≤ x then z = x / pow2 y.toNat else if y = 0 then z = x else 0 ≤ z
  | .and => z = x.land y
  | .or => z = x.lor y
  | .xor => z = x.xor y

/-- The operation on extended integers behind a sum, difference or product. -/
def BinaryOp.corner? : BinaryOp → Option Range.Corner
  | .add => some Extended.add
  | .sub => some Extended.sub
  | .mul => some Extended.mul
  | _ => none

/-- The integer lies strictly between the sentinels. -/
def Sentinels.Inner (s : Sentinels) (n : Int) : Prop := s.negInf < n ∧ n < s.posInf

/-- The values of a type that is narrower than the sentinels lie between them. -/
theorem IntType.Contains.inner {t : IntType} {s : Sentinels} {n : Int}
    (hWidth : t.signedWidth < s.bits) (h : t.Contains n) : s.Inner n := by
  obtain ⟨hl, hu⟩ := h
  have hBits := s.two_le_bits
  have hTwo : pow2 1 ≤ pow2 (s.bits - 1) := pow2_mono (by omega)
  have hOne : pow2 1 = 2 := rfl
  have hLess {k : Nat} (hk : k < s.bits - 1) : pow2 k < pow2 (s.bits - 1) := pow2_strictMono hk
  unfold minValue at hl
  unfold maxValue at hu
  unfold signedWidth at hWidth
  show -pow2 (s.bits - 1) < n ∧ n < pow2 (s.bits - 1) - 1
  cases hs : t.unsigned with
  | true =>
    rw [hs, if_pos rfl] at hl hu hWidth
    by_cases hw : t.width.toNat = 0
    · rw [hw] at hu
      have hZero : pow2 0 = 1 := rfl
      omega
    · have := hLess (k := t.width.toNat) (by omega)
      omega
  | false =>
    rw [hs, if_neg (by simp)] at hl hu hWidth
    by_cases hw : (t.width - 1).toNat = 0
    · rw [hw] at hl hu
      have hZero : pow2 0 = 1 := rfl
      omega
    · have := hLess (k := (t.width - 1).toNat) (by omega)
      omega

namespace Graph

open Range

variable {s : Sentinels} {t t' : IntType} {a b r : Range} {x y z : Int}

/-! ### Well-formed results -/

theorem wellFormed_evalUnary (op : UnaryOp) (hr : WellFormed s r) (t t' : IntType) :
    WellFormed s (evalUnary op r t t') := by
  cases op with
  | copy | load | store => exact hr
  | cast => exact hr.convert t'
  | trunc =>
    simp only [evalUnary, truncate]
    split
    · exact hr.convert t'
    · exact hr.convert (.signed t'.width)
  | sext =>
    rw [evalUnary, signExtend_eq hr]
    exact hr
  | zext => exact hr.zeroExtend t.width

theorem wellFormed_evalWrapping (f : Corner) (t : IntType) (ha : WellFormed s a) (b : Range) :
    WellFormed s (evalWrapping s f t a b) := by
  unfold evalWrapping
  split
  · exact .interval s _ _
  · exact ha.combine b f

theorem evalBinary_of_corner {f : BinaryOp} {c : Corner} (hf : f.corner? = some c) (s : Sentinels)
    (t : IntType) (r o : Range) : evalBinary s f t r o = evalWrapping s c t r o := by
  cases f <;> cases hf <;> rfl

theorem evalBinary_of_not_corner {f : BinaryOp} (hf : f.corner? = none) (s : Sentinels)
    (t : IntType) (r o : Range) : evalBinary s f t r o = f.transfer r o := by
  cases f <;> cases hf <;> rfl

theorem wellFormed_evalBinary (op : BinaryOp) (t : IntType) (ha : WellFormed s a) (b : Range) :
    WellFormed s (evalBinary s op t a b) := by
  cases hf : op.corner? with
  | some c =>
    rw [evalBinary_of_corner hf]
    exact wellFormed_evalWrapping c t ha b
  | none =>
    rw [evalBinary_of_not_corner hf]
    exact ha.transfer op b

theorem wellFormed_unionAll (rs : List Range) (h : ∀ r ∈ rs, WellFormed s r) {acc : Range}
    (hAcc : WellFormed s acc) : WellFormed s (rs.foldl Range.union acc) := by
  induction rs generalizing acc with
  | nil => exact hAcc
  | cons r rs ih =>
    exact ih (fun q hq => h q (List.mem_cons_of_mem r hq)) (hAcc.union (h r List.mem_cons_self))

theorem corner_boxed {f : BinaryOp} {c : Corner} (hf : f.corner? = some c) :
    Boxed c fun _ => True := by
  cases f <;> cases hf
  · exact add_boxed
  · exact sub_boxed
  · exact mul_boxed

/-! ### Values -/

theorem mem_evalUnary {op : UnaryOp} (hr : WellFormed s r) (hx : x ∈ r) (ht : t.Contains x)
    (ht' : t'.isInteger = true) (hz : s.Inner z) (h : op.Gives t t' x z) :
    z ∈ evalUnary op r t t' := by
  have hs := hr.sentinels_eq
  have hLow : r.sentinels.negInf ≤ z := hs ▸ Int.le_of_lt hz.1
  have hHigh : z ≤ r.sentinels.posInf := hs ▸ Int.le_of_lt hz.2
  cases op with
  | copy | load | store =>
    rw [show z = x from h]
    exact hx
  | sext =>
    rw [evalUnary, signExtend_eq hr, show z = x from h]
    exact hx
  | cast => exact mem_convert ht' hx h hLow hHigh
  | trunc =>
    simp only [evalUnary, truncate]
    split
    case isTrue => exact mem_convert ht' hx h hLow hHigh
    case isFalse hSigned =>
      have hSame : IntType.signed t'.width = t' := by
        obtain ⟨w, u⟩ := t'
        rw [Bool.not_eq_true] at hSigned
        rw [IntType.signed, show u = false from hSigned]
      rw [hSame]
      exact mem_convert ht' hx h hLow hHigh
  | zext => exact mem_zeroExtend hx ht hLow hHigh h

/-- Where no corner leaves the type, the exact result is held; where one does, the whole type is. -/
theorem mem_evalWrapping {f : Corner} (ht : t.Contains z) (hz : s.Inner z) (ha : WellFormed s a)
    (h : (a.combine b f).Admits z) : z ∈ evalWrapping s f t a b := by
  unfold evalWrapping
  split
  · exact Sentinels.mem_interval ht.1 ht.2 (Int.le_of_lt hz.1) (Int.le_of_lt hz.2)
  · have hs := (ha.combine b f).sentinels_eq
    exact h.mem (hs ▸ Int.le_of_lt hz.1) (hs ▸ Int.le_of_lt hz.2)

theorem mem_evalBinary {op : BinaryOp} (ha : WellFormed s a) (hb : WellFormed s b) (hx : x ∈ a)
    (hy : y ∈ b) (hxs : s.Inner x) (hys : s.Inner y) (hz : s.Inner z) (ht : t.Contains z)
    (h : op.Gives x y z) : z ∈ evalBinary s op t a b := by
  have has := ha.sentinels_eq
  have hbs := hb.sentinels_eq
  have haOpen : Open a := .of_mem hx (has ▸ hxs.1) (has ▸ hxs.2)
  have hbOpen : Open b := .of_mem hy (hbs ▸ hys.1) (hbs ▸ hys.2)
  have hbLe : b.lower ≤ b.upper := hb.lower_le_upper hy.1
  have hxa := Admits.of_mem hx
  have hyb := Admits.of_mem hy
  have hxLow : a.sentinels.negInf ≤ x := has ▸ Int.le_of_lt hxs.1
  have hxHigh : x ≤ a.sentinels.posInf := has ▸ Int.le_of_lt hxs.2
  have hMem {r : Range} (hr : WellFormed s r) (hAdmits : r.Admits z) : z ∈ r :=
    hAdmits.mem (hr.sentinels_eq ▸ Int.le_of_lt hz.1) (hr.sentinels_eq ▸ Int.le_of_lt hz.2)
  cases op with
  | add =>
    cases h
    exact mem_evalWrapping ht hz ha (add_admits haOpen hbOpen hxa hyb)
  | sub =>
    cases h
    exact mem_evalWrapping ht hz ha (sub_admits haOpen hbOpen hxa hyb)
  | mul =>
    cases h
    exact mem_evalWrapping ht hz ha (mul_admits haOpen hbOpen hxa hyb)
  | sdiv =>
    obtain ⟨-, rfl⟩ := h
    exact hMem (ha.sdiv b) (sdiv_admits haOpen hbOpen hbLe hxa hyb)
  | srem =>
    obtain ⟨hne, rfl⟩ := h
    exact hMem (ha.srem b) (srem_admits hxa hyb hne)
  | udiv =>
    refine hMem (ha.udiv b) (udiv_admits haOpen hbOpen hbLe hxa hyb fun hx0 hy0 => ?_)
    obtain ⟨-, rfl⟩ := h hx0 hy0
    exact (Int.tdiv_eq_ediv_of_nonneg hx0).symm
  | urem =>
    refine hMem (ha.urem b) (urem_admits hxa hyb fun hy0 => ?_)
    simp only [BinaryOp.Gives] at h
    split at h
    case isTrue hNonneg =>
      obtain ⟨-, rfl⟩ := h
      obtain ⟨hLow, hHigh, hLe⟩ := emod_bounds hNonneg.1 hy0
      exact ⟨hLow, hHigh, fun _ => hLe⟩
    case isFalse hNeg =>
      obtain ⟨hLow, hHigh⟩ := h hy0
      exact ⟨hLow, hHigh, fun hx0 => absurd ⟨hx0, Int.le_of_lt hy0⟩ hNeg⟩
  | shl =>
    obtain ⟨hy0, rfl⟩ := h
    exact hMem (ha.shift b _) (shl_admits haOpen ha hbOpen hbLe hxa hyb hy0)
  | ashr =>
    obtain ⟨hy0, rfl⟩ := h
    exact hMem (ha.shift b _) (ashr_admits haOpen hbOpen hbLe hxa hyb hy0 hxLow hxHigh)
  | lshr =>
    refine hMem (ha.lshr b) (lshr_admits hxa hyb (fun hn hm => ?_) fun hy0 => ?_)
    · have hy0 := hyb.nonneg hm
      have hz := h hy0
      rw [if_pos (hxa.nonneg hn)] at hz
      rw [hz]
      exact ashr_admits haOpen hbOpen hbLe hxa hyb hy0 hxLow hxHigh
    · have hz := h hy0
      split_ifs at hz with hx0 hy1
      · rw [hz]
        exact .inl (Int.ediv_nonneg hx0 (Int.le_of_lt (pow2_pos _)))
      · exact .inr ⟨hy1, hz⟩
      · exact .inl hz
  | and =>
    cases h
    exact hMem (ha.and b) (and_admits ha hb hxa hyb)
  | or =>
    cases h
    exact hMem (ha.or b) (or_admits ha hb hxa hyb)
  | xor =>
    cases h
    exact hMem (ha.xor b) (xor_admits hxa hyb)

theorem subset_unionAll (rs : List Range) (h : ∀ r ∈ rs, WellFormed s r) {acc : Range}
    (hAcc : WellFormed s acc) : acc ⊆ rs.foldl Range.union acc ∧
      ∀ r ∈ rs, r ⊆ rs.foldl Range.union acc := by
  induction rs generalizing acc with
  | nil => exact ⟨subset_refl acc, nofun⟩
  | cons q rs ih =>
    have hq := h q List.mem_cons_self
    obtain ⟨hFirst, hRest⟩ := ih (fun r hr => h r (List.mem_cons_of_mem q hr)) (hAcc.union hq)
    refine ⟨subset_trans (subset_union_left hAcc q) hFirst, fun r hr => ?_⟩
    rcases List.mem_cons.mp hr with rfl | hr
    · exact subset_trans (subset_union_right hAcc hq) hFirst
    · exact hRest r hr

theorem unionAll_subset {rs : List Range} {q : Range}
    (hForm : ∀ r ∈ rs, WellFormed s r) (hq : WellFormed s q) (h : ∀ r ∈ rs, r ⊆ q) :
    unionAll s rs ⊆ q := by
  have hFold {acc : Range} (hAcc : WellFormed s acc) (hSub : acc ⊆ q) :
      rs.foldl Range.union acc ⊆ q := by
    induction rs generalizing acc with
    | nil => exact hSub
    | cons r rs ih =>
      have hMem := List.mem_cons_self (a := r) (l := rs)
      refine ih (fun r' hr' => hForm r' (List.mem_cons_of_mem r hr'))
        (fun r' hr' => h r' (List.mem_cons_of_mem r hr')) (hAcc.union (hForm r hMem)) ?_
      exact union_subset hAcc hq hSub (h r hMem)
  exact hFold .empty (.inl rfl)

/-- The union of some ranges depends on which ranges they are, and not on their order or number. -/
theorem unionAll_congr {rs rs' : List Range} (hForm : ∀ r ∈ rs, WellFormed s r)
    (h : ∀ r, r ∈ rs ↔ r ∈ rs') : unionAll s rs = unionAll s rs' := by
  have hForm' (r : Range) (hr : r ∈ rs') : WellFormed s r := hForm r ((h r).mpr hr)
  have hAll : WellFormed s (unionAll s rs) := wellFormed_unionAll rs hForm .empty
  have hAll' : WellFormed s (unionAll s rs') := wellFormed_unionAll rs' hForm' .empty
  refine subset_antisymm hAll hAll' (unionAll_subset hForm hAll' fun r hr => ?_)
    (unionAll_subset hForm' hAll fun r hr => ?_)
  · exact (subset_unionAll rs' hForm' .empty).2 r ((h r).mp hr)
  · exact (subset_unionAll rs hForm .empty).2 r ((h r).mpr hr)

/-! ### Operations of a graph -/

/-- The ranges of all nodes are well formed. -/
structure Regular (g : Graph) : Prop where
  range (n : NodeId) : WellFormed g.sentinels (g.range n)

variable {g : Graph} {o : OpId} {op : Operation}

theorem Regular.evalKind (h : Regular g) (sink : NodeId) (kind : Kind) :
    WellFormed g.sentinels (g.evalKind sink kind) := by
  cases kind with
  | unary op source t t' => exact wellFormed_evalUnary op (h.range source) t t'
  | sigma source bound => exact h.range source
  | binary op lhs rhs => exact wellFormed_evalBinary op _ (h.range lhs) _
  | phi sources =>
    refine wellFormed_unionAll _ (fun r hr => ?_) .empty
    obtain ⟨n, -, rfl⟩ := List.mem_map.mp hr
    exact h.range n

theorem Regular.eval (h : Regular g) (op : Operation) : WellFormed g.sentinels (g.eval op) := by
  unfold Graph.eval
  split
  · exact h.evalKind op.sink op.kind
  · exact (h.evalKind op.sink op.kind).intersect op.intersect

theorem eval_of_max (h : op.intersect = g.sentinels.max) :
    g.eval op = g.evalKind op.sink op.kind := by
  unfold Graph.eval
  rw [if_pos]
  rw [h, isMax_iff (.max g.sentinels)]

theorem Regular.mem_eval (h : Regular g) (hx : x ∈ g.evalKind op.sink op.kind)
    (hIntersect : x ∈ op.intersect) : x ∈ g.eval op := by
  unfold Graph.eval
  split
  · exact hx
  · exact mem_intersect (h.evalKind op.sink op.kind) hx hIntersect

theorem Regular.subset_phi (h : Regular g) (sink : NodeId) {sources : List NodeId} {n : NodeId}
    (hn : n ∈ sources) : g.range n ⊆ g.evalKind sink (.phi sources) := by
  refine (subset_unionAll (sources.map g.range) (fun r hr => ?_) .empty).2 _
    (List.mem_map_of_mem hn)
  obtain ⟨m, -, rfl⟩ := List.mem_map.mp hr
  exact h.range m

end Graph

end ValueRange
