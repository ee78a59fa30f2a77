import ValueRange.Proofs.Smt.Closure

/-! What constraints are made of: comparisons of values, equations between values and what
instructions compute from values, and references to the constraints of values, joined by
conjunctions and disjunctions. All these values are results and operands of the function's
instructions, or operands of the terminators through which its blocks are entered. -/

namespace ValueRange

/-- The values that the constraints of the function can be about satisfy `P`. -/
structure Program.Confined (p : Program) (f : FuncId) (P : ValueId → Prop) : Prop where
  result {b : BlockId} {i : Instr} {v : ValueId} : b ∈ (p.func f).blocks →
    i ∈ (p.block b).instrs → i.result = some v → P v
  operand {b : BlockId} {i : Instr} {x : ValueId} : b ∈ (p.func f).blocks →
    i ∈ (p.block b).instrs → some x ∈ i.args → P x
  entry {b a : BlockId} {t : Terminator} {x : ValueId} : b ∈ (p.func f).blocks →
    (p.block b).preds = [a] → (p.block a).term = some t → some x ∈ t.operands → P x

theorem Program.confined_true {p : Program} {f : FuncId} : p.Confined f fun _ => True :=
  ⟨fun _ _ _ => trivial, fun _ _ _ => trivial, fun _ _ _ _ => trivial⟩

namespace Smt

open Program

/-- The term is made as constraints are, of values that satisfy `P`. -/
inductive Term.Factual (P : ValueId → Prop) : Term → Prop
  | conj {ts : List Term} (h : ∀ t ∈ ts, t.Factual P) : (conj ts).Factual P
  | disj {ts : List Term} (h : ∀ t ∈ ts, t.Factual P) : (disj ts).Factual P
  | ref {v : ValueId} (hv : P v) : (ref v).Factual P
  | comparison {c : Comparison} {op : Operator} {x y : ValueId}
      (hOp : Operator.ofComparison? c = some op) (hx : P x) (hy : P y) :
      (apply op (name x) (name y)).Factual P
  | literal {x : ValueId} (n : Int) (hx : P x) : (apply .equal (name x) (literal n)).Factual P
  | result {op : BinaryOp} {op' : Operator} {v x y : ValueId}
      (hOp : Operator.ofBinary? op = some op') (hv : P v) (hx : P x) (hy : P y) :
      (apply .equal (name v) (apply op' (name x) (name y))).Factual P
  | truth : Term.truth.Factual P

section Constraints

variable {p : Program} {f : FuncId} {b : BlockId} {i : Instr} {v x y : ValueId} {t : Term}
  {P : ValueId → Prop}

theorem factual_reference (p : Program) (hv : P v) : (reference p v).Factual P := by
  unfold reference
  split
  · exact .truth
  · exact .ref hv

theorem factual_references (p : Program) (hx : P x) (hy : P y) :
    ∀ t ∈ [reference p x, reference p y], t.Factual P :=
  List.forall_mem_cons.mpr
    ⟨factual_reference p hx, List.forall_mem_singleton.mpr (factual_reference p hy)⟩

theorem factual_condition {pred : Predicate} {taken : Bool} (hx : P x) (hy : P y)
    (h : condition pred x y taken = .ok t) : t.Factual P := by
  have hTaken {pred : Predicate} (h : condition pred x y true = .ok t) : t.Factual P := by
    cases pred with
    | known c =>
      simp only [condition, if_true, pure_bind] at h
      split at h
      case h_1 hOp =>
        cases h
        exact .comparison hOp hx hy
      · cases h
        exact .truth
    | other code =>
      cases h
      exact .truth
  cases taken with
  | true => exact hTaken h
  | false =>
    cases pred with
    | known c => exact hTaken (show condition (.known c.negate) x y true = .ok t from h)
    | other code => cases h

theorem eq_of_present {arg : Option ValueId} (h : present arg = .ok x) : arg = some x := by
  cases arg with
  | none => cases h
  | some y =>
    cases h
    rfl

theorem mem_of_operand {n : Nat} {arg : Option ValueId} (h : operand i n = .ok arg) :
    arg ∈ i.args := by
  unfold operand at h
  split at h
  case h_1 hArg =>
    cases h
    exact List.mem_of_getElem? hArg
  · cases h

theorem factual_branchCondition
    (hEntry : ∀ {a t x}, (p.block b).preds = [a] → (p.block a).term = some t →
      some x ∈ t.operands → P x)
    (h : branchCondition p b = .ok t) : t.Factual P := by
  unfold branchCondition at h
  split at h
  case h_1 hPreds =>
    split at h
    case h_1 hTerm =>
      obtain ⟨x, hx, hTest⟩ := exists_of_bind h
      cases eq_of_present hx
      split at hTest
      · cases hTest
        exact .truth
      obtain ⟨holds, hHolds, hTest⟩ := exists_of_bind hTest
      obtain ⟨y, hy, hTest⟩ := exists_of_bind hTest
      cases eq_of_present hy
      cases hTest
      have hx := hEntry hPreds hTerm List.mem_cons_self
      have hy := hEntry hPreds hTerm (List.mem_cons_of_mem _ List.mem_cons_self)
      exact .conj (List.forall_mem_cons.mpr
        ⟨factual_condition hx hy hHolds, factual_references p hx hy⟩)
    case h_2 hTerm =>
      split at h
      · cases h
        exact .truth
      obtain ⟨on, hOn, hSwitch⟩ := exists_of_bind h
      cases eq_of_present hOn
      cases hSwitch
      have hOn := hEntry hPreds hTerm List.mem_cons_self
      refine .conj (List.forall_mem_cons.mpr ⟨.disj fun t ht => ?_,
        List.forall_mem_singleton.mpr (factual_reference p hOn)⟩)
      obtain ⟨c, -, rfl⟩ := List.mem_map.mp ht
      exact .literal c.1 hOn
    · cases h
      exact .truth
  · cases h
    exact .truth

theorem factual_copyTerms {arg : Option ValueId} {ts : List Term} (hv : P v)
    (hArg : ∀ {x}, some x = arg → P x) (h : copyTerms p v arg = .ok ts) :
    ∀ t ∈ ts, t.Factual P := by
  obtain ⟨x, hx, h⟩ := exists_of_bind h
  have hx := hArg (eq_of_present hx).symm
  cases h
  exact List.forall_mem_cons.mpr ⟨.comparison (c := .eq) rfl hv hx,
    List.forall_mem_singleton.mpr (factual_reference p hx)⟩

theorem factual_instrConstraint (hv : P v) (hArgs : ∀ {x}, some x ∈ i.args → P x)
    (hEntry : ∀ {t}, branchCondition p b = .ok t → t.Factual P)
    (h : instrConstraint p b i v = .ok (some t)) : t.Factual P := by
  have hCopy {t : Term}
      (h : (do return some (Term.conj (← copyTerms p v (← operand i 0)))) = .ok (some t)) :
      t.Factual P := by
    obtain ⟨x, hx, h⟩ := exists_of_bind h
    obtain ⟨ts, hts, h⟩ := exists_of_bind h
    cases h
    exact .conj (factual_copyTerms hv (fun hEq => hArgs (hEq ▸ mem_of_operand hx)) hts)
  unfold instrConstraint at h
  split at h
  · obtain ⟨x, hx, h⟩ := exists_of_bind h
    obtain ⟨entry, hCondition, h⟩ := exists_of_bind h
    obtain ⟨ts, hts, h⟩ := exists_of_bind h
    cases h
    have hts := factual_copyTerms hv (fun hEq => hArgs (hEq ▸ mem_of_operand hx)) hts
    exact .conj (List.forall_mem_cons.mpr ⟨hEntry hCondition, hts⟩)
  iterate 4
    · exact hCopy h
  · split at h
    · cases h
    case h_2 op hOp =>
      obtain ⟨x?, hx?, h⟩ := exists_of_bind h
      obtain ⟨y?, hy?, h⟩ := exists_of_bind h
      obtain ⟨x, hx, h⟩ := exists_of_bind h
      obtain ⟨y, hy, h⟩ := exists_of_bind h
      cases h
      have hx := hArgs (eq_of_present hx ▸ mem_of_operand hx?)
      have hy := hArgs (eq_of_present hy ▸ mem_of_operand hy?)
      exact .conj (List.forall_mem_cons.mpr ⟨.result hOp hv hx hy, factual_references p hx hy⟩)
  · obtain ⟨ts, hts, h⟩ := exists_of_bind h
    cases h
    refine .disj fun t ht => ?_
    obtain ⟨arg, hMem, hArg⟩ := exists_of_mem_mapM hts ht
    obtain ⟨terms, hTerms, rfl⟩ := exists_of_map hArg
    exact .conj (factual_copyTerms hv (fun hEq => hArgs (hEq ▸ hMem)) hTerms)
  · cases h

variable {cs : List (ValueId × Term)}

theorem factual_constraints (hP : p.Confined f P) (h : constraints p f = .ok cs)
    {c : ValueId × Term} (hc : c ∈ cs) : c.2.Factual P := by
  obtain ⟨found, hFound, h⟩ := exists_of_bind h
  cases h
  obtain ⟨block, hMem, hc⟩ := List.mem_flatten.mp hc
  obtain ⟨b, hb, hBlock⟩ := exists_of_mem_mapM hFound hMem
  obtain ⟨terms, hTerms, h⟩ := exists_of_bind hBlock
  cases h
  obtain ⟨c?, hMem, rfl⟩ := List.mem_filterMap.mp hc
  obtain ⟨i, hi, hTerm⟩ := exists_of_mem_mapM hTerms hMem
  have hb := Array.mem_toList_iff.mp hb
  have hi := Array.mem_toList_iff.mp hi
  split at hTerm
  · cases hTerm
  case h_2 v hv =>
    obtain ⟨t?, ht?, h⟩ := exists_of_bind hTerm
    cases t? with
    | none => cases h
    | some t =>
      cases h
      exact factual_instrConstraint (hP.result hb hi hv) (hP.operand hb hi)
        (factual_branchCondition (hP.entry hb)) ht?

theorem factual_constraintOf (hP : p.Confined f P) (h : constraints p f = .ok cs) (v : ValueId) :
    (constraintOf cs v).Factual P := by
  unfold constraintOf
  cases hLookup : cs.lookup v with
  | none => exact .truth
  | some t => exact factual_constraints hP h (mem_of_lookup hLookup)

end Constraints

end Smt

end ValueRange
