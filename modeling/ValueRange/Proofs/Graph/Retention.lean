import ValueRange.Proofs.Graph.Acyclic
import ValueRange.Proofs.Range.RightShift

/-! What narrowing retains. The evaluation of an operation is not monotone: a sum, difference or
product that leaves its type counts as the whole type, and zero extensions and logical right shifts
have corners of their own. The part of an evaluation that stays clear of these is monotone, and the
range of the sink holds it from the widening of its component to the end of the solution. -/

namespace ValueRange.Graph

open Range

/-! ### Evaluation -/

section Evaluation

variable {s : Sentinels} {r o r' o' : Range} {t t' : IntType} {x : Int}

theorem nonempty_of_mem_combine {c : Corner} (hx : x ∈ r.combine o c) :
    r.isEmpty = false ∧ o.isEmpty = false := by
  by_contra hEmpty
  rw [not_and_or, Bool.not_eq_false, Bool.not_eq_false] at hEmpty
  rw [combine_of_empty hEmpty] at hx
  cases hx.1

theorem isEmpty_evalBinary (h : r.isEmpty = true ∨ o.isEmpty = true) (f : BinaryOp) :
    (evalBinary s f t r o).isEmpty = true := by
  cases hf : f.corner? with
  | some c =>
    have hNot : r.overflows o c t = false := by
      rcases h with h | h <;> simp [overflows, h]
    rw [evalBinary_of_corner hf, evalWrapping, hNot, if_neg Bool.false_ne_true, combine_of_empty h]
    rfl
  | none =>
    rw [evalBinary_of_not_corner hf, transfer_of_empty h]
    rfl

theorem isEmpty_evalUnary (h : r.isEmpty = true) (u : UnaryOp) (t t' : IntType) :
    (evalUnary u r t t').isEmpty = true := by
  cases u with
  | copy | load | store => exact h
  | cast => rw [evalUnary, convert_of_empty h, h]
  | trunc =>
    rw [evalUnary, truncate, convert_of_empty h, convert_of_empty h]
    split <;> exact h
  | sext => rw [evalUnary, signExtend, if_pos h, h]
  | zext => rw [evalUnary, zeroExtend_of_empty h, h]

/-- What a unary operation evaluates to is in its evaluation over a larger range. A zero extension
counts within the bits of its source. -/
theorem mem_evalUnary_of_subset {u : UnaryOp} (hr : WellFormed s r) (hr' : WellFormed s r')
    (h : r ⊆ r') (hx : x ∈ evalUnary u r t t')
    (hFit : u = .zext → 0 ≤ x ∧ x < pow2 t.width.toNat) : x ∈ evalUnary u r' t t' := by
  cases u with
  | copy | load | store => exact mem_of_subset h hx
  | cast => exact mem_of_subset (convert_subset hr hr' h t') hx
  | trunc =>
    simp only [evalUnary, truncate] at hx ⊢
    cases hu : t'.unsigned with
    | true =>
      rw [hu, if_pos rfl] at hx
      exact mem_of_subset (convert_subset hr hr' h _) hx
    | false =>
      rw [hu, if_neg Bool.false_ne_true] at hx
      exact mem_of_subset (convert_subset hr hr' h _) hx
  | sext =>
    rw [evalUnary, signExtend_eq hr] at hx
    rw [evalUnary, signExtend_eq hr']
    exact mem_of_subset h hx
  | zext =>
    obtain ⟨hLow, hHigh⟩ := hFit rfl
    exact mem_zeroExtend_of_subset hr hr' h hx hLow hHigh

theorem nonempty_of_mem_evalBinary {f : BinaryOp} (hx : x ∈ evalBinary s f t r o) :
    r.isEmpty = false ∧ o.isEmpty = false := by
  by_contra hEmpty
  rw [not_and_or, Bool.not_eq_false, Bool.not_eq_false] at hEmpty
  exact Bool.false_ne_true (hx.1.symm.trans (isEmpty_evalBinary hEmpty f))

/-- What a binary operation that cannot overflow evaluates to is in its evaluation over larger
ranges. A logical right shift of operands that are not negative counts where it is not negative. -/
theorem mem_evalBinary_of_within {f : BinaryOp} (hWithin : Within s r o r' o') (hf : f.corner? = none)
    (hx : x ∈ evalBinary s f t r o)
    (hFit : f = .lshr → r.isNonNegative = true → o.isNonNegative = true → 0 ≤ x) :
    x ∈ evalBinary s f t r' o' := by
  rw [evalBinary_of_not_corner hf] at hx ⊢
  by_cases hl : f = .lshr
  · subst hl
    exact hWithin.mem_lshr hx (hFit rfl)
  · exact mem_of_subset (hWithin.transfer hl) hx

end Evaluation

/-! ### What operations yield -/

/-- The operation evaluates to `x` clear of the corners at which it is not monotone: a sum,
difference or product within its type, a zero extension within the bits of its source, and a logical
right shift of operands that are not negative where it is not negative. -/
def Yields (g : Graph) (op : Operation) (x : Int) : Prop :=
  match op.kind with
  | .unary u _ t _ => x ∈ g.eval op ∧ (u = .zext → 0 ≤ x ∧ x < pow2 t.width.toNat)
  | .binary f a b =>
    match f.corner? with
    | some c => x ∈ (g.range a).combine (g.range b) c ∧ (g.typeOf op.sink).Contains x
    | none => x ∈ g.eval op ∧ (f = .lshr → (g.range a).isNonNegative = true →
        (g.range b).isNonNegative = true → 0 ≤ x)
  | _ => x ∈ g.eval op

variable {g g' h h' b : Graph} {cs : Components} {k : Nat} {comp : List NodeId} {m : Meet}
variable {n : NodeId} {o : OpId} {op : Operation} {x : Int}

/-- Only sigmas have intersections of their own. -/
def Whole (g : Graph) (op : Operation) : Prop :=
  (∀ a bound, op.kind ≠ .sigma a bound) → op.intersect = g.sentinels.max

theorem Yields.mem_eval (hy : Yields g op x) (hr : Regular g) (hWhole : Whole g op) :
    x ∈ g.eval op := by
  unfold Yields at hy
  split at hy
  case h_1 => exact hy.1
  case h_2 f a b hk =>
    split at hy
    case h_1 c hc =>
      rw [eval_of_max (hWhole (by simp [hk])), hk, evalKind, evalBinary_of_corner hc, evalWrapping]
      obtain ⟨hl, hu⟩ := ((hr.range a).combine (g.range b) c).mem_bounds hy.1
      split
      · exact Sentinels.mem_interval hy.2.1 hy.2.2 hl hu
      · exact hy.1
    case h_2 => exact hy.1
  case h_3 => exact hy

/-- What an operation yields, it yields over larger ranges. -/
theorem Yields.mono (hy : Yields g' op x) (hShape : g'.shape = g.shape) (hr : Regular g)
    (hr' : Regular g') (hWhole : Whole g op)
    (hRange : ∀ n ∈ op.kind.operands, g'.range n ⊆ g.range n) : Yields g op x := by
  have hs := sentinels_of_shape hShape
  have hForm (n : NodeId) : WellFormed g.sentinels (g'.range n) := hs ▸ hr'.range n
  have hMax (hNot : ∀ a bound, op.kind ≠ .sigma a bound) :
      g'.eval op = g'.evalKind op.sink op.kind ∧ g.eval op = g.evalKind op.sink op.kind :=
    ⟨eval_of_max (hs ▸ hWhole hNot), eval_of_max (hWhole hNot)⟩
  unfold Yields at hy ⊢
  cases hk : op.kind with
  | unary u a t t' =>
    obtain ⟨hEval', hEval⟩ := hMax (by simp [hk])
    rw [hk] at hy hRange
    rw [hEval', hk] at hy
    rw [hEval, hk]
    have ha := hRange a (by simp [Kind.operands])
    exact ⟨mem_evalUnary_of_subset (hForm a) (hr.range a) ha hy.1 hy.2, hy.2⟩
  | sigma a bound =>
    rw [hk] at hy hRange
    have ha := hRange a (by simp [Kind.operands])
    have hInner {q : Graph} : q.eval op =
        if op.intersect.isMax then q.range a else (q.range a).intersect op.intersect := by
      rw [eval, hk, evalKind]
    refine mem_of_subset (r := g'.eval op) ?_ hy
    rw [hInner, hInner]
    split
    · exact ha
    · exact intersect_subset (hForm a) (hr.range a) ha (subset_refl _)
  | binary f a b =>
    obtain ⟨hEval', hEval⟩ := hMax (by simp [hk])
    rw [hk] at hy hRange
    have hWithin (hNonempty : (g'.range a).isEmpty = false ∧ (g'.range b).isEmpty = false) :
        Within g.sentinels (g'.range a) (g'.range b) (g.range a) (g.range b) :=
      ⟨hForm a, hForm b, hr.range a, hr.range b, hRange a (by simp [Kind.operands]),
        hRange b (by simp [Kind.operands]), hNonempty.1, hNonempty.2⟩
    cases hf : f.corner? with
    | some c =>
      simp only [hf] at hy ⊢
      have hIn := hWithin (nonempty_of_mem_combine hy.1)
      refine ⟨mem_of_subset (hIn.combine (corner_boxed hf) trivial trivial) hy.1, ?_⟩
      rw [← typeOf_of_shape hShape]
      exact hy.2
    | none =>
      simp only [hf] at hy ⊢
      rw [hEval', hk, evalKind, hs, typeOf_of_shape hShape] at hy
      rw [hEval, hk, evalKind]
      have hIn := hWithin (nonempty_of_mem_evalBinary hy.1)
      exact ⟨mem_evalBinary_of_within hIn hf hy.1 hy.2,
        fun hl ha hb => hy.2 hl (hIn.nonneg_left ha) (hIn.nonneg_right hb)⟩
  | phi sources =>
    obtain ⟨hEval', hEval⟩ := hMax (by simp [hk])
    rw [hk] at hy hRange
    rw [hEval', hk, evalKind, hs] at hy
    rw [hEval, hk]
    refine mem_of_subset (unionAll_subset ?_ (hr.evalKind op.sink _) ?_) hy
    · intro r hMem
      obtain ⟨n, -, rfl⟩ := List.mem_map.mp hMem
      exact hForm n
    · intro r hMem
      obtain ⟨n, hn, rfl⟩ := List.mem_map.mp hMem
      exact subset_trans (hRange n hn) (hr.subset_phi op.sink hn)

theorem Regular.eval_subset (hr : Regular g) (op : Operation) :
    g.eval op ⊆ g.evalKind op.sink op.kind := by
  unfold Graph.eval
  split
  · exact subset_refl _
  · exact intersect_subset_left (hr.evalKind op.sink op.kind) _

/-! ### Stages -/

/-- The ranges of the sinks below `k` hold what their operations yield. -/
structure Retains (cs : Components) (k : Nat) (g : Graph) : Prop where
  whole {o : OpId} {op : Operation} : g.ops[o]? = some op → Whole g op
  mem {o : OpId} {op : Operation} {x : Int} : g.ops[o]? = some op → cs.number op.sink < k →
    Yields g op x → x ∈ g.range op.sink

/-- In a component without an entry every operation evaluates to the empty range. -/
theorem Stage.eval_subset_of_no_entry (hs : Stage b cs k h) (hc : cs.members[k]? = some comp)
    (hEntry : h.hasEntry comp = false) (ho : h.ops[o]? = some op) (hn : cs.number op.sink = k) :
    h.eval op ⊆ h.range op.sink := by
  have hSeeded := hs.seeded ho (Nat.le_of_eq hn.symm)
  by_cases hAll : ∀ n ∈ op.kind.operands, cs.number n < k
  · rw [hSeeded.eval hAll]
    exact subset_refl _
  have hEmpty {n : NodeId} (hMem : n ∈ op.kind.operands) (hNot : ¬ cs.number n < k) :
      (h.range n).isEmpty = true := by
    have hle := hs.layout.number_le ho (.inl hMem)
    have hComp : n ∈ comp :=
      (hs.layout.mem_iff hc n).mpr ⟨hs.layout.wired.operand_lt ho hMem, by omega⟩
    simpa using List.any_eq_false.mp hEntry n hComp
  simp only [not_forall, exists_prop] at hAll
  obtain ⟨n, hMem, hNot⟩ := hAll
  have hnEmpty := hEmpty hMem hNot
  refine subset_trans (hs.regular.eval_subset op) ?_
  cases hk : op.kind with
  | unary u a t t' =>
    rw [hk] at hMem
    cases List.mem_singleton.mp hMem
    exact .inl (isEmpty_evalUnary hnEmpty u t t')
  | sigma a bound =>
    rw [hk] at hMem
    cases List.mem_singleton.mp hMem
    exact .inl hnEmpty
  | binary f a c =>
    rw [hk] at hMem
    refine .inl (isEmpty_evalBinary ?_ f)
    rcases List.mem_pair.mp hMem with rfl | rfl
    · exact .inl hnEmpty
    · exact .inr hnEmpty
  | phi sources =>
    refine unionAll_subset ?_ (hs.regular.range op.sink) ?_
    · intro r hr
      obtain ⟨a, -, rfl⟩ := List.mem_map.mp hr
      exact hs.regular.range a
    · intro r hr
      obtain ⟨a, ha, rfl⟩ := List.mem_map.mp hr
      by_cases hlt : cs.number a < k
      · exact hSeeded.phi hk ha hlt
      · exact .inl (hEmpty (by rw [hk]; exact ha) hlt)

/-- Resolving bounds only shrinks what operations yield. -/
theorem Resolved.retains {picks : NodeId → OpId → Prop} (hr : Resolved h h' picks)
    (hRegular : Regular h) (hRetains : Retains cs k h)
    (hMax : ∀ {o op b c}, h.ops[o]? = some op → op.kind.bound? = some (b, c) →
      cs.number op.sink < k → picks b o → op.intersect = h.sentinels.max) :
    Retains cs k h' := by
  have hRegular' := hr.regular hRegular
  refine ⟨fun {o op} ho hNot => ?_, fun {o op x} ho hn hy => ?_⟩
  · obtain ⟨old, hOld, -, hKind⟩ := op_of_shape hr.shape ho
    have hMiss := hr.miss hOld fun b c hb => by
      obtain ⟨a, ha⟩ := exists_sigma_of_bound? hb
      exact absurd (hKind.symm.trans ha) (hNot a _)
    cases ho.symm.trans hMiss
    rw [sentinels_of_shape hr.shape]
    exact hRetains.whole hOld hNot
  · obtain ⟨old, hOld, hSink, hKind⟩ := op_of_shape hr.shape ho
    rw [hr.range, ← hSink]
    refine hRetains.mem hOld (hSink ▸ hn) ?_
    by_cases hHit : ∃ b c, old.kind.bound? = some (b, c) ∧ picks b o
    · obtain ⟨b, c, hBound, hPick⟩ := hHit
      obtain ⟨a, hk⟩ := exists_sigma_of_bound? hBound
      have hEval : h.eval old = h.range a := by
        rw [eval_of_max (hMax hOld hBound (hSink ▸ hn) hPick), hk, evalKind]
      have hEval' : h'.eval op ⊆ h.range a := by
        have hSub := hRegular'.eval_subset op
        rwa [← hKind, hk, evalKind, hr.range] at hSub
      rw [Yields, ← hKind, hk] at hy
      rw [Yields, hk, hEval]
      exact mem_of_subset hEval' hy
    · have hMiss := hr.miss hOld fun b c hb hPick => hHit ⟨b, c, hb, hPick⟩
      cases ho.symm.trans hMiss
      refine hy.mono hr.shape hRegular hRegular' (hRetains.whole hOld) fun n _ => ?_
      rw [hr.range]
      exact subset_refl _

/-- Narrowing keeps what operations yield. -/
theorem retains_narrowed {defs : List OpId} (hm : m.Tight) (hw : Wired h) (hRegular : Regular h)
    (hRetains : Retains cs k h) (hNarrows : Relation.ReflTransGen (Update m defs) h h') :
    Retains cs k h' := by
  induction hNarrows with
  | refl => exact hRetains
  | @tail h₁ h₂ hRun hStep ih =>
    have hShape := hStep.shape
    have hRegular₁ := updates_regular hm.toLawful hRun hRegular
    have hRegular₂ := hStep.regular hm.toLawful hRegular₁
    have hw₁ := hw.of_shape (updates_shape hRun)
    obtain ⟨o, ho, op, r, hOp, hUpdate, rfl⟩ := hStep
    have hTightens := hm.tightens (hRegular₁.range op.sink) (hRegular₁.eval op) hUpdate
    have hSub (n : NodeId) : (h₁.setRange op.sink r).range n ⊆ h₁.range n := by
      by_cases hn : n = op.sink
      · rw [hn, range_setRange (hw₁.sink_lt hOp), if_pos rfl]
        exact hTightens.subset
      · rw [range_setRange_of_ne _ _ hn]
        exact subset_refl _
    refine ⟨fun hOp' => ih.whole hOp', fun {o' op' x} hOp' hn hy => ?_⟩
    have hy₁ := hy.mono hShape hRegular₁ hRegular₂ (ih.whole hOp') fun n _ => hSub n
    have hx := ih.mem hOp' hn hy₁
    by_cases hSink : op'.sink = op.sink
    · cases hw₁.eq_of_sink hOp' hOp hSink
      cases hOp.symm.trans hOp'
      rw [range_setRange (hw₁.sink_lt hOp), if_pos rfl]
      exact hTightens.mem hx (hy₁.mem_eval hRegular₁ (ih.whole hOp))
    · rw [range_setRange_of_ne _ _ hSink]
      exact hx

section Solving

variable {g₁ g₂ g₃ g₄ : Graph}

/-- What operations of solved components yield does not depend on the others. -/
theorem Yields.of_solved (hy : Yields h' op x) (hShape : h'.shape = h.shape) (hs : Layout h cs)
    (hr : Regular h) (hr' : Regular h') (hWhole : Whole h op) (ho : h.ops[o]? = some op)
    (hn : cs.number op.sink < k) (hSame : ∀ n, cs.number n < k → h'.range n = h.range n) :
    Yields h op x ∧ h'.range op.sink = h.range op.sink := by
  refine ⟨hy.mono hShape hr hr' hWhole fun a ha => ?_, hSame _ hn⟩
  rw [hSame a (Nat.lt_of_le_of_lt (hs.number_le ho (.inl ha)) hn)]
  exact subset_refl _

/-- A component that is widened holds what its operations evaluate to. -/
theorem Stage.retains_widened (hs : Stage b cs k h) (hc : cs.members[k]? = some comp)
    (hRetains : Retains cs k h) (hSolving : Solving m k comp h g₁ g₂ g₃ g₄) :
    Retains cs (k + 1) g₁ := by
  have hShape := hSolving.shape₁
  have hOps := updates_ops hSolving.widens
  have hRegular := hSolving.regular₁ hs.regular
  have hLayout := hs.layout.of_shape hShape
  have hWhole {o : OpId} {op : Operation} (ho : g₁.ops[o]? = some op) : Whole g₁ op := fun hNot => by
    rw [sentinels_of_shape hShape]
    exact hRetains.whole (hOps ▸ ho) hNot
  refine ⟨hWhole, fun {o op x} ho hn hy => ?_⟩
  rcases Nat.lt_succ_iff_lt_or_eq.mp hn with hn | hn
  · have hOld : h.ops[o]? = some op := hOps ▸ ho
    obtain ⟨hy', hSame⟩ := hy.of_solved hShape hs.layout hs.regular hRegular (hRetains.whole hOld)
      hOld hn fun n hn => (hSolving.range_outside hs.layout fun hMem =>
        Nat.ne_of_lt hn ((hs.layout.mem_iff hc n).mp hMem).2).1
    rw [hSame]
    exact hRetains.mem hOld hn hy'
  · refine mem_of_subset ?_ (hy.mem_eval hRegular (hWhole ho))
    cases hEntry : h.hasEntry comp with
    | true => exact hSolving.eval_subset hs.layout hs.regular hc hEntry ho hn
    | false =>
      have hSame := hSolving.eq_of_no_entry hEntry
      subst hSame
      exact hs.eval_subset_of_no_entry hc hEntry ho hn

/-- Solving a component keeps what its operations yield. -/
theorem Stage.retains_next (hs : Stage b cs k h) (hm : m.Tight)
    (hb : ∀ {o : OpId} {op : Operation}, b.ops[o]? = some op → (∀ n, op.kind ≠ .sigma n none) →
      op.intersect = b.sentinels.max)
    (hRetains : Retains cs k h) (hc : cs.members[k]? = some comp)
    (hSolving : Solving m k comp h g₁ g₂ g₃ g₄) : Retains cs (k + 1) g₄ := by
  have hNumber {n : NodeId} (hn : n ∈ comp) : cs.number n = k := ((hs.layout.mem_iff hc n).mp hn).2
  have h₁ := hs.retains_widened hc hRetains hSolving
  have hRegular₁ := hSolving.regular₁ hs.regular
  have h₂ : Retains cs (k + 1) g₂ := by
    refine hSolving.resolved.retains hRegular₁ h₁ fun {o op n c} ho hBound _ hPick => ?_
    -- a bound in this component is not resolved before
    have hOld : b.ops[o]? = some op := by
      refine hs.pristine (updates_ops hSolving.widens ▸ ho) fun n' c' hBound' => ?_
      cases hBound.symm.trans hBound'
      exact Nat.le_of_eq (hNumber hPick).symm
    obtain ⟨a, hk⟩ := exists_sigma_of_bound? hBound
    rw [sentinels_of_shape (hSolving.shape₁.trans hs.shape)]
    exact hb hOld (by simp [hk])
  have hLayout₂ := hs.layout.of_shape hSolving.shape₂
  have h₃ := retains_narrowed hm hLayout₂.wired (hSolving.regular₂ hs.regular) h₂ hSolving.narrows
  have hRegular₃ := hSolving.regular₃ hm.toLawful hs.regular
  have hLayout₃ := hs.layout.of_shape hSolving.shape₃
  obtain ⟨g', hResolved, hAssigned⟩ := hSolving.propagated
  have h' : Retains cs (k + 1) g' := by
    refine hResolved.retains hRegular₃ h₃ fun {o op n c} ho hBound hn hPick => ?_
    -- a sigma outside that the component bounds is solved later
    have hle := hLayout₃.number_le ho (.inr ⟨c, hBound⟩)
    rw [hNumber hPick.1] at hle
    have hIn := (hLayout₃.inside_iff ho).mpr (Nat.le_antisymm (Nat.le_of_lt_succ hn) hle)
    rw [inside_of_shape hSolving.shape₃, hPick.2] at hIn
    cases hIn
  have hShape' := hResolved.shape.trans hSolving.shape₃
  refine ⟨fun {o op} ho hNot => ?_, fun {o op x} ho hn hy => ?_⟩
  · rw [sentinels_of_shape hAssigned.shape]
    exact h'.whole (hAssigned.ops ▸ ho) hNot
  · have hOld : g'.ops[o]? = some op := hAssigned.ops ▸ ho
    obtain ⟨hy', hSame⟩ := hy.of_solved hAssigned.shape (hs.layout.of_shape hShape')
      (hResolved.regular hRegular₃) hAssigned.regular (h'.whole hOld) hOld hn fun n hn =>
        (hSolving.range_solved hs.layout hc (Nat.le_of_lt_succ hn)).trans (hResolved.range n).symm
    rw [hSame]
    exact h'.mem hOld hn hy'

end Solving

/-! ### The whole solution -/

theorem Progress.retains (h : Progress m cs b k h') (hs : Stage b cs 0 b) (hm : m.Tight)
    (hb : ∀ {o : OpId} {op : Operation}, b.ops[o]? = some op → (∀ n, op.kind ≠ .sigma n none) →
      op.intersect = b.sentinels.max) : Retains cs k h' := by
  induction h with
  | start =>
    exact ⟨fun ho hNot => hb ho fun n => hNot n none, fun _ hn => absurd hn (Nat.not_lt_zero _)⟩
  | next hProgress hSame hc hSolving ih =>
    have hStage := hProgress.stage hs
    refine (hStage.sameState hSame).retains_next hm hb ?_ hc hSolving
    refine ⟨fun ho hNot => ?_, fun {o op x} ho hn hy => ?_⟩
    · rw [sentinels_of_shape hSame.shape]
      exact ih.whole (hSame.ops ▸ ho) hNot
    · have hOld := hSame.ops ▸ ho
      rw [hSame.range]
      refine ih.mem hOld hn (hy.mono hSame.shape hStage.regular (hSame.regular hStage.regular)
        (ih.whole hOld) fun a _ => ?_)
      rw [hSame.range]
      exact subset_refl _

/-- The evaluation of an operation is in the range of its sink. Of a sum, difference or product that
leaves its type the sink has to hold the whole type, and otherwise what is computed beyond the
type; a zero extension and a logical right shift have to be held only beyond their corners. -/
def Settled (g : Graph) (op : Operation) : Prop :=
  match op.kind with
  | .unary .zext a t _ =>
    let r := (g.range a).zeroExtend t.width
    r ⊆ g.sentinels.interval 0 (pow2 t.width.toNat - 1) ∨ r ⊆ g.range op.sink
  | .binary f a b =>
    let type := g.sentinels.interval (g.typeOf op.sink).minValue (g.typeOf op.sink).maxValue
    match f.corner? with
    | some c =>
      let r := (g.range a).combine (g.range b) c
      if (g.range a).overflows (g.range b) c (g.typeOf op.sink) then type ⊆ g.range op.sink
      else r ⊆ type ∨ r ⊆ g.range op.sink
    | none => f = .lshr → (g.range a).isNonNegative = true → (g.range b).isNonNegative = true →
        (g.range a).upperUnbounded = true → (g.range b).upperUnbounded = true →
        g.range op.sink = g.sentinels.max
  | _ => True

theorem eq_max_of_subset {s : Sentinels} {r : Range} (hr : WellFormed s r) (h : s.max ⊆ r) :
    r = s.max :=
  subset_antisymm hr (.max s) (subset_max hr) h

theorem contains_of_mem_interval {s : Sentinels} {t : IntType}
    (hx : x ∈ s.interval t.minValue t.maxValue) : t.Contains x := by
  have := s.negInf_neg
  have := s.posInf_pos
  refine Sentinels.bounds_of_mem_interval ?_ ?_ hx
  · have := pow2_pos (t.width - 1).toNat
    unfold IntType.minValue
    split <;> omega
  · have := pow2_pos (if t.unsigned then t.width else t.width - 1).toNat
    unfold IntType.maxValue
    omega

/-- Where a sink holds what its operation yields, it holds the whole evaluation exactly if the
operation is settled. -/
theorem eval_subset_iff_settled (hr : Regular g) (hWhole : Whole g op)
    (hMem : ∀ x, Yields g op x → x ∈ g.range op.sink) :
    g.eval op ⊆ g.range op.sink ↔ Settled g op := by
  have hAll (hYields : ∀ x ∈ g.eval op, Yields g op x) : g.eval op ⊆ g.range op.sink :=
    subset_of_forall_mem (hr.eval op) fun x hx => hMem x (hYields x hx)
  unfold Settled
  unfold Yields at hAll
  cases hk : op.kind with
  | unary u a t t' =>
    have hEval : g.eval op = evalUnary u (g.range a) t t' := by
      rw [eval_of_max (hWhole (by simp [hk])), hk, evalKind]
    rw [hk] at hAll
    by_cases hu : u = .zext
    · subst hu
      refine ⟨fun h => .inr (by rwa [hEval] at h), fun h => ?_⟩
      rcases h with h | h
      · refine hAll fun x hx => ⟨hx, fun _ => ?_⟩
        rw [hEval] at hx
        have hBounds := Sentinels.bounds_of_mem_interval (by have := g.sentinels.posInf_pos; omega)
          (by have := pow2_pos t.width.toNat; have := g.sentinels.negInf_neg; omega)
          (mem_of_subset h hx)
        exact ⟨hBounds.1, by omega⟩
      · rw [hEval]
        exact h
    · refine ⟨fun _ => ?_, fun _ => hAll fun x hx => ⟨hx, fun hz => absurd hz hu⟩⟩
      cases u <;> trivial
  | sigma a bound =>
    rw [hk] at hAll
    exact ⟨fun _ => trivial, fun _ => hAll fun x hx => hx⟩
  | phi sources =>
    rw [hk] at hAll
    exact ⟨fun _ => trivial, fun _ => hAll fun x hx => hx⟩
  | binary f a c =>
    have hEval : g.eval op = evalBinary g.sentinels f (g.typeOf op.sink) (g.range a) (g.range c) := by
      rw [eval_of_max (hWhole (by simp [hk])), hk, evalKind]
    rw [hk] at hAll
    cases hf : f.corner? with
    | some corner =>
      simp only [hf] at hAll ⊢
      rw [evalBinary_of_corner hf, evalWrapping] at hEval
      split
      case isTrue hOver => rw [hEval, if_pos hOver]
      case isFalse hOver =>
        rw [if_neg hOver] at hEval
        refine ⟨fun h => .inr (hEval ▸ h), fun h => ?_⟩
        rcases h with h | h
        · refine hAll fun x hx => ?_
          rw [hEval] at hx
          exact ⟨hx, contains_of_mem_interval (mem_of_subset h hx)⟩
        · rw [hEval]
          exact h
    | none =>
      simp only [hf] at hAll ⊢
      by_cases hl : f = .lshr
      · subst hl
        refine ⟨fun h _ ha hc hu hv => ?_, fun h => ?_⟩
        · rw [hEval, evalBinary, lshr_of_unbounded (hr.range a) ha hc hu hv] at h
          exact eq_max_of_subset (hr.range op.sink) h
        · by_cases hCorner : (g.range a).isNonNegative = true ∧ (g.range c).isNonNegative = true ∧
              (g.range a).upperUnbounded = true ∧ (g.range c).upperUnbounded = true
          · rw [h rfl hCorner.1 hCorner.2.1 hCorner.2.2.1 hCorner.2.2.2]
            exact subset_max (hr.eval op)
          · refine hAll fun x hx => ⟨hx, fun _ ha hc => ?_⟩
            rw [hEval] at hx
            exact (lshr_nonneg (hr.range a) (hr.range c) ha hc (by
              by_contra hu
              simp only [not_or, Bool.not_eq_false] at hu
              exact hCorner ⟨ha, hc, hu⟩) hx)
      · exact ⟨fun _ hl' => absurd hl' hl, fun _ => hAll fun x hx => ⟨hx, fun hl' => absurd hl' hl⟩⟩

/-- An operation that leaves its type is settled if what it computes of its operands reaches both ends
of the type. -/
theorem eval_subset_of_ends (hr : Regular g) (hWhole : Whole g op)
    (hMem : ∀ x, Yields g op x → x ∈ g.range op.sink) {f : BinaryOp} {a b : NodeId} {c : Corner}
    (hk : op.kind = .binary f a b) (hf : f.corner? = some c)
    (hOver : (g.range a).overflows (g.range b) c (g.typeOf op.sink) = true)
    (hMin : (g.typeOf op.sink).minValue ∈ (g.range a).combine (g.range b) c)
    (hMax : (g.typeOf op.sink).maxValue ∈ (g.range a).combine (g.range b) c) :
    g.eval op ⊆ g.range op.sink := by
  have hEval : g.eval op =
      g.sentinels.interval (g.typeOf op.sink).minValue (g.typeOf op.sink).maxValue := by
    rw [eval_of_max (hWhole (by simp [hk])), hk, evalKind, evalBinary_of_corner hf, evalWrapping,
      if_pos hOver]
  refine subset_of_forall_mem (hr.eval op) fun x hx => hMem x ?_
  rw [hEval] at hx
  have hContains := contains_of_mem_interval hx
  unfold Yields
  simp only [hk, hf]
  exact ⟨⟨hMin.1, hMin.2.1.trans hContains.1, hContains.2.trans hMax.2.2⟩, hContains⟩

theorem Unsolved.whole_begun (hg : Unsolved g) (ho : (g.begun cs).ops[o]? = some op)
    (hk : ∀ n, op.kind ≠ .sigma n none) : op.intersect = (g.begun cs).sentinels.max := by
  rw [begun, sentinels_seed hg.started]
  exact hg.whole (ops_seed hg.started ▸ ho) hk

/-- After solving, the range of every sink holds what its operation yields, and it holds the whole
evaluation of the operation exactly if the operation is settled. Outside of loops it is the
evaluation. Of a sum, difference or product that leaves its type it holds the whole type whenever the
operands have results at both ends of the type. -/
theorem solve_settled {p : Program} (hp : p.Made) (hBuilt : Built p g)
    (hNarrowing : g.narrowing = .cousot ∨ g.narrowing = .crop) :
    ∃ g', solve.run.run g = (.ok (), g') ∧ ∀ (o : OpId) op, g'.ops[o]? = some op →
      (∀ x, Yields g' op x → x ∈ g'.range op.sink) ∧
      (g'.eval op ⊆ g'.range op.sink ↔ Settled g' op) ∧
      ((∀ n, (n ∈ op.kind.operands ∨ ∃ c, op.kind.bound? = some (n, c)) →
        ¬ Reach g'.successors op.sink n) → g'.range op.sink = g'.eval op) ∧
      ∀ (f : BinaryOp) a b c, op.kind = .binary f a b → f.corner? = some c →
        (g'.range a).overflows (g'.range b) c (g'.typeOf op.sink) = true →
        (g'.typeOf op.sink).minValue ∈ (g'.range a).combine (g'.range b) c →
        (g'.typeOf op.sink).maxValue ∈ (g'.range a).combine (g'.range b) c →
          g'.eval op ⊆ g'.range op.sink := by
  have hg := hBuilt.unsolved hp
  obtain ⟨m, hMeet, hm⟩ := exists_tight hNarrowing
  obtain ⟨cs, g', hStage, hProgress, hRun⟩ := hg.solve_run hm.toLawful hMeet
  refine ⟨_, hRun, fun o op ho => ?_⟩
  have hLast := hProgress.stage hStage
  have hRetains := hProgress.retains hStage hm hg.whole_begun
  have hNumber := hLast.layout.number_lt (hLast.layout.wired.sink_lt ho)
  have hMem (x : Int) (hy : Yields g' op x) : x ∈ g'.range op.sink := hRetains.mem ho hNumber hy
  have hExact := eval_subset_iff_settled (g := g') hLast.regular (hRetains.whole ho) hMem
  refine ⟨hMem, hExact, fun hNo => ?_, fun f a b c hk hf hOver hMin hMax => ?_⟩
  · exact hProgress.range_eq hStage hm ho (hLast.layout.ahead ho hNo) hNumber
  · exact eval_subset_of_ends (g := g') hLast.regular (hRetains.whole ho) hMem hk hf hOver hMin hMax

/-- The graph of the loop between the sentinels of its widest type. -/
def descending : Graph := (build Program.descending 0 ⟨.cousot, 0, false⟩).2

/-- The operations of the loop hold their evaluations if they are settled. -/
theorem descending_settled : ∃ g', solve.run.run descending = (.ok (), g') ∧
    ∀ (o : OpId) op, g'.ops[o]? = some op →
      (g'.eval op ⊆ g'.range op.sink ↔ Settled g' op) := by
  obtain ⟨g', hRun, hAll⟩ := solve_settled Program.descending_made
    ⟨⟨.cousot, 0, false⟩, .inl ⟨0, rfl⟩⟩ (.inl (by decide +kernel))
  exact ⟨g', hRun, fun o op ho => (hAll o op ho).2.1⟩

/-- The difference at the end of the loop leaves the type, but the range of its sink does not hold
the type, nor the evaluation. -/
theorem descending_unsettled :
    let g := (solve.run.run descending).2
    let op : Operation := ⟨1, .binary .sub 5 6, (Sentinels.ofWidth 9).max⟩
    (solve.run.run descending).1.isOk = true ∧ g.ops[3]? = some op ∧
      (g.range 5).overflows (g.range 6) Extended.sub (g.typeOf 1) = true ∧
      ¬ g.sentinels.interval (g.typeOf 1).minValue (g.typeOf 1).maxValue ⊆ g.range 1 ∧
      ¬ g.eval op ⊆ g.range 1 := by
  decide +kernel

end ValueRange.Graph
