import ValueRange.Proofs.Source.History

/-! Lowered functions pass the structural check: operands are values of the function, operations
have as many as they need, blocks end, and a sigma stands where only one block leads to. -/

namespace ValueRange.Source.Lowering

open Program (Regular)

variable {pkg : Package} {rules : Rules} {f : Func} {base : BlockId} {frame : Frame} {p : Program}
  {b d n : Nat} {v : Operand} {a : ValueId} {i : ValueRange.Instr} {ended : List Nat}

/-! ### Operands -/

/-- What stands for an operand is a value of the function. -/
theorem Rendered.holds (h : Rendered pkg rules f base ended frame p) (ha : Uses frame f v b a) :
    p.Holds frame.target a := by
  unfold Uses Frame.valueAt at ha
  split at ha
  case h_1 hFound =>
    obtain ⟨d, -, hd⟩ := List.exists_of_findSome?_eq_some hFound
    exact (h.held (hd.trans ha)).1
  case h_2 => exact (h.value ha).1.1

theorem exists_of_forall₂ {α β : Type} {R : α → β → Prop} {xs : List α} {ys : List β} {y : β}
    (h : List.Forall₂ R xs ys) (hy : y ∈ ys) : ∃ x ∈ xs, R x y := by
  induction h with
  | nil => cases hy
  | cons hR _ ih =>
    rcases List.mem_cons.mp hy with rfl | hy
    · exact ⟨_, List.mem_cons_self, hR⟩
    · obtain ⟨x, hx, hR⟩ := ih hy
      exact ⟨x, List.mem_cons_of_mem _ hx, hR⟩

/-- Operations get as many operands as they need. -/
theorem arity_of_form? (hf : f.Formed rules) {instr : Instr} {ty : IntType} {form : Form}
    (hInstr : f.instr? b n = some instr) (hForm : f.form? pkg rules b instr ty = some form)
    (hOp : i.op = form.op) (hArgs : i.args.length = form.consts.length + form.uses.length) :
    Program.arityProblem i = none ∧ i.op ≠ .sigma := by
  rw [Program.arityProblem, hOp]
  unfold Func.form? at hForm
  dsimp only at hForm
  split at hForm
  · obtain ⟨ops, -, rfl⟩ := Option.map_eq_some_iff.mp hForm
    exact ⟨if_pos hArgs, nofun⟩
  · split at hForm
    · cases hForm
      exact ⟨if_pos hArgs, nofun⟩
    · split at hForm
      · cases hForm
        exact ⟨if_pos hArgs, nofun⟩
      · cases hForm
  · cases hForm
    exact ⟨if_pos hArgs, nofun⟩
  · cases hForm
    exact ⟨if_pos hArgs, nofun⟩
  case h_5 hAction =>
    cases hForm
    obtain ⟨hLength, hPreds⟩ := hf.phi hInstr hAction
    refine ⟨if_neg fun hEmpty => hPreds ?_, nofun⟩
    rw [List.isEmpty_iff_length_eq_zero, hArgs, List.length_zip, hLength, Nat.min_self] at hEmpty
    exact List.length_eq_zero_iff.mp ((Nat.zero_add _).symm.trans hEmpty)
  · cases hForm
    exact ⟨rfl, nofun⟩
  · cases hForm

/-! ### Edges -/

/-- The blocks of a function that stands in a program are those of the program that it owns. -/
theorem Rendered.exists_block (h : Rendered pkg rules f base ended frame p) {c : BlockId}
    (hc : c ∈ (p.func frame.target).blocks) : ∃ k < f.blocks.size, c = base + k := by
  rw [h.lists] at hc
  obtain ⟨k, hk, hEq⟩ := Array.mem_iff_getElem.mp hc
  have hlt : k < f.blocks.size := h.size ▸ hk
  refine ⟨k, hlt, ?_⟩
  rw [← h.blocks hlt, Array.getD_eq_getD_getElem?, Array.getElem?_eq_getElem hk, hEq]
  rfl

/-- Only the block that compares leads to a block with sigmas. -/
theorem Rendered.preds (hf : f.Formed rules) (hp : Regular p)
    (h : Rendered pkg rules f base (List.range f.blocks.size) frame p) {q : Nat}
    (hPreds : (f.block d).preds = [q]) (hSucc : d ∈ (f.block q).succs)
    (hv : f.Compares rules q v) : (p.block (base + d)).preds = [base + q] := by
  have hTo : base + d ∈ (p.block (base + q)).succs := by
    have hq : q < f.blocks.size := hf.pred_lt (hPreds ▸ List.mem_cons_self)
    obtain ⟨u, hu, hEnds⟩ := h.term (List.mem_range.mpr hq)
    rw [hp.layout.paired.succs, List.mem_eraseDups, Program.targets, hu]
    exact hEnds.mem_successors hv hSucc
  -- an edge stays within its function, so it comes from one of these blocks
  have hFrom {c : BlockId} (hc : base + d ∈ (p.block c).succs) : c = base + q := by
    obtain ⟨u, hu, hTarget⟩ := hp.layout.paired.exists_term hc
    have hOwner : (p.block c).owner = frame.target :=
      (hp.enclosed c u hu _ hTarget).2.symm.trans (h.houses (Func.lt_of_preds hPreds)).2
    have hlt : c < p.blocks.size := Nat.not_le.mp fun hLe => by
      rw [Program.block_of_le hLe] at hu
      cases hu
    obtain ⟨k, hk, rfl⟩ := h.exists_block
      (Array.mem_of_getElem? (hOwner ▸ hp.layout.seated.stands hlt))
    obtain ⟨u', hu', hEnds⟩ := h.term (List.mem_range.mpr hk)
    cases hu.symm.trans hu'
    obtain ⟨d', hd', hEq⟩ := hEnds.exists_succ hTarget
    have hMem := hf.pred_of_succ (Nat.add_left_cancel hEq ▸ hd')
    rw [hPreds] at hMem
    rw [List.mem_singleton.mp hMem]
  refine List.perm_singleton.mp (List.perm_iff_count.mpr fun c => ?_)
  rw [hp.layout.paired.preds, List.count_singleton]
  by_cases hEq : c = base + q
  · rw [hEq, if_pos hTo, if_pos BEq.rfl]
  · rw [if_neg fun hc => hEq (hFrom hc), if_neg fun hc => hEq (beq_iff_eq.mp hc).symm]

/-! ### The check -/

theorem instrProblems_eq_nil {t : FuncId} {c : BlockId}
    (hArgs : ∀ a ∈ i.args, ∃ v, a = some v ∧ p.Holds t v)
    (hArity : Program.arityProblem i = none)
    (hSigma : i.op = .sigma → (p.block c).preds.length = 1) : p.instrProblems t c i = [] := by
  have hOperands : i.args.filterMap (p.operandProblem t i) = [] := by
    refine List.filterMap_eq_nil_iff.mpr fun a ha => ?_
    obtain ⟨v, rfl, hv⟩ := hArgs a ha
    exact if_pos hv.2
  have hPlace : p.sigmaProblem c i = none := if_neg fun h => h.2 (hSigma h.1)
  rw [Program.instrProblems, hOperands, hArity, hPlace]
  rfl

/-- The instructions of a function that stands in a program have no problems. -/
theorem Rendered.instrProblems (hf : f.Formed rules) (hp : Regular p)
    (h : Rendered pkg rules f base (List.range f.blocks.size) frame p) (hb : b < f.blocks.size)
    (hi : i ∈ (p.block (base + b)).instrs) : p.instrProblems frame.target (base + b) i = [] := by
  rcases h.kind hb hi with ⟨x, hx, ⟨v, hv⟩ | ⟨n, hn⟩⟩ | ⟨-, x, rfl⟩
  · obtain ⟨q, a, i', hPreds, hSucc, hCompares, hi', hx', hOp, hArgs, ha⟩ := h.sigma hv
    obtain rfl := (hp.eq_of_result hi hi' hx hx').2
    refine instrProblems_eq_nil (fun a' ha' => ?_) ?_ fun _ => ?_
    · rw [hArgs] at ha'
      exact ⟨a, List.mem_singleton.mp ha', h.holds ha⟩
    · rw [Program.arityProblem, hOp, hArgs]
      rfl
    · rw [h.preds hf hp hPreds hSucc hCompares]
      rfl
  · obtain ⟨ty, hTy⟩ := Option.isSome_iff_exists.mp (h.value hn).2
    cases hInstr : f.instr? b n with
    | none =>
      rw [typeOf?, Func.typeOf, hInstr] at hTy
      cases hTy
    | some instr =>
      obtain ⟨x', i', hn', hi', hx', hRenders⟩ := h.result hInstr hTy
      cases hn.symm.trans hn'
      obtain rfl := (hp.eq_of_result hi hi' hx hx').2
      rcases hRenders with ⟨form, cs, as, hForm, hOp, hArgs, hConsts, hUses⟩ | ⟨hOp, hArgs, -⟩
      · have hLength : i.args.length = form.consts.length + form.uses.length := by
          rw [hArgs, List.length_map, List.length_append, hConsts.length_eq, hUses.length_eq]
        obtain ⟨hArity, hNot⟩ := arity_of_form? hf hInstr hForm hOp hLength
        refine instrProblems_eq_nil (fun a ha => ?_) hArity fun hSigma => absurd hSigma hNot
        rw [hArgs] at ha
        obtain ⟨a, hMem, rfl⟩ := List.mem_map.mp ha
        refine ⟨a, rfl, ?_⟩
        rcases List.mem_append.mp hMem with ha | ha
        · obtain ⟨n, -, hConst⟩ := exists_of_forall₂ hConsts ha
          exact hp.layout.seated.value hConst.mem
        · obtain ⟨u, -, v, -, hUse⟩ := exists_of_forall₂ hUses ha
          exact h.holds hUse
      · refine instrProblems_eq_nil (fun a ha => ?_) ?_ fun hSigma => ?_
        · rw [hArgs] at ha
          cases ha
        · rw [Program.arityProblem, hOp]
        · cases hOp.symm.trans hSigma
  · refine instrProblems_eq_nil (fun a ha => ?_) rfl fun hSigma => ?_
    · cases ha
    · cases hSigma

theorem Rendered.blockProblems (hf : f.Formed rules) (hp : Regular p)
    (h : Rendered pkg rules f base (List.range f.blocks.size) frame p) (hb : b < f.blocks.size) :
    p.blockProblems frame.target (base + b) = [] := by
  obtain ⟨u, hu, hEnds⟩ := h.term (List.mem_range.mpr hb)
  have hTerm : Program.termProblem (base + b) (some u) = none := by cases hEnds <;> rfl
  have hInstrs := List.flatMap_eq_nil_iff.mpr fun i hi =>
    h.instrProblems hf hp hb (Array.mem_toList_iff.mp hi)
  rw [Program.blockProblems, hu, hInstrs, hTerm]
  rfl

theorem Rendered.check (hf : f.Formed rules) (hp : Regular p)
    (h : Rendered pkg rules f base (List.range f.blocks.size) frame p) :
    p.check frame.target = none := by
  have hProblems : p.problems frame.target = [] := by
    have hBlocks : (p.func frame.target).blocks.toList.isEmpty = false := by
      rw [h.lists, List.isEmpty_eq_false_iff, ← List.length_pos_iff, Array.length_toList, h.size]
      exact hf.entry
    rw [Program.problems, hBlocks]
    refine List.flatMap_eq_nil_iff.mpr fun c hc => ?_
    obtain ⟨k, hk, rfl⟩ := h.exists_block (Array.mem_toList_iff.mp hc)
    exact h.blockProblems hf hp hk
  rw [Program.check, hProblems]

/-- Whatever else is declared and lowered, before or after it, a lowered function passes the check.
-/
theorem History.check_eq_none {frames : List Frame} {s : Lowering}
    (h : History pkg rules frames s) (hFrame : frame ∈ frames) :
    s.declared.lookup frame.source = some frame.target ∧ s.program.check frame.target = none := by
  have hSound := h.sound
  obtain ⟨base, hRendered⟩ := hSound.rendered hFrame
  exact ⟨hSound.declared hFrame, hRendered.check (hSound.formed hFrame) hSound.regular⟩

theorem bounded_check : ∃ frame, (Package.lower ⟨#[bounded]⟩ boundedRules).frames = [frame] ∧
    (Package.lower ⟨#[bounded]⟩ boundedRules).program.check frame.target = none := by
  obtain ⟨s, frame, hProgram, hFrames, -, hHistory⟩ := bounded_history
  exact ⟨frame, hFrames, hProgram ▸ (hHistory.check_eq_none List.mem_cons_self).2⟩

end ValueRange.Source.Lowering
