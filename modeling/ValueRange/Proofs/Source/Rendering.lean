import ValueRange.Proofs.Source.Drafting

/-! The second half of lowering a function: operands are resolved, and blocks get their ends. In the
program that results, the function stands as it does in the package, but for sigmas. Lowering
further functions does not change that. -/

namespace ValueRange.Source.Lowering

open Program (Regular Extends Writes Quiet)

variable {pkg : Package} {rules : Rules} {f : Func} {t : FuncId} {base : BlockId}
  {s s' s'' : Lowering} {v : Operand} {x : ValueId} {b n : Nat} {done : List (Nat × Nat)}
  {todo : List Pending} {instr : Instr} {ty : IntType}

/-! ### Operands -/

/-- Of what is pending in `s₀`, the part that is ready has been resolved. -/
structure Resolved (rules : Rules) (f : Func) (t : FuncId) (base : BlockId) (s₀ : Lowering)
    (ready : List Pending) (s : Lowering) : Prop where
  working : Working rules f t base s
  settles : Settles t base (fun x => ∃ r ∈ ready, r.result = x) s₀ s
  outcome {r : Pending} {k : Nat} {op : Opcode} {callee : Option FuncId} : r ∈ ready →
    ⟨op, some r.result, [], callee⟩ ∈ (s₀.program.block (base + k)).instrs →
    ∃ i ∈ (s.program.block (base + k)).instrs, i.result = some r.result ∧
      Outcome rules f s.frame op r.slots i

theorem settleAll_ensures (hEntry : 0 < f.blocks.size) (h : Draft pkg rules f t base done todo s) :
    Ensures s (forIn todo PUnit.unit fun r _ => do
      settle rules f r
      pure (ForInStep.yield PUnit.unit)) fun _ s' => Resolved rules f t base s todo s' := by
  refine Ensures.forIn (I := fun ready s' => Resolved rules f t base s ready s')
    ⟨h.working, .refl t base _ s, nofun⟩ ?_
  rintro ready r rest s₁ hSplit hReady
  have hr : r ∈ todo := hSplit ▸ List.mem_append_right ready List.mem_cons_self
  have hBelow (x : ValueId) (hx : ∃ r' ∈ ready ++ [r], r'.result = x) :
      x < s.program.values.size := by
    obtain ⟨r', hr', rfl⟩ := hx
    refine h.below ?_
    rw [hSplit, List.append_cons]
    exact List.mem_append_left rest hr'
  -- no result stands twice in the list, so what is ready is not changed again
  have hOther {r' : Pending} (hr' : r' ∈ ready) : r'.result ≠ r.result := by
    have hIncreasing := h.increasing
    rw [hSplit] at hIncreasing
    exact Nat.ne_of_lt ((List.pairwise_append.mp hIncreasing).2.2 r' hr' r List.mem_cons_self)
  obtain ⟨k, op, callee, hi⟩ := h.awaits hr
  have hi₁ := hReady.settles.writes.kept hi rfl fun ⟨r', hr', hEq⟩ => hOther hr' hEq
  refine (settle_ensures hReady.working hEntry (fun v b => h.integers hr) hi₁).bind ?_
  rintro _ s₂ ⟨hWork, hSettles, i, hMem, hResult, hOutcome⟩
  refine .pure ⟨rfl, hWork, ?_, fun {r' k' op' callee'} hr' hi' => ?_⟩
  · refine (hReady.settles.mono ?_).trans (hSettles.mono ?_) hBelow
    · rintro x ⟨r', hr', hEq⟩
      exact ⟨r', List.mem_append_left _ hr', hEq⟩
    · rintro x rfl
      exact ⟨r, List.mem_append_right _ List.mem_cons_self, rfl⟩
  · rcases List.mem_append.mp hr' with hr' | hr'
    · obtain ⟨j, hj, hResult', hOutcome'⟩ := hReady.outcome hr' hi'
      exact ⟨j, hSettles.writes.kept hj hResult' (hOther hr'), hResult', hOutcome'.mono hSettles⟩
    · obtain rfl := List.mem_singleton.mp hr'
      obtain ⟨hk, hEq⟩ := h.working.regular.eq_of_result hi' hi rfl rfl
      cases hEq
      exact ⟨i, hk ▸ hMem, hResult, hOutcome⟩

/-- Values that were there first take their own places. -/
theorem exists_of_fixed {frame : Frame} {cs as : List ValueId} {slots : List Slot}
    (h : List.Forall₂ (Slot.Is frame f) (cs.map .fixed ++ slots) as) :
    ∃ as', as = cs ++ as' ∧ List.Forall₂ (Slot.Is frame f) slots as' := by
  induction cs generalizing as with
  | nil => exact ⟨as, rfl, h⟩
  | cons c cs ih =>
    cases h with
    | cons hc hRest =>
      obtain ⟨as', rfl, hSlots⟩ := ih hRest
      cases hc
      exact ⟨as', rfl, hSlots⟩

/-- The value stands for the operand in the block. -/
def Uses (frame : Frame) (f : Func) (v : Operand) (b : Nat) (a : ValueId) : Prop :=
  frame.valueAt f v b = some a

theorem renders_of_outcome {frame : Frame} {form : Form} {Const : Int → ValueId → Prop}
    {cs : List ValueId} {i : ValueRange.Instr} (hConsts : List.Forall₂ Const form.consts cs)
    (h : Outcome rules f frame form.op (form.slots cs) i) :
    Renders rules f Const (Uses frame f) (some form) i := by
  rcases h with ⟨as, hSlots, hOp, hArgs⟩ | ⟨⟨slot, hSlot, hNot⟩, hOp, hArgs⟩
  · obtain ⟨as, rfl, hUses⟩ := exists_of_fixed hSlots
    exact .inl ⟨form, cs, as, rfl, hOp, hArgs, hConsts, List.forall₂_map_left_iff.mp hUses⟩
  · refine .inr ⟨hOp, hArgs, fun g hg => ?_⟩
    cases hg
    rcases List.mem_append.mp hSlot with hFixed | hUse
    · obtain ⟨c, -, rfl⟩ := List.mem_map.mp hFixed
      exact absurd trivial hNot
    · obtain ⟨u, hu, rfl⟩ := List.mem_map.mp hUse
      refine ⟨u, hu, fun v hv => ?_⟩
      cases hType : typeOf? rules f v with
      | none => rfl
      | some ty => exact absurd ⟨v, hv, Option.isSome_of_eq_some hType⟩ hNot

/-! ### Functions in programs -/

/-- The function `f` stands in the program as the frame says, with blocks from `base` on, and the
blocks in `ended` have their ends. -/
structure Rendered (pkg : Package) (rules : Rules) (f : Func) (base : BlockId) (ended : List Nat)
    (frame : Frame) (p : Program) : Prop where
  size : frame.blocks.size = f.blocks.size
  blocks {k : Nat} : k < f.blocks.size → frame.blocks.getD k 0 = base + k
  lists : (p.func frame.target).blocks = frame.blocks
  houses {k : Nat} : k < f.blocks.size → p.Houses frame.target (base + k)
  value {v : Operand} {x : ValueId} : frame.values.lookup v = some x →
    Plain p frame.target x ∧ (typeOf? rules f v).isSome
  held {d : Nat} {v : Operand} {x : ValueId} : frame.sigmas.lookup (d, v) = some x →
    p.Holds frame.target x ∧ (typeOf? rules f v).isSome
  kind {k : Nat} {i : ValueRange.Instr} : k < f.blocks.size →
    i ∈ (p.block (base + k)).instrs → Kind frame k i ∨ k = 0 ∧ ∃ x, i = ⟨.unknown, some x, [], none⟩
  sigma {d : Nat} {v : Operand} {x : ValueId} : frame.sigmas.lookup (d, v) = some x →
    ∃ q a i, (f.block d).preds = [q] ∧ d ∈ (f.block q).succs ∧ f.Compares rules q v ∧
      i ∈ (p.block (base + d)).instrs ∧ i.result = some x ∧ i.op = .sigma ∧ i.args = [some a] ∧
      Uses frame f v q a
  placed : Placed rules f frame (List.range f.blocks.size)
  result {b n : Nat} {instr : Instr} {ty : IntType} : f.instr? b n = some instr →
    typeOf? rules f (.result b n) = some ty → ∃ x i, frame.values.lookup (.result b n) = some x ∧
      i ∈ (p.block (base + b)).instrs ∧ i.result = some x ∧
      Renders rules f (p.IsConstant frame.target ty) (Uses frame f)
        (f.form? pkg rules b instr ty) i
  term {b : Nat} : b ∈ ended → ∃ u, (p.block (base + b)).term = some u ∧
    Ends rules f (Uses frame f) (base + ·) b u

/-- What is resolved stands as it does in the function. -/
theorem Resolved.rendered {s₀ : Lowering}
    (hDraft : Draft pkg rules f t base ((List.range f.blocks.size).flatMap fun b =>
      (List.range (f.block b).instrs.size).map (b, ·)) todo s₀)
    (hPlaced : Placed rules f s₀.frame (List.range f.blocks.size))
    (h : Resolved rules f t base s₀ todo s) :
    Rendered pkg rules f base [] s.frame s.program := by
  obtain ⟨hWork, hSettles, hOutcome⟩ := h
  have hTarget := hWork.target
  refine ⟨hWork.size, hWork.blocks, hTarget ▸ hWork.lists, hTarget ▸ hWork.houses,
    hTarget ▸ hWork.value, hTarget ▸ hWork.sigma, fun {k i} hk hi => ?_, fun {d v x} hx => ?_,
    ?_, fun {b n instr ty} hInstr hTy => ?_, nofun⟩
  · -- an instruction was drafted, made while operands were resolved, or changed then
    rcases hSettles.writes.origin hi with
      hOld | ⟨_, _, _, hb, hUnknown⟩ | ⟨y, hy, -, i', hi', hy'⟩
    · exact .inl ((hDraft.kind hk hOld).onward hSettles.toOnward)
    · exact .inr ⟨Nat.add_left_cancel (hb.trans (Nat.add_zero base).symm), hUnknown⟩
    · obtain ⟨y', hy'', hKind⟩ := (hDraft.kind hk hi').onward hSettles.toOnward
      cases hy'.symm.trans hy''
      exact .inl ⟨y, hy, hKind⟩
  · rw [hSettles.sigmas] at hx
    obtain ⟨q, hPreds, hSucc, hCompares, hTodo, hi⟩ := hDraft.sigma hx
    obtain ⟨i, hMem, hResult, hOut⟩ := hOutcome hTodo hi
    rcases hOut with ⟨as, hSlots, hOp, hArgs⟩ | ⟨⟨slot, hSlot, hNot⟩, -⟩
    · cases hSlots with
      | cons ha hNil =>
        cases hNil
        obtain ⟨w, hw, ha⟩ := ha
        cases hw
        exact ⟨q, _, i, hPreds, hSucc, hCompares, hMem, hResult, hOp, hArgs, ha⟩
    · -- what is compared is an integer, so a sigma never becomes unknown
      cases List.mem_singleton.mp hSlot
      exact absurd ⟨v, rfl, (hDraft.working.sigma hx).2⟩ hNot
  · rw [Placed, hSettles.sigmas]
    exact hPlaced
  · have hDone : (b, n) ∈ (List.range f.blocks.size).flatMap fun b =>
        (List.range (f.block b).instrs.size).map (b, ·) := by
      obtain ⟨hb, hn⟩ := Func.lt_of_instr? hInstr
      exact List.mem_flatMap.mpr ⟨b, List.mem_range.mpr hb,
        List.mem_map_of_mem (List.mem_range.mpr hn)⟩
    obtain ⟨x, hx, hPlanned⟩ := hDraft.result hDone hInstr hTy
    rcases hPlanned with ⟨form, cs, callee, hForm, hConsts, hTodo, hi⟩ | ⟨hi, hNot, hForm⟩
    · obtain ⟨i, hMem, hResult, hOut⟩ := hOutcome hTodo hi
      refine ⟨x, i, hSettles.value hx, hMem, hResult, ?_⟩
      rw [hForm, hTarget]
      exact renders_of_outcome (hConsts.imp fun _ _ hConst =>
        hSettles.program.constant hDraft.working.regular hConst) hOut
    · refine ⟨x, _, hSettles.value hx, hSettles.writes.kept hi rfl ?_, rfl, .inr ⟨rfl, rfl, hForm⟩⟩
      rintro ⟨r, hr, hEq⟩
      exact hNot r hr hEq

/-! ### What keeps a function as it stands -/

section Carry

variable {ended ended' : List Nat} {frame : Frame} {p p' : Program}

/-- A function stands also in a program in which its blocks have the same instructions. -/
theorem Rendered.carry {t' : FuncId} {base' : BlockId} (h : Rendered pkg rules f base ended frame p)
    (hp : Regular p) (hExt : Extends t' base' p p')
    (hLists : (p'.func frame.target).blocks = (p.func frame.target).blocks)
    (hInstrs : ∀ k < f.blocks.size, (p'.block (base + k)).instrs = (p.block (base + k)).instrs)
    (hTerm : ∀ b ∈ ended', ∃ u, (p'.block (base + b)).term = some u ∧
      Ends rules f (Uses frame f) (base + ·) b u) : Rendered pkg rules f base ended' frame p' where
  size := h.size
  blocks := h.blocks
  lists := hLists.trans h.lists
  houses hk := hExt.houses (h.houses hk)
  value hx := ⟨(h.value hx).1.extends hExt, (h.value hx).2⟩
  held hx := ⟨hExt.holds (h.held hx).1, (h.held hx).2⟩
  kind {k i} hk hi := h.kind hk (hInstrs k hk ▸ hi)
  sigma hx := by
    obtain ⟨q, a, i, hPreds, hSucc, hCompares, hi, hRest⟩ := h.sigma hx
    rw [← hInstrs _ (Func.lt_of_preds hPreds)] at hi
    exact ⟨q, a, i, hPreds, hSucc, hCompares, hi, hRest⟩
  placed := h.placed
  result hInstr hTy := by
    obtain ⟨x, i, hx, hi, hResult, hRenders⟩ := h.result hInstr hTy
    rw [← hInstrs _ (Func.lt_of_instr? hInstr).1] at hi
    exact ⟨x, i, hx, hi, hResult, hRenders.mono (hExt.constant hp) fun _ _ _ => id⟩
  term := hTerm _

/-- Resolving further operands does not change how a function stands. -/
theorem Rendered.settles (h : Rendered pkg rules f base ended s.frame s.program)
    (hp : Regular s.program) (hWork : Working rules f t base s')
    (hSettles : Settles t base (fun _ => False) s s') :
    Rendered pkg rules f base ended s'.frame s'.program := by
  have hTarget := hWork.target
  refine ⟨hWork.size, hWork.blocks, hTarget ▸ hWork.lists, hTarget ▸ hWork.houses,
    hTarget ▸ hWork.value, hTarget ▸ hWork.sigma, fun {k i} hk hi => ?_, fun {d v x} hx => ?_,
    ?_, fun {b n instr ty} hInstr hTy => ?_, fun {b} hb => ?_⟩
  · rcases hSettles.writes.origin hi with hOld | ⟨_, _, _, hb, hUnknown⟩ | ⟨_, _, hFalse, _⟩
    · exact (h.kind hk hOld).imp_left fun hKind => hKind.onward hSettles.toOnward
    · exact .inr ⟨Nat.add_left_cancel (hb.trans (Nat.add_zero base).symm), hUnknown⟩
    · exact hFalse.elim
  · rw [hSettles.sigmas] at hx
    obtain ⟨q, a, i, hPreds, hSucc, hCompares, hi, hResult, hOp, hArgs, ha⟩ := h.sigma hx
    exact ⟨q, a, i, hPreds, hSucc, hCompares, hSettles.writes.kept hi hResult id, hResult, hOp,
      hArgs, hSettles.valueAt ha⟩
  · rw [Placed, hSettles.sigmas]
    exact h.placed
  · obtain ⟨x, i, hx, hi, hResult, hRenders⟩ := h.result hInstr hTy
    refine ⟨x, i, hSettles.value hx, hSettles.writes.kept hi hResult id, hResult,
      hRenders.mono ?_ fun _ _ _ => hSettles.valueAt⟩
    rw [hSettles.target]
    exact hSettles.program.constant hp
  · obtain ⟨u, hu, hEnds⟩ := h.term hb
    exact ⟨u, (hSettles.writes.term _).trans hu, hEnds.mono (fun _ _ => rfl) hSettles.valueAt⟩

end Carry

/-! ### Ends of blocks -/

theorem blocksOf_ensures (hs : Working rules f t base s) {places : List Nat}
    (hPlaces : ∀ c ∈ places, c < f.blocks.size) :
    Ensures s (places.mapM blockOf) fun r s' => r = places.map (base + ·) ∧ s' = s := by
  refine Ensures.mapM (I := fun done r s' => r = done.map (base + ·) ∧ s' = s) ⟨rfl, rfl⟩ ?_
  rintro done c rest r _ hSplit ⟨rfl, rfl⟩
  refine ⟨?_, rfl⟩
  rw [List.map_append]
  have hc := hPlaces c (hSplit ▸ List.mem_append_right done List.mem_cons_self)
  exact congrArg (done.map (base + ·) ++ [·]) (hs.blocks hc)

theorem mentions_of_last? (h : f.last? b = some instr) (hv : some v ∈ instr.operands) :
    f.Mentions v := by
  rw [Func.last?, Array.back?] at h
  exact ⟨b, _, instr, h, .inr hv⟩

theorem resolve_uses (hf : f.Formed rules) (hs : Working rules f t base s) (hv : f.Mentions v)
    (hType : (typeOf? rules f v).isSome) (b : Nat) :
    Ensures s (resolve rules f v b) fun r s' => ∃ a, r = some a ∧ Working rules f t base s' ∧
      Settles t base (fun _ => False) s s' ∧ Uses s'.frame f v b a := by
  refine (resolve_ensures hs hf.entry (fun ty => hf.bits hv) b).mono ?_
  rintro r s' ⟨hWork, hSettles, hValue, hNone⟩
  cases r with
  | none =>
    rw [hNone.mp rfl] at hType
    cases hType
  | some a => exact ⟨a, rfl, hWork, hSettles, hValue.symm⟩

theorem terminator_ensures (hf : f.Formed rules) (hs : Working rules f t base s) (b : Nat) :
    Ensures s (terminator rules f b) fun u s' => Working rules f t base s' ∧
      Settles t base (fun _ => False) s s' ∧ Ends rules f (Uses s'.frame f) (base + ·) b u := by
  unfold terminator
  refine (blocksOf_ensures hs fun c hc => hf.succ_lt hc).bind ?_
  rintro _ _ ⟨rfl, rfl⟩
  split
  case h_1 hLast =>
    obtain ⟨c, hc⟩ := List.length_eq_one_iff.mp (hf.jump hLast rfl)
    refine .pure ⟨hs, .refl t base _ _, ?_⟩
    rw [hc]
    exact .jump hLast rfl hc
  case h_2 hLast =>
    cases hComparison : comparison? rules f b with
    | none => exact .pure ⟨hs, .refl t base _ _, .branch hLast rfl hComparison⟩
    | some comparison =>
      obtain ⟨c, x, y⟩ := comparison
      obtain ⟨⟨yes, no, hSuccs, -⟩, -, hx, cb, ci, instr, hInstr, hOperands, hCompared⟩ :=
        comparison?_eq_some hComparison
      have hMentions {v : Operand} (hv : some v ∈ instr.operands) : f.Mentions v :=
        ⟨cb, ci, instr, hInstr, .inr hv⟩
      have hy : (typeOf? rules f y).isSome := by
        rw [typeOf?, ← hf.compared hInstr hCompared]
        exact hx
      refine (resolve_uses hf hs (hMentions (hOperands ▸ List.mem_cons_self)) hx b).bind ?_
      rintro _ s₁ ⟨u, rfl, hWork₁, hSettles₁, hUse₁⟩
      refine (resolve_uses hf hWork₁
        (hMentions (hOperands ▸ List.mem_cons_of_mem _ List.mem_cons_self)) hy b).bind ?_
      rintro _ s₂ ⟨v, rfl, hWork₂, hSettles₂, hUse₂⟩
      refine .pure ⟨hWork₂, hSettles₁.trans hSettles₂ fun _ => False.elim, ?_⟩
      rw [hSuccs]
      exact .test hComparison hSuccs (hSettles₂.valueAt hUse₁) hUse₂
  case h_3 result hLast =>
    refine (resolve_ensures hs hf.entry (fun ty => hf.bits
      (mentions_of_last? hLast List.mem_cons_self)) b).bind ?_
    rintro r s' ⟨hWork, hSettles, hValue, hNone⟩
    cases r with
    | some a => exact .pure ⟨hWork, hSettles, .value hLast rfl rfl hValue.symm⟩
    | none =>
      refine .pure ⟨hWork, hSettles, .exit fun instr hInstr => ?_⟩
      cases hLast.symm.trans hInstr
      refine ⟨fun hJump => ?_, fun hTest => ?_, fun position v _ hOperands => ?_⟩
      · cases hJump
      · cases hTest
      · cases hOperands
        exact hNone.mp rfl
  case h_4 hJump hTest hRet =>
    refine .pure ⟨hs, .refl t base _ _, .exit fun instr hLast => ?_⟩
    obtain ⟨action, name, type, operands⟩ := instr
    refine ⟨?_, ?_, ?_⟩
    · rintro rfl
      exact hJump _ _ _ hLast
    · rintro rfl
      exact hTest _ _ _ hLast
    · rintro position v rfl rfl
      exact (hRet _ _ _ _ hLast).elim

/-- A block without an end gets the one that it has in the function. -/
theorem Rendered.terminate {ended : List Nat} (hf : f.Formed rules)
    (h : Rendered pkg rules f base ended s.frame s.program) (hs : Working rules f t base s)
    (hb : b < f.blocks.size) {u : Terminator} (hEnds : Ends rules f (Uses s.frame f) (base + ·) b u)
    (hOpen : (s.program.block (base + b)).term = none) :
    Extends t base s.program (s.program.terminate (base + b) u) ∧
      Rendered pkg rules f base (ended ++ [b]) s.frame (s.program.terminate (base + b) u) := by
  have hHouses := hs.houses hb
  have hTargets (c : BlockId) (hc : c ∈ u.successors) : s.program.Houses t c ∧ base ≤ c := by
    obtain ⟨d, hd, rfl⟩ := hEnds.exists_succ hc
    exact ⟨hs.houses (hf.succ_lt hd), Nat.le_add_right base d⟩
  have hExt : Extends t base s.program (s.program.terminate (base + b) u) :=
    Program.extends_terminate hHouses (Nat.le_add_right base b) hTargets hOpen
  refine ⟨hExt, h.carry hs.regular hExt (Program.lists_terminate ..)
    (fun k _ => Program.instrs_terminate ..) fun c hc => ?_⟩
  rw [Program.term_terminate]
  by_cases hEq : b = c
  · exact ⟨u, if_pos ⟨congrArg (base + ·) hEq, hEq ▸ hHouses.1⟩, hEq ▸ hEnds⟩
  · obtain ⟨u', hu', hEnds'⟩ := h.term ((List.mem_append.mp hc).resolve_right fun hc =>
      hEq (List.mem_singleton.mp hc).symm)
    exact ⟨u', (if_neg fun hc => hEq (Nat.add_left_cancel hc.1)).trans hu', hEnds'⟩

/-- All blocks get their ends. -/
theorem terminateAll_ensures (hf : f.Formed rules) (hs : Working rules f t base s)
    (h : Rendered pkg rules f base [] s.frame s.program)
    (hOpen : ∀ b < f.blocks.size, (s.program.block (base + b)).term = none) :
    Ensures s (forIn (List.range f.blocks.size) PUnit.unit fun b _ => do
      let u ← terminator rules f b
      let block ← blockOf b
      edit (Program.terminate block u)
      pure (ForInStep.yield PUnit.unit)) fun _ s' => Working rules f t base s' ∧
        Onward t base s s' ∧
        Rendered pkg rules f base (List.range f.blocks.size) s'.frame s'.program := by
  refine (Ensures.forIn (I := fun ended s' => Working rules f t base s' ∧ Onward t base s s' ∧
    Rendered pkg rules f base ended s'.frame s'.program ∧ ∀ b < f.blocks.size, b ∉ ended →
      (s'.program.block (base + b)).term = none)
    ⟨hs, .refl t base s, h, fun b hb _ => hOpen b hb⟩ ?_).mono
    fun _ _ ⟨hWork, hOnward, hDone, _⟩ => ⟨hWork, hOnward, hDone⟩
  rintro ended b rest s₁ hSplit ⟨hWork₁, hOnward₁, hDone₁, hOpen₁⟩
  have hb : b < f.blocks.size :=
    List.mem_range.mp (hSplit ▸ List.mem_append_right ended List.mem_cons_self)
  have hNew : b ∉ ended := by
    have hNodup := List.nodup_range (n := f.blocks.size)
    rw [hSplit] at hNodup
    exact fun hMem => (List.nodup_middle.mp hNodup).notMem (List.mem_append_left _ hMem)
  refine (terminator_ensures hf hWork₁ b).bind ?_
  rintro u s₂ ⟨hWork₂, hSettles, hEnds⟩
  have hOpen₂ (c : Nat) (hc : c < f.blocks.size) (hNot : c ∉ ended) :
      (s₂.program.block (base + c)).term = none :=
    (hSettles.writes.term _).trans (hOpen₁ c hc hNot)
  obtain ⟨hExt, hDone⟩ := (hDone₁.settles hWork₁.regular hWork₂ hSettles).terminate hf hWork₂ hb
    hEnds (hOpen₂ b hb hNew)
  obtain ⟨hWork₃, hOnward₃⟩ := hWork₂.edit hExt (Program.lists_terminate ..)
  refine .blockOf_bind (.edit_bind (.pure ⟨rfl, ?_⟩))
  rw [hWork₂.blocks hb]
  refine ⟨hWork₃, (hOnward₁.trans hSettles.toOnward).trans hOnward₃, hDone, fun c hc hNot => ?_⟩
  rw [List.mem_append, not_or] at hNot
  rw [Program.term_terminate, if_neg]
  · exact hOpen₂ c hc hNot.1
  · exact fun h => hNot.2 (List.mem_singleton.mpr (Nat.add_left_cancel h.1).symm)

end ValueRange.Source.Lowering
