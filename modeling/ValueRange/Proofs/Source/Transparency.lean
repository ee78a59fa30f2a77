import ValueRange.Proofs.Source.Validity

/-! Sigmas are transparent. An operand of a lowered function is the value of the function's operand,
or the sigma of it in the nearest dominator that has one. Whoever follows sigmas comes to the value,
and without sigmas the lowered function has the operands of the function. -/

namespace ValueRange

/-- What an instruction passes on, if it is a sigma. -/
def Instr.passed? : Instr → Option ValueId
  | ⟨.sigma, _, [some a], _⟩ => some a
  | _ => none

theorem Instr.passed?_of_sigma {i : Instr} {a : ValueId} (hOp : i.op = .sigma)
    (hArgs : i.args = [some a]) : i.passed? = some a := by
  obtain ⟨op, result, args, callee⟩ := i
  cases hOp
  cases hArgs
  rfl

namespace Program

/-- What the sigma that defines a value passes on. -/
def passed? (p : Program) (x : ValueId) : Option ValueId :=
  ((p.value x).site.bind p.instr?).bind Instr.passed?

/-- The value behind at most so many sigmas. -/
def behind (p : Program) : Nat → ValueId → ValueId
  | 0, x => x
  | steps + 1, x =>
    match p.passed? x with
    | some a => behind p steps a
    | none => x

variable {p : Program} {b : BlockId} {i : Instr} {x : ValueId}

theorem passed?_of_mem (hp : Regular p) (hi : i ∈ (p.block b).instrs) (hx : i.result = some x) :
    p.passed? x = i.passed? := by
  obtain ⟨k, hSite⟩ := hp.exists_site hi hx
  obtain ⟨i', hi', hx'⟩ := hp.exists_of_site hSite
  obtain rfl := (hp.eq_of_result (Array.mem_of_getElem? hi') hi hx' hx).2
  rw [passed?, hSite, Option.bind_some, hi', Option.bind_some]

theorem behind_of_passed?_none (h : p.passed? x = none) (steps : Nat) : p.behind steps x = x := by
  cases steps with
  | zero => rfl
  | succ steps => rw [behind, h]

end Program

namespace Source.Lowering

open Program (Regular)

variable {pkg : Package} {rules : Rules} {f : Func} {base : BlockId} {frame : Frame} {p : Program}
  {b n : Nat} {v : Operand} {a x : ValueId} {ended : List Nat}

/-- A plain value is behind no sigma. -/
theorem Plain.passed? {t : FuncId} (h : Plain p t x) (hp : Regular p) : p.passed? x = none := by
  cases hSite : (p.value x).site with
  | none => rw [Program.passed?, hSite]; rfl
  | some site =>
    obtain ⟨i, hi, hx⟩ := hp.exists_of_site hSite
    have hMem := Array.mem_of_getElem? hi
    rw [Program.passed?_of_mem hp hMem hx]
    unfold Instr.passed?
    split
    · exact absurd rfl (h.2 _ _ hMem hx)
    · rfl

/-- How the value `a` stands for the operand `v` in block `b`: it is the value of the operand, if no
dominator has a sigma of it, or else the sigma in the nearest dominator that has one. Whoever
follows sigmas from it comes to the value of the operand, which is no sigma. -/
structure Stands (f : Func) (frame : Frame) (p : Program) (v : Operand) (b : Nat) (a : ValueId) :
    Prop where
  nearest :
    (frame.values.lookup v = some a ∧ ∀ d, f.Dominates d b → frame.sigmas.lookup (d, v) = none) ∨
    ∃ d, f.Dominates d b ∧ frame.sigmas.lookup (d, v) = some a ∧
      ∀ c, f.StrictlyDominates d c → f.Dominates c b → frame.sigmas.lookup (c, v) = none
  value : frame.values.lookup v = some (p.behind f.blocks.size a)
  plain : p.passed? (p.behind f.blocks.size a) = none

section Chains

variable (hf : f.Formed rules) (hTree : f.DominatorTree) (hp : Regular p)
  (h : Rendered pkg rules f base ended frame p)
include hf hTree hp h

/-- A sigma passes on what stands for its operand in the only predecessor of its block, which is
nearer to the entry. So the way through sigmas is at most as long as there are dominators. -/
theorem Rendered.behind (hb : b < f.blocks.size) (ha : Uses frame f v b a) {steps : Nat}
    (hSteps : f.depth b ≤ steps) : frame.values.lookup v = some (p.behind steps a) ∧
      p.passed? (p.behind steps a) = none := by
  -- on the number of steps; each sigma on the way stands in a block with fewer dominators
  induction steps generalizing b a with
  | zero => exact absurd hSteps (Nat.not_le.mpr (Func.depth_pos hb))
  | succ steps ih =>
    unfold Uses Frame.valueAt at ha
    split at ha
    case h_1 x hFound =>
      cases ha
      obtain ⟨d, hd, hSigma, -⟩ := Func.exists_nearest hf.toConnected hTree hb hFound
      obtain ⟨q, a', i, hPreds, -, -, hi, hx, hOp, hArgs, ha'⟩ := h.sigma hSigma
      have hlt := (Func.strictlyDominates_of_preds hf.toConnected hTree
        (Func.lt_of_preds hPreds) hPreds).depth_lt hTree (Func.lt_of_preds hPreds)
      rw [Program.behind, Program.passed?_of_mem hp hi hx, Instr.passed?_of_sigma hOp hArgs]
      exact ih (hf.pred_lt (hPreds ▸ List.mem_cons_self)) ha' (Nat.le_of_lt_succ
        (Nat.lt_of_lt_of_le hlt (Nat.le_trans (Func.depth_le_depth hd) hSteps)))
    case h_2 =>
      have hPassed := (h.value ha).1.passed? hp
      rw [Program.behind_of_passed?_none hPassed]
      exact ⟨ha, hPassed⟩

theorem Rendered.stands (hb : b < f.blocks.size) (ha : Uses frame f v b a) :
    Stands f frame p v b a := by
  obtain ⟨hValue, hPlain⟩ := h.behind hf hTree hp hb ha (Func.depth_le f b)
  refine ⟨?_, hValue, hPlain⟩
  unfold Uses Frame.valueAt at ha
  split at ha
  case h_1 x hFound =>
    cases ha
    exact .inr (Func.exists_nearest hf.toConnected hTree hb hFound)
  case h_2 hNone =>
    exact .inl ⟨ha, fun d hd =>
      Func.eq_none_of_dominates hf.toConnected hTree hb (Func.depth_le f b) hNone hd⟩

end Chains

/-- Sigmas only tell where a value is used. They stand where a branch on a comparison alone leads
to. What stands for an operand does so in the way of `Stands`: wherever it is asked for, as the
operand of a sigma, as that of an instruction and as that of the end of a block, and these are all
operands there are. If what is behind the sigmas takes their place, the instructions and the ends
are those of the function with its own values. -/
structure Transparent (pkg : Package) (rules : Rules) (f : Func) (frame : Frame) (p : Program) :
    Prop where
  blocks : (p.func frame.target).blocks = frame.blocks ∧ frame.blocks.size = f.blocks.size
  stands {v : Operand} {b : Nat} {a : ValueId} : b < f.blocks.size →
    frame.valueAt f v b = some a → Stands f frame p v b a
  sigma {d : Nat} {v : Operand} {x : ValueId} : frame.sigmas.lookup (d, v) = some x →
    ∃ q a i, (f.block d).preds = [q] ∧ d ∈ (f.block q).succs ∧ f.Compares rules q v ∧
      i ∈ (p.block (frame.blocks.getD d 0)).instrs ∧ i.result = some x ∧ i.op = .sigma ∧
      i.args = [some a] ∧ Stands f frame p v q a
  placed {q d : Nat} {v : Operand} : q < f.blocks.size → d ∈ (f.block q).succs →
    (f.block d).preds.length = 1 → f.Compares rules q v → (frame.sigmas.lookup (d, v)).isSome
  result {b n : Nat} {instr : Instr} {ty : IntType} : f.instr? b n = some instr →
    typeOf? rules f (.result b n) = some ty → ∃ x i, frame.values.lookup (.result b n) = some x ∧
      i ∈ (p.block (frame.blocks.getD b 0)).instrs ∧ i.result = some x ∧
      Renders rules f (p.IsConstant frame.target ty) (Stands f frame p)
        (f.form? pkg rules b instr ty) i ∧
      Renders rules f (p.IsConstant frame.target ty) (fun v _ a => frame.values.lookup v = some a)
        (f.form? pkg rules b instr ty)
        { i with args := i.args.map (Option.map (p.behind f.blocks.size)) }
  term {b : Nat} : b < f.blocks.size → ∃ u, (p.block (frame.blocks.getD b 0)).term = some u ∧
    Ends rules f (Stands f frame p) (frame.blocks.getD · 0) b u ∧
    Ends rules f (fun v _ a => frame.values.lookup v = some a) (frame.blocks.getD · 0) b
      (u.mapOperands (p.behind f.blocks.size))
  only {b : Nat} {i : ValueRange.Instr} : b < f.blocks.size →
    i ∈ (p.block (frame.blocks.getD b 0)).instrs → Kind frame b i ∨ i.op = .unknown ∧ i.args = []

theorem Rendered.transparent (hf : f.Formed rules) (hTree : f.DominatorTree) (hp : Regular p)
    (h : Rendered pkg rules f base (List.range f.blocks.size) frame p) :
    Transparent pkg rules f frame p := by
  have hStands {v : Operand} {b : Nat} {a : ValueId} (hb : b < f.blocks.size)
      (ha : Uses frame f v b a) : Stands f frame p v b a := h.stands hf hTree hp hb ha
  refine ⟨⟨h.lists, h.size⟩, hStands, fun {d v x} hx => ?_, fun hq hd hOne hv =>
    h.placed _ (List.mem_range.mpr hq) _ hd hOne _ hv, fun {b n instr ty} hInstr hTy => ?_,
    fun {b} hb => ?_, fun {b i} hb hi => ?_⟩
  · obtain ⟨q, a, i, hPreds, hSucc, hCompares, hi, hResult, hOp, hArgs, ha⟩ := h.sigma hx
    rw [← h.blocks (Func.lt_of_preds hPreds)] at hi
    exact ⟨q, a, i, hPreds, hSucc, hCompares, hi, hResult, hOp, hArgs,
      hStands (hf.pred_lt (hPreds ▸ List.mem_cons_self)) ha⟩
  · obtain ⟨x, i, hx, hi, hResult, hRenders⟩ := h.result hInstr hTy
    have hb := (Func.lt_of_instr? hInstr).1
    rw [← h.blocks hb] at hi
    have hSelf : Renders rules f (p.IsConstant frame.target ty) (Stands f frame p) _ i :=
      hRenders.mono id fun hForm hu _ ha =>
        hStands ((Func.mem_of_form? hForm hu).2.elim (· ▸ hb) hf.pred_lt) ha
    refine ⟨x, i, hx, hi, hResult, hSelf, hSelf.map _ (fun hConst => ?_)
      fun _ _ _ ha => ha.value⟩
    rw [Program.behind_of_passed?_none ((plain_of_isConstant hp hConst).passed? hp)]
    exact hConst
  · obtain ⟨u, hu, hEnds⟩ := h.term (List.mem_range.mpr hb)
    rw [← h.blocks hb] at hu
    have hPlace (c : Nat) (hc : c ∈ (f.block b).succs) : base + c = frame.blocks.getD c 0 :=
      (h.blocks (hf.succ_lt hc)).symm
    have hEnds := hEnds.mono hPlace (hStands hb)
    exact ⟨u, hu, hEnds, hEnds.map _ (fun _ _ => rfl) fun ha => ha.value⟩
  · rw [h.blocks hb] at hi
    refine (h.kind hb hi).imp_right ?_
    rintro ⟨-, x, rfl⟩
    exact ⟨rfl, rfl⟩

/-- Lowering is transparent, whatever else is declared and lowered before or after. -/
theorem History.sigmas_transparent {frames : List Frame} {s : Lowering}
    (h : History pkg rules frames s) (hFrame : frame ∈ frames)
    (hTree : (pkg.func frame.source).DominatorTree) :
    Transparent pkg rules (pkg.func frame.source) frame s.program := by
  have hSound := h.sound
  obtain ⟨base, hRendered⟩ := hSound.rendered hFrame
  exact hRendered.transparent (hSound.formed hFrame) hTree hSound.regular

theorem bounded_transparent : ∃ frame, (Package.lower ⟨#[bounded]⟩ boundedRules).frames = [frame] ∧
    Transparent ⟨#[bounded]⟩ boundedRules bounded frame
      (Package.lower ⟨#[bounded]⟩ boundedRules).program := by
  obtain ⟨s, frame, hProgram, hFrames, hSource, hHistory⟩ := bounded_history
  have hTransparent := hHistory.sigmas_transparent List.mem_cons_self
    (hSource ▸ dominatorTree_bounded)
  rw [hSource, hProgram] at hTransparent
  exact ⟨frame, hFrames, hTransparent⟩

end Source.Lowering

end ValueRange
