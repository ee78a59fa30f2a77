import ValueRange.Proofs.Source.Dominance
import ValueRange.Source.Lowering

/-! What functions in static single assignment form guarantee, and what their instructions compute:
an operation on integers that are written out and on operands, each used in a block. Nothing here
knows of sigmas. -/

namespace ValueRange

/-- Replaces the operands of a terminator. -/
def Terminator.mapOperands (g : ValueId → ValueId) : Terminator → Terminator
  | .test pred x y yes no => .test pred (x.map g) (y.map g) yes no
  | .switch on cases otherwise => .switch (on.map g) cases otherwise
  | .ret results => .ret (results.map (Option.map g))
  | t => t

namespace Source

open Lowering

/-- The operand is the result of an instruction of the function, or an operand of one. -/
def Func.Mentions (f : Func) (v : Operand) : Prop :=
  ∃ b n instr, f.instr? b n = some instr ∧ (v = .result b n ∨ some v ∈ instr.operands)

/-- The operands of a comparison. -/
def Instr.compared? (instr : Instr) : Option (Operand × Operand) :=
  match instr.action, instr.operands with
  | .binary token, [some x, some y] =>
    if (comparisons.lookup token).isSome then some (x, y) else none
  | _, _ => none

/-- What holds of functions with a body. A jump leads to one block; a phi has one operand for each
predecessor of its block, of which there are some; what is compared has one type; and integers have
bits. -/
structure Func.Formed (f : Func) (rules : Rules) : Prop extends f.Connected where
  entry : 0 < f.blocks.size
  jump {b : Nat} {instr : Instr} : f.last? b = some instr → instr.action = .jump →
    (f.block b).succs.length = 1
  phi {b n : Nat} {instr : Instr} : f.instr? b n = some instr → instr.action = .phi →
    instr.operands.length = (f.block b).preds.length ∧ (f.block b).preds ≠ []
  compared {b n : Nat} {instr : Instr} {x y : Operand} : f.instr? b n = some instr →
    instr.compared? = some (x, y) → f.typeOf x = f.typeOf y
  bits {v : Operand} {ty : IntType} : f.Mentions v → typeOf? rules f v = some ty →
    ty.isInteger = true

/-- What is asked of the instruction that is at place `n` of block `b`. -/
def Func.FormedAt (f : Func) (rules : Rules) (b n : Nat) (instr : Instr) : Prop :=
  (instr.action = .phi →
    instr.operands.length = (f.block b).preds.length ∧ (f.block b).preds ≠ []) ∧
  (∀ compared ∈ instr.compared?, f.typeOf compared.1 = f.typeOf compared.2) ∧
  ∀ v ∈ Operand.result b n :: instr.operands.filterMap id, ∀ ty ∈ typeOf? rules f v,
    ty.isInteger = true

instance (f : Func) (rules : Rules) (b n : Nat) (instr : Instr) :
    Decidable (f.FormedAt rules b n instr) := inferInstanceAs (Decidable (_ ∧ _ ∧ _))

/-- Only the blocks and instructions that there are need to be looked at. -/
theorem Func.formed_iff {f : Func} {rules : Rules} : f.Formed rules ↔
    0 < f.blocks.size ∧ ∀ b < f.blocks.size,
      (∀ c ∈ (f.block b).succs, c < f.blocks.size ∧ b ∈ (f.block c).preds) ∧
      (∀ c ∈ (f.block b).preds, c < f.blocks.size) ∧
      (∀ instr ∈ f.last? b, instr.action = .jump → (f.block b).succs.length = 1) ∧
      ∀ n < (f.block b).instrs.size, ∀ instr ∈ f.instr? b n, f.FormedAt rules b n instr := by
  have hMentions {b n : Nat} {instr : Instr} {v : Operand} :
      v ∈ Operand.result b n :: instr.operands.filterMap id ↔
        v = .result b n ∨ some v ∈ instr.operands := by
    rw [List.mem_cons, List.mem_filterMap]
    exact or_congr Iff.rfl ⟨fun ⟨_, h, hv⟩ => hv ▸ h, fun h => ⟨some v, h, rfl⟩⟩
  constructor
  · intro h
    refine ⟨h.entry, fun b hb => ⟨fun c hc => ⟨h.succ_lt hc, h.pred_of_succ hc⟩,
      fun c hc => h.pred_lt hc, fun instr hLast => h.jump hLast, fun n hn instr hInstr =>
        ⟨h.phi hInstr, fun compared hCompared => h.compared hInstr hCompared, fun v hv ty hTy =>
          h.bits ⟨b, n, instr, hInstr, hMentions.mp hv⟩ hTy⟩⟩⟩
  · rintro ⟨hEntry, h⟩
    have hAt {b n : Nat} {instr : Instr} (hInstr : f.instr? b n = some instr) :=
      (h b (Func.lt_of_instr? hInstr).1).2.2.2 n (Func.lt_of_instr? hInstr).2 instr hInstr
    refine ⟨⟨fun hc => ?_, fun hc => ?_, fun hc => ?_⟩, hEntry, fun hLast => ?_,
      fun hInstr => (hAt hInstr).1, fun hInstr hCompared => (hAt hInstr).2.1 _ hCompared, ?_⟩
    · exact ((h _ (Func.lt_of_mem_succs hc)).1 _ hc).1
    · exact (h _ (Func.lt_of_mem_preds hc)).2.1 _ hc
    · exact ((h _ (Func.lt_of_mem_succs hc)).1 _ hc).2
    · exact (h _ (Func.lt_of_last? hLast)).2.2.1 _ hLast
    · rintro v ty ⟨b, n, instr, hInstr, hv⟩ hTy
      exact (hAt hInstr).2.2 v (hMentions.mpr hv) ty hTy

instance (f : Func) (rules : Rules) : Decidable (f.Formed rules) :=
  decidable_of_iff' _ Func.formed_iff

/-- An operation on integers and then on operands in blocks. An operand may be missing. -/
structure Form where
  op : Opcode
  consts : List Int
  uses : List (Option Operand × Nat)

/-- The operands of an operation whose integers are the values `cs`. -/
def Form.slots (form : Form) (cs : List ValueId) : List Slot :=
  cs.map .fixed ++ form.uses.map fun u => .use u.1 u.2

/-- What an instruction of block `b` with a result of type `ty` computes, if that is modelled. An
operand of a phi is used in the predecessor that it comes from. -/
def Func.form? (pkg : Package) (rules : Rules) (f : Func) (b : Nat) (instr : Instr) (ty : IntType) :
    Option Form :=
  let use (n : Nat) : Option Operand × Nat := ((instr.operands[n]?).join, b)
  match instr.action with
  | .binary token => (arithmetic.lookup token).map fun (signed, unsigned) =>
    ⟨.binary (if ty.unsigned then unsigned else signed), [], [use 0, use 1]⟩
  | .unary token =>
    if token = "-" ∧ !ty.unsigned then some ⟨.binary .sub, [0], [use 0]⟩
    else if token = "^" then
      some ⟨.binary .sub, [if ty.unsigned then ty.maxValue else -1], [use 0]⟩
    else none
  | .convert => some ⟨.unary .cast, [], [use 0]⟩
  | .retype => some ⟨.unary .copy, [], [use 0]⟩
  | .phi => some ⟨.phi, [], instr.operands.zip (f.block b).preds⟩
  | .call _ none (some callee) =>
    let passed := ((pkg.func callee).params.zip (instr.operands.drop 1)).filter fun (p, _) =>
      (p.type.integer? rules.platform).isSome
    some ⟨.call, [], passed.map fun (_, arg) => (arg, b)⟩
  | _ => none

/-- An instruction of a program renders a form: it is the operation on its integers, which `Const`
gives as values, and on its operands, which `Use` gives in their blocks. Where there is no form, or
an operand is no integer, it is unknown. -/
def Renders (rules : Rules) (f : Func) (Const : Int → ValueId → Prop)
    (Use : Operand → Nat → ValueId → Prop) (form : Option Form) (i : ValueRange.Instr) : Prop :=
  (∃ g cs as, form = some g ∧ i.op = g.op ∧ i.args = (cs ++ as).map some ∧
    List.Forall₂ Const g.consts cs ∧
    List.Forall₂ (fun u a => ∃ v, u.1 = some v ∧ Use v u.2 a) g.uses as) ∨
  i.op = .unknown ∧ i.args = [] ∧ ∀ g, form = some g →
    ∃ u ∈ g.uses, ∀ v, u.1 = some v → typeOf? rules f v = none

/-- How a block ends, if `Use` gives the values of operands in blocks and `place` the blocks of the
program. A jump and a branch that is not on a comparison of integers lead to the successors; what
ends in neither returns its operand, if that is the only one and an integer. -/
inductive Ends (rules : Rules) (f : Func) (Use : Operand → Nat → ValueId → Prop)
    (place : Nat → BlockId) (b : Nat) : Terminator → Prop
  | jump {instr : Instr} {c : Nat} (hLast : f.last? b = some instr)
      (hAction : instr.action = .jump) (hSuccs : (f.block b).succs = [c]) :
      Ends rules f Use place b (.jump (place c))
  | branch {instr : Instr} (hLast : f.last? b = some instr) (hAction : instr.action = .test)
      (hComparison : comparison? rules f b = none) :
      Ends rules f Use place b (.branch ((f.block b).succs.map place))
  | test {c : Comparison} {x y : Operand} {yes no : Nat} {u v : ValueId}
      (hComparison : comparison? rules f b = some (c, x, y))
      (hSuccs : (f.block b).succs = [yes, no]) (hx : Use x b u) (hy : Use y b v) :
      Ends rules f Use place b (.test (.known c) (some u) (some v) (place yes) (place no))
  | value {instr : Instr} {position : Option String} {v : Operand} {u : ValueId}
      (hLast : f.last? b = some instr) (hAction : instr.action = .ret position)
      (hOperands : instr.operands = [some v]) (hv : Use v b u) :
      Ends rules f Use place b (.ret [some u])
  | exit (hLast : ∀ instr, f.last? b = some instr → instr.action ≠ .jump ∧ instr.action ≠ .test ∧
      ∀ position v, instr.action = .ret position → instr.operands = [some v] →
        typeOf? rules f v = none) :
      Ends rules f Use place b (.ret [])

/-- The block branches on a comparison of the operand with another, and the operand is no constant.
-/
def Func.Compares (f : Func) (rules : Rules) (b : Nat) (v : Operand) : Prop :=
  (∃ c x y, comparison? rules f b = some (c, x, y) ∧ (v = x ∨ v = y)) ∧ ∀ ty n, v ≠ .const ty n

section

variable {pkg : Package} {rules : Rules} {f : Func} {b n : Nat} {instr : Instr} {ty : IntType}
  {form : Form} {v x y : Operand} {c : Comparison}

section Mono

variable {Const Const' : Int → ValueId → Prop} {Use Use' : Operand → Nat → ValueId → Prop}
  {place place' : Nat → BlockId} {i : ValueRange.Instr} {t : Terminator}

/-- What is said of the values of operands may be said of what they are replaced by. -/
theorem Renders.map {form : Option Form} (g : ValueId → ValueId)
    (h : Renders rules f Const Use form i) (hConst : ∀ {n x}, Const n x → Const' n (g x))
    (hUse : ∀ {k u v a}, form = some k → u ∈ k.uses → u.1 = some v → Use v u.2 a →
      Use' v u.2 (g a)) :
    Renders rules f Const' Use' form { i with args := i.args.map (Option.map g) } := by
  rcases h with ⟨k, cs, as, hForm, hOp, hArgs, hConsts, hUses⟩ | ⟨hOp, hArgs, hNot⟩
  · refine .inl ⟨k, cs.map g, as.map g, hForm, hOp, ?_, ?_, ?_⟩
    · simp only [hArgs, List.map_append, List.map_map]
      rfl
    · exact List.forall₂_map_right_iff.mpr (hConsts.imp fun _ _ => hConst)
    · obtain ⟨hLength, hZip⟩ := List.forall₂_iff_zip.mp hUses
      refine List.forall₂_map_right_iff.mpr (List.forall₂_iff_zip.mpr ⟨hLength, fun hMem => ?_⟩)
      obtain ⟨v, hv, hUse'⟩ := hZip hMem
      exact ⟨v, hv, hUse hForm (List.of_mem_zip hMem).1 hv hUse'⟩
  · exact .inr ⟨hOp, by rw [hArgs]; rfl, hNot⟩

theorem Renders.mono {form : Option Form} (h : Renders rules f Const Use form i)
    (hConst : ∀ {n x}, Const n x → Const' n x)
    (hUse : ∀ {k u v a}, form = some k → u ∈ k.uses → u.1 = some v → Use v u.2 a →
      Use' v u.2 a) : Renders rules f Const' Use' form i := by
  have hSame := h.map id hConst hUse
  rwa [Option.map_id, List.map_id] at hSame

theorem Ends.map (g : ValueId → ValueId) (h : Ends rules f Use place b t)
    (hPlace : ∀ c ∈ (f.block b).succs, place c = place' c)
    (hUse : ∀ {v a}, Use v b a → Use' v b (g a)) :
    Ends rules f Use' place' b (t.mapOperands g) := by
  cases h with
  | jump hLast hAction hSuccs =>
    rw [hPlace _ (hSuccs ▸ List.mem_cons_self)]
    exact .jump hLast hAction hSuccs
  | branch hLast hAction hComparison =>
    rw [List.map_congr_left hPlace]
    exact .branch hLast hAction hComparison
  | test hComparison hSuccs hx hy =>
    rw [hPlace _ (hSuccs ▸ List.mem_cons_self),
      hPlace _ (hSuccs ▸ List.mem_cons_of_mem _ List.mem_cons_self)]
    exact .test hComparison hSuccs (hUse hx) (hUse hy)
  | value hLast hAction hOperands hv => exact .value hLast hAction hOperands (hUse hv)
  | exit hLast => exact .exit hLast

theorem Ends.mono (h : Ends rules f Use place b t)
    (hPlace : ∀ c ∈ (f.block b).succs, place c = place' c)
    (hUse : ∀ {v a}, Use v b a → Use' v b a) : Ends rules f Use' place' b t := by
  have hSame := h.map id hPlace hUse
  cases t <;> simpa [Terminator.mapOperands] using hSame

/-- A block ends in a jump to its successors. -/
theorem Ends.exists_succ (h : Ends rules f Use place b t) {c : BlockId} (hc : c ∈ t.successors) :
    ∃ d ∈ (f.block b).succs, c = place d := by
  cases h with
  | jump _ _ hSuccs =>
    exact ⟨_, hSuccs ▸ List.mem_cons_self, List.mem_singleton.mp hc⟩
  | branch =>
    obtain ⟨d, hd, rfl⟩ := List.mem_map.mp hc
    exact ⟨d, hd, rfl⟩
  | test _ hSuccs =>
    rcases List.mem_cons.mp hc with rfl | hc
    · exact ⟨_, hSuccs ▸ List.mem_cons_self, rfl⟩
    · exact ⟨_, hSuccs ▸ List.mem_cons_of_mem _ List.mem_cons_self, List.mem_singleton.mp hc⟩
  | value => cases hc
  | exit => cases hc

end Mono

theorem mem_of_join {operands : List (Option Operand)} (h : (operands[n]?).join = some v) :
    some v ∈ operands :=
  List.mem_of_getElem? (Option.join_eq_some_iff.mp h)

/-- What is computed is computed from the operands of the instruction, in its block or, for a phi,
in the predecessors. -/
theorem Func.mem_of_form? (h : f.form? pkg rules b instr ty = some form) {u : Option Operand × Nat}
    (hu : u ∈ form.uses) : (∀ v, u.1 = some v → some v ∈ instr.operands) ∧
      (u.2 = b ∨ u.2 ∈ (f.block b).preds) := by
  have hUse {k : Nat} (hu : u = ((instr.operands[k]?).join, b)) :
      (∀ v, u.1 = some v → some v ∈ instr.operands) ∧ (u.2 = b ∨ u.2 ∈ (f.block b).preds) := by
    rw [hu]
    exact ⟨fun v hv => mem_of_join hv, .inl rfl⟩
  unfold form? at h
  dsimp only at h
  split at h
  · obtain ⟨ops, -, rfl⟩ := Option.map_eq_some_iff.mp h
    rcases List.mem_cons.mp hu with hu | hu
    · exact hUse hu
    · exact hUse (List.mem_singleton.mp hu)
  · split at h
    · cases h
      exact hUse (List.mem_singleton.mp hu)
    · split at h
      · cases h
        exact hUse (List.mem_singleton.mp hu)
      · cases h
  · cases h
    exact hUse (List.mem_singleton.mp hu)
  · cases h
    exact hUse (List.mem_singleton.mp hu)
  · cases h
    obtain ⟨h₁, h₂⟩ := List.of_mem_zip hu
    exact ⟨fun v hv => hv ▸ h₁, .inr h₂⟩
  · cases h
    obtain ⟨⟨p, arg⟩, hMem, rfl⟩ := List.mem_map.mp hu
    have hArg := (List.of_mem_zip (List.mem_filter.mp hMem).1).2
    refine ⟨fun v hv => ?_, .inl rfl⟩
    rw [show arg = some v from hv] at hArg
    exact List.mem_of_mem_drop hArg
  · cases h

/-- What a comparison at the end of a block tells about the function. -/
theorem comparison?_eq_some (h : comparison? rules f b = some (c, x, y)) :
    (∃ yes no, (f.block b).succs = [yes, no] ∧ yes ≠ no) ∧
      (∃ instr, f.last? b = some instr ∧ instr.action = .test) ∧
      (typeOf? rules f x).isSome ∧
      ∃ cb ci instr, f.instr? cb ci = some instr ∧ instr.operands = [some x, some y] ∧
        instr.compared? = some (x, y) := by
  unfold comparison? at h
  split at h
  case h_2 => cases h
  case h_1 cb ci yes no hLast hSuccs =>
    split at h
    · cases h
    case isFalse hne =>
      split at h
      case h_2 => cases h
      case h_1 token _ _ x' y' hInstr =>
        split at h
        case h_2 => cases h
        case h_1 c' ty' hToken hType =>
          cases h
          refine ⟨⟨yes, no, hSuccs, hne⟩, ⟨_, hLast, rfl⟩, ?_, cb, ci, _, hInstr, rfl, ?_⟩
          · rw [hType]; rfl
          · exact if_pos (Option.isSome_of_eq_some hToken)

/-- A block that branches on a comparison leads to all its successors. -/
theorem Ends.mem_successors {Use : Operand → Nat → ValueId → Prop} {place : Nat → BlockId}
    {u : Terminator} (h : Ends rules f Use place b u) (hv : f.Compares rules b v) {d : Nat}
    (hd : d ∈ (f.block b).succs) : place d ∈ u.successors := by
  obtain ⟨⟨c, x, y, hComparison, -⟩, -⟩ := hv
  obtain ⟨-, ⟨instr, hLast, hTest⟩, -⟩ := comparison?_eq_some hComparison
  cases h with
  | jump hLast' hJump =>
    cases hLast.symm.trans hLast'
    cases hTest.symm.trans hJump
  | branch => exact List.mem_map_of_mem hd
  | test _ hSuccs =>
    rw [hSuccs] at hd
    exact List.mem_map_of_mem hd
  | value hLast' hRet =>
    cases hLast.symm.trans hLast'
    cases hTest.symm.trans hRet
  | exit hNone => exact absurd hTest (hNone instr hLast).2.1

/-- Both compared operands are integers of the function. -/
theorem Func.Formed.isSome_of_compares (hf : f.Formed rules) (h : f.Compares rules b v) :
    f.Mentions v ∧ (typeOf? rules f v).isSome := by
  obtain ⟨⟨c, x, y, hComparison, hv⟩, -⟩ := h
  obtain ⟨-, -, hType, cb, ci, instr, hInstr, hOperands, hCompared⟩ :=
    comparison?_eq_some hComparison
  have hSame := hf.compared hInstr hCompared
  rcases hv with rfl | rfl
  · exact ⟨⟨cb, ci, instr, hInstr, .inr (hOperands ▸ List.mem_cons_self)⟩, hType⟩
  · refine ⟨⟨cb, ci, instr, hInstr, .inr ?_⟩, ?_⟩
    · exact hOperands ▸ List.mem_cons_of_mem _ List.mem_cons_self
    · rw [typeOf?, ← hSame]
      exact hType

end

end Source

end ValueRange
