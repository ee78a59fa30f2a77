import Mathlib.Data.List.Nodup
import ValueRange.Proofs.Source.Form
import ValueRange.Proofs.Source.Resolution

/-! The first half of lowering a function: the sigmas at the start of blocks and the instructions
are added without operands. What is still to be resolved is kept in a list, in which every result
stands once. -/

namespace ValueRange.Source.Lowering

open Program (Regular Extends Writes Quiet)

variable {pkg : Package} {rules : Rules} {f : Func} {t : FuncId} {base : BlockId}
  {s s' s'' : Lowering} {v : Operand} {x : ValueId} {b : Nat}

/-! ### Declarations -/

/-- A declared function has no blocks yet, and the state is otherwise the same. -/
structure Declared (t : FuncId) (base : BlockId) (s s' : Lowering) : Prop
    extends Onward t base s s' where
  frame : s'.frame = s.frame
  quiet : Quiet s.program s'.program
  declares : Declares s → Declares s'

theorem Declared.refl (t : FuncId) (base : BlockId) (s : Lowering) : Declared t base s s :=
  ⟨.refl t base s, rfl, .refl _ _ _, id⟩

/-- A new function is declared. -/
theorem Declared.cons {p' : Program} (hExt : Extends t base s.program p')
    (hQuiet : Quiet s.program p') {i : Nat} {g : FuncId} (hNone : s.declared.lookup i = none)
    (hNew : s.program.functions.size ≤ g) (hg : g < p'.functions.size) :
    Declared t base s { s with program := p', declared := (i, g) :: s.declared } := by
  refine ⟨⟨hExt, rfl, rfl, rfl, id, id, lookup_cons_of_none hNone, fun {j h} hj => ?_⟩, rfl, hQuiet,
    fun hd => ⟨fun {j h} hj => ?_, fun {j k h} hj hk => ?_⟩⟩
  · rcases of_lookup_cons hj with ⟨-, rfl⟩ | hOld
    · exact .inr hNew
    · exact .inl hOld
  · rcases of_lookup_cons hj with ⟨-, rfl⟩ | hOld
    · exact hg
    · exact Nat.lt_of_lt_of_le (hd.lt hOld) hExt.functions
  · have hBelow {j : Nat} (hj : s.declared.lookup j = some g) : False :=
      Nat.not_lt.mpr hNew (hd.lt hj)
    rcases of_lookup_cons hj with ⟨rfl, rfl⟩ | hOld
    · exact (of_lookup_cons hk).elim (fun h => h.1.symm) fun hOld' => (hBelow hOld').elim
    · rcases of_lookup_cons hk with ⟨rfl, rfl⟩ | hOld'
      · exact (hBelow hOld).elim
      · exact hd.inj hOld hOld'

theorem declare_ensures (t : FuncId) (base : BlockId) (hp : Regular s.program) (i : Nat) :
    Ensures s (declare pkg rules i) fun g s' =>
      Declared t base s s' ∧ s'.declared.lookup i = some g := by
  unfold declare
  refine .get_bind ?_
  cases hLookup : s.declared.lookup i with
  | some g => exact .pure ⟨.refl t base s, hLookup⟩
  | none =>
    have hFunction := Program.extends_addFunction t base hp.home (pkg.func i).name
    have hSize : s.program.functions.size <
        ((Program.addFunction 0 (pkg.func i).name).run s.program).2.functions.size :=
      Nat.lt_of_lt_of_eq (Nat.lt_succ_self _) (Array.size_push _).symm
    have hExternal := Program.extends_setExternal t base hSize
      (!(pkg.func i).hasBody || rules.isExternal i)
    refine .extend_bind (.edit_bind ?_)
    -- while the parameters are added, only the program changes
    refine Ensures.bind (Ensures.forIn (I := fun _ s' => ∃ p', s' = { s with program := p' } ∧
        Extends t base s.program p' ∧ Quiet s.program p' ∧
        s.program.functions.size < p'.functions.size)
      ⟨_, rfl, hFunction.trans hExternal, (Program.quiet_addFunction _ _).trans
        (Program.quiet_setExternal _ _ _) nofun,
        Nat.lt_of_lt_of_le hSize hExternal.functions⟩ ?_) ?_
    · rintro done q rest _ - ⟨p₁, rfl, hExt₁, hQuiet₁, hg₁⟩
      split
      case h_1 ty _ =>
        have hParam := Program.extends_addParam t base hg₁ q.name ty (some (.ofType ty))
        exact ⟨rfl, _, rfl, hExt₁.trans hParam,
          hQuiet₁.trans (Program.quiet_addParam p₁ _ q.name ty _) nofun,
          Nat.lt_of_lt_of_le hg₁ hParam.functions⟩
      case h_2 => exact ⟨rfl, p₁, rfl, hExt₁, hQuiet₁, hg₁⟩
    · rintro _ _ ⟨p', rfl, hExt, hQuiet, hg⟩
      exact ⟨.cons hExt hQuiet hLookup (Nat.le_refl _) hg, List.lookup_cons_self⟩

/-! ### Results -/

/-- One instruction is added to a block, and its result is recorded for an operand. -/
structure Adds (rules : Rules) (f : Func) (t : FuncId) (base : BlockId) (v : Operand) (b : Nat)
    (i : ValueRange.Instr) (x : ValueId) (s s' : Lowering) : Prop extends Onward t base s s' where
  working : Working rules f t base s'
  writes : Writes (fun _ => False) (fun c j => c = base + b ∧ j = i) s.program s'.program
  mem : i ∈ (s'.program.block (base + b)).instrs
  result : i.result = some x
  fresh : s.program.values.size ≤ x
  values : s'.frame.values = (v, x) :: s.frame.values
  sigmas : s'.frame.sigmas = s.frame.sigmas

section Adds

variable {i : ValueRange.Instr}

theorem Adds.of_quiet (hOnward : Onward t base s s') (hQuiet : Quiet s.program s'.program)
    (hFrame : s'.frame = s.frame) (h : Adds rules f t base v b i x s' s'') :
    Adds rules f t base v b i x s s'' where
  toOnward := hOnward.trans h.toOnward
  working := h.working
  writes := hQuiet.writes.trans h.writes nofun
  mem := h.mem
  result := h.result
  fresh := Nat.le_trans hQuiet.values h.fresh
  values := hFrame ▸ h.values
  sigmas := hFrame ▸ h.sigmas

theorem Adds.quiet (h : Adds rules f t base v b i x s s') (hOnward : Onward t base s' s'')
    (hQuiet : Quiet s'.program s''.program) (hFrame : s''.frame = s'.frame)
    (hDeclares : Declares s'') : Adds rules f t base v b i x s s'' where
  toOnward := h.toOnward.trans hOnward
  working := h.working.onward hOnward (hQuiet.lists t) hDeclares (fun _ _ hx => .inl (hFrame ▸ hx))
    fun _ _ _ hx => .inl (hFrame ▸ hx)
  writes := h.writes.trans hQuiet.writes nofun
  mem := hQuiet.kept h.mem h.result id
  result := h.result
  fresh := h.fresh
  values := hFrame ▸ h.values
  sigmas := hFrame ▸ h.sigmas

/-- The instruction that is added may still be changed. -/
theorem Adds.editInstr_ensures (hp : Regular s.program) (h : Adds rules f t base v b i x s s')
    (change : ValueRange.Instr → ValueRange.Instr)
    (hResult : ∀ i, (change i).result = i.result)
    (hOp : ∀ i, (change i).op = .sigma → i.op = .sigma) :
    Ensures s' (editInstr x change) fun _ s'' => Adds rules f t base v b (change i) x s s'' := by
  refine (Lowering.editInstr_ensures h.working h.mem h.result change hResult hOp).mono ?_
  rintro _ _ ⟨p', rfl, hExt, hWrites, hMem⟩
  obtain ⟨hWork, hOnward⟩ := h.working.edit hExt (hWrites.lists t)
  refine ⟨h.toOnward.trans hOnward, hWork, ⟨?_, fun {c j y} hj hy _ => ?_, fun {c j} hj => ?_,
    fun c => ?_, fun g => ?_⟩, (hMem _ _).mpr (.inr ⟨rfl, rfl⟩), (hResult i).trans h.result,
    h.fresh, h.values, h.sigmas⟩
  · exact Nat.le_trans h.writes.values hWrites.values
  · refine (hMem c j).mpr (.inl ⟨h.writes.kept hj hy id, fun hx => ?_⟩)
    exact Nat.not_lt.mpr h.fresh (hp.result_lt hj hx)
  · rcases (hMem c j).mp hj with ⟨hOld, hne⟩ | ⟨rfl, rfl⟩
    · rcases h.writes.origin hOld with hOld | ⟨_, _, _, -, rfl⟩ | ⟨_, _, hFalse, _⟩
      · exact .inl hOld
      · exact absurd h.result hne
      · exact hFalse.elim
    · exact .inr (.inl ⟨x, (hResult i).trans h.result, h.fresh, rfl, rfl⟩)
  · exact (hWrites.term c).trans (h.writes.term c)
  · exact (hWrites.lists g).trans (h.writes.lists g)

end Adds

section Emit

variable (hs : Working rules f t base s) (hb : b < f.blocks.size)
  (hType : (typeOf? rules f v).isSome) (hNone : s.frame.values.lookup v = none) {ty : IntType}
  (hInt : ty.isInteger = true)
include hs hb hType hNone hInt

theorem emitValue_ensures (op : Opcode) (hOp : op ≠ .sigma) (name : String) (hint : Option Hint)
    (slots : List Slot) : Ensures s (emitValue v b op name ty hint slots) fun r s' =>
      ∃ x, r = some ⟨x, slots⟩ ∧ Adds rules f t base v b ⟨op, some x, [], none⟩ x s s' := by
  unfold emitValue
  refine .blockOf_bind (.extend_bind ?_)
  rw [hs.blocks hb, Program.emit_answer hInt]
  have hHouses := hs.houses hb
  have hEmits := Program.emits_emit hInt op name hint hs.regular hHouses (Nat.le_add_right base b)
  obtain ⟨hWork, hOnward⟩ := hs.record hEmits.extended (hEmits.writes.lists t) hNone hType
    (plain_of_mem (hEmits.extended.regular hs.regular) hEmits.holds hEmits.mem rfl hOp)
  exact ⟨s.program.values.size, rfl, hOnward, hWork, hEmits.writes, hEmits.mem, rfl, Nat.le_refl _,
    rfl, rfl⟩

theorem emitUnknown_ensures (name : String) (hint : Hint) :
    Ensures s (emitUnknown v b name ty hint) fun r s' =>
      r = none ∧ ∃ x, Adds rules f t base v b ⟨.unknown, some x, [], none⟩ x s s' := by
  unfold emitUnknown
  refine (emitValue_ensures hs hb hType hNone hInt .unknown nofun name (some hint) []).bind ?_
  rintro _ s' ⟨x, rfl, hAdds⟩
  exact .pure ⟨rfl, x, hAdds⟩

theorem emitCall_ensures (name : String) (callee : Nat) (args : List (Option Operand)) :
    Ensures s (emitCall pkg rules v b name ty callee args) fun r s' => ∃ x g,
      r = some ⟨x, (((pkg.func callee).params.zip args).filter fun (p, _) =>
          (p.type.integer? rules.platform).isSome).map fun (_, arg) => .use arg b⟩ ∧
        Adds rules f t base v b ⟨.call, some x, [], some g⟩ x s s' := by
  unfold emitCall
  refine (emitValue_ensures hs hb hType hNone hInt .call nofun name none _).bind ?_
  rintro _ s₁ ⟨x, rfl, hAdds₁⟩
  refine (declare_ensures t base hAdds₁.working.regular callee).bind ?_
  rintro g s₂ ⟨hDeclared, -⟩
  have hAdds₂ := hAdds₁.quiet hDeclared.toOnward hDeclared.quiet hDeclared.frame
    (hDeclared.declares hAdds₁.working.declares)
  refine (hAdds₂.editInstr_ensures hs.regular (fun i => { i with callee := some g }) (fun _ => rfl)
    fun _ => id).bind fun _ s₃ hAdds₃ => ?_
  have hExt := Program.extends_setHint t base s₃.program x
    (some ((rules.resultHint callee ty).getD (.ofType ty)))
  refine .edit_bind (.pure ⟨x, g, rfl, hAdds₃.quiet ⟨hExt, rfl, rfl, rfl, id, id, id, .inl⟩
    (Program.quiet_setHint ..) rfl ⟨fun hg => ?_, hAdds₃.working.declares.inj⟩⟩)
  exact Nat.lt_of_lt_of_le (hAdds₃.working.declares.lt hg) hExt.functions

end Emit

/-- The result `n` of block `b` is added: as the operation that the instruction computes, whose
operands are pending, or as an unknown value if it is not modelled or an operand is no integer. -/
def Drafts (pkg : Package) (rules : Rules) (f : Func) (t : FuncId) (base : BlockId) (b n : Nat)
    (instr : Instr) (ty : IntType) (s : Lowering) (r : Option Pending) (s' : Lowering) : Prop :=
  ∃ x i, Adds rules f t base (.result b n) b i x s s' ∧
    ((∃ form cs callee, f.form? pkg rules b instr ty = some form ∧
      List.Forall₂ (s'.program.IsConstant t ty) form.consts cs ∧ r = some ⟨x, form.slots cs⟩ ∧
      i = ⟨form.op, some x, [], callee⟩) ∨
    r = none ∧ i = ⟨.unknown, some x, [], none⟩ ∧
      ∀ form, f.form? pkg rules b instr ty = some form →
        ∃ u ∈ form.uses, ∀ v, u.1 = some v → typeOf? rules f v = none)

section Draft

variable {n : Nat} {instr : Instr} {ty : IntType} (hs : Working rules f t base s)
  (hb : b < f.blocks.size) (hNone : s.frame.values.lookup (.result b n) = none)
  (hTy : (typeOf? rules f (.result b n)).isSome) (hInt : ty.isInteger = true)
include hs hb hNone hTy hInt

theorem drafts_unknown (name : String) (hint : Hint)
    (hForm : ∀ form, f.form? pkg rules b instr ty = some form →
      ∃ u ∈ form.uses, ∀ v, u.1 = some v → typeOf? rules f v = none) :
    Ensures s (emitUnknown (.result b n) b name ty hint)
      (Drafts pkg rules f t base b n instr ty s) := by
  refine (emitUnknown_ensures hs hb hTy hNone hInt name hint).mono ?_
  rintro _ s' ⟨rfl, x, hAdds⟩
  exact ⟨x, _, hAdds, .inr ⟨rfl, rfl, hForm⟩⟩

theorem drafts_value (op : Opcode) (hOp : op ≠ .sigma) (name : String)
    (uses : List (Option Operand × Nat))
    (hForm : f.form? pkg rules b instr ty = some ⟨op, [], uses⟩) :
    Ensures s (emitValue (.result b n) b op name ty none (uses.map fun u => .use u.1 u.2))
      (Drafts pkg rules f t base b n instr ty s) := by
  refine (emitValue_ensures hs hb hTy hNone hInt op hOp name none _).mono ?_
  rintro _ s' ⟨x, rfl, hAdds⟩
  exact ⟨x, _, hAdds, .inl ⟨_, [], none, hForm, .nil, rfl, rfl⟩⟩

theorem drafts_complement (name : String) {k : Int} {uses : List (Option Operand × Nat)}
    (hForm : f.form? pkg rules b instr ty = some ⟨.binary .sub, [k], uses⟩) :
    Ensures s (do
      let c ← extend (Program.constant s.frame.target ty k)
      emitValue (.result b n) b (.binary .sub) name ty none
        (.fixed c :: uses.map fun u => .use u.1 u.2))
      (Drafts pkg rules f t base b n instr ty s) := by
  have hlt := (hs.houses hb).2 ▸ hs.regular.layout.seated.blockOwner (hs.houses hb).1
  have hExt := Program.extends_constant t base hlt ty k
  have hQuiet := Program.quiet_constant s.program t ty k
  obtain ⟨hWork, hOnward⟩ := hs.edit hExt (hQuiet.lists t)
  rw [hs.target]
  refine .extend_bind ((emitValue_ensures hWork hb hTy hNone hInt (.binary .sub) nofun
    name none _).mono ?_)
  rintro _ s' ⟨x, rfl, hAdds⟩
  exact ⟨x, _, hAdds.of_quiet hOnward hQuiet rfl, .inl ⟨_, [_], none, hForm,
    .cons (hAdds.program.constant hWork.regular (Program.isConstant_constant hlt ty k)) .nil, rfl,
    rfl⟩⟩

theorem drafts_call (name : String) (callee : Nat) (args : List (Option Operand))
    (hForm : f.form? pkg rules b instr ty = some ⟨.call, [],
      (((pkg.func callee).params.zip args).filter fun (p, _) =>
        (p.type.integer? rules.platform).isSome).map fun (_, arg) => (arg, b)⟩) :
    Ensures s (emitCall pkg rules (.result b n) b name ty callee args)
      (Drafts pkg rules f t base b n instr ty s) := by
  refine (emitCall_ensures hs hb hTy hNone hInt name callee args).mono ?_
  rintro _ s' ⟨x, g, rfl, hAdds⟩
  refine ⟨x, _, hAdds, .inl ⟨_, [], some g, hForm, .nil, ?_, rfl⟩⟩
  rw [Form.slots, List.map_nil, List.nil_append, List.map_map]
  rfl

end Draft

theorem addInstr_drafts (hs : Working rules f t base s) (hb : b < f.blocks.size) {n : Nat}
    (hNone : s.frame.values.lookup (.result b n) = none) {instr : Instr} {ty : IntType}
    (hInstr : f.instr? b n = some instr) (hTy : typeOf? rules f (.result b n) = some ty)
    (hInt : ty.isInteger = true) :
    Ensures s (addInstr pkg rules f b n) (Drafts pkg rules f t base b n instr ty s) := by
  have hSome : (typeOf? rules f (.result b n)).isSome := by rw [hTy]; rfl
  unfold addInstr
  dsimp only
  rw [hInstr, hTy]
  obtain ⟨action, name, type, operands⟩ := instr
  cases action with
  | binary token =>
    have hForm : f.form? pkg rules b ⟨.binary token, name, type, operands⟩ ty =
      (arithmetic.lookup token).map fun ops =>
        ⟨.binary (if ty.unsigned then ops.2 else ops.1), [],
          [((operands[0]?).join, b), ((operands[1]?).join, b)]⟩ := rfl
    dsimp only
    cases hToken : arithmetic.lookup token with
    | none =>
      rw [hToken] at hForm
      exact drafts_unknown hs hb hNone hSome hInt name _ fun form h => by cases hForm.symm.trans h
    | some ops =>
      rw [hToken] at hForm
      have hDrafts := drafts_value hs hb hNone hSome hInt (.binary _) nofun name _ hForm
      exact hDrafts
  | unary token =>
    have hForm : f.form? pkg rules b ⟨.unary token, name, type, operands⟩ ty =
      if token = "-" ∧ !ty.unsigned then some ⟨.binary .sub, [0], [((operands[0]?).join, b)]⟩
      else if token = "^" then
        some ⟨.binary .sub, [if ty.unsigned then ty.maxValue else -1], [((operands[0]?).join, b)]⟩
      else none := rfl
    dsimp only
    by_cases hMinus : token = "-" ∧ !ty.unsigned
    · rw [if_pos hMinus] at hForm ⊢
      have hDrafts := drafts_complement hs hb hNone hSome hInt name hForm
      exact .get_bind hDrafts
    · rw [if_neg hMinus] at hForm ⊢
      by_cases hCaret : token = "^"
      · rw [if_pos hCaret] at hForm ⊢
        have hDrafts := drafts_complement hs hb hNone hSome hInt name hForm
        exact .get_bind hDrafts
      · rw [if_neg hCaret] at hForm ⊢
        exact drafts_unknown hs hb hNone hSome hInt name _ fun form h => by
          cases hForm.symm.trans h
  | convert =>
    dsimp only
    have hForm : f.form? pkg rules b ⟨.convert, name, type, operands⟩ ty =
      some ⟨.unary .cast, [], [((operands[0]?).join, b)]⟩ := rfl
    split
    · have hDrafts := drafts_value hs hb hNone hSome hInt (.unary .cast) nofun name _ hForm
      exact hDrafts
    case h_2 hOperand =>
      refine drafts_unknown hs hb hNone hSome hInt name _ fun form h => ?_
      cases hForm.symm.trans h
      refine ⟨_, List.mem_cons_self, fun v hv => ?_⟩
      rw [show (operands[0]?).join = some v from hv] at hOperand
      exact hOperand
  | retype =>
    have hForm : f.form? pkg rules b ⟨.retype, name, type, operands⟩ ty =
      some ⟨.unary .copy, [], [((operands[0]?).join, b)]⟩ := rfl
    have hDrafts := drafts_value hs hb hNone hSome hInt (.unary .copy) nofun name _ hForm
    exact hDrafts
  | phi =>
    have hForm : f.form? pkg rules b ⟨.phi, name, type, operands⟩ ty =
      some ⟨.phi, [], operands.zip (f.block b).preds⟩ := rfl
    have hDrafts := drafts_value hs hb hNone hSome hInt .phi nofun name _ hForm
    exact hDrafts
  | call throughInterface builtin callee =>
    cases builtin with
    | some builtin =>
      dsimp only
      split
      · exact drafts_unknown hs hb hNone hSome hInt name _ nofun
      · exact drafts_unknown hs hb hNone hSome hInt name _ nofun
    | none =>
      cases callee with
      | none => exact drafts_unknown hs hb hNone hSome hInt name _ nofun
      | some callee => exact drafts_call hs hb hNone hSome hInt name callee (operands.drop 1) rfl
  | _ => exact drafts_unknown hs hb hNone hSome hInt name _ nofun

/-! ### Drafts of functions -/

/-- What an instruction in block `k` is there for: as a sigma, or as the result of an instruction of
the function. -/
def Kind (frame : Frame) (k : Nat) (i : ValueRange.Instr) : Prop :=
  ∃ x, i.result = some x ∧ ((∃ v, frame.sigmas.lookup (k, v) = some x) ∨
    ∃ n, frame.values.lookup (.result k n) = some x)

/-- An instruction of block `b` with result `x` stands there without operands, which are pending
unless it is unknown. -/
def Planned (pkg : Package) (rules : Rules) (f : Func) (t : FuncId) (base : BlockId)
    (todo : List Pending) (b : Nat) (instr : Instr) (ty : IntType) (x : ValueId) (p : Program) :
    Prop :=
  (∃ form cs callee, f.form? pkg rules b instr ty = some form ∧
    List.Forall₂ (p.IsConstant t ty) form.consts cs ∧ ⟨x, form.slots cs⟩ ∈ todo ∧
    ⟨form.op, some x, [], callee⟩ ∈ (p.block (base + b)).instrs) ∨
  ⟨.unknown, some x, [], none⟩ ∈ (p.block (base + b)).instrs ∧ (∀ r ∈ todo, r.result ≠ x) ∧
    ∀ form, f.form? pkg rules b instr ty = some form →
      ∃ u ∈ form.uses, ∀ v, u.1 = some v → typeOf? rules f v = none

/-- The function stands without operands and terminators, as far as the results `done` go. -/
structure Draft (pkg : Package) (rules : Rules) (f : Func) (t : FuncId) (base : BlockId)
    (done : List (Nat × Nat)) (todo : List Pending) (s : Lowering) : Prop where
  working : Working rules f t base s
  unended {b : BlockId} : base ≤ b → (s.program.block b).term = none
  kind {k : Nat} {i : ValueRange.Instr} : k < f.blocks.size →
    i ∈ (s.program.block (base + k)).instrs → Kind s.frame k i
  sigma {d : Nat} {v : Operand} {x : ValueId} : s.frame.sigmas.lookup (d, v) = some x →
    ∃ q, (f.block d).preds = [q] ∧ d ∈ (f.block q).succs ∧ f.Compares rules q v ∧
      ⟨x, [.use (some v) q]⟩ ∈ todo ∧
      ⟨.sigma, some x, [], none⟩ ∈ (s.program.block (base + d)).instrs
  result {b n : Nat} {instr : Instr} {ty : IntType} : (b, n) ∈ done → f.instr? b n = some instr →
    typeOf? rules f (.result b n) = some ty → ∃ x, s.frame.values.lookup (.result b n) = some x ∧
      Planned pkg rules f t base todo b instr ty x s.program
  keys {b n : Nat} {x : ValueId} : s.frame.values.lookup (.result b n) = some x → (b, n) ∈ done
  increasing : todo.Pairwise (·.result < ·.result)
  awaits {r : Pending} : r ∈ todo → ∃ k op callee,
    ⟨op, some r.result, [], callee⟩ ∈ (s.program.block (base + k)).instrs
  integers {r : Pending} {v : Operand} {b : Nat} : r ∈ todo → Slot.use (some v) b ∈ r.slots →
    ∀ ty, typeOf? rules f v = some ty → ty.isInteger = true

section Draft

variable {done : List (Nat × Nat)} {todo extra : List Pending} {n : Nat} {instr : Instr}
  {ty : IntType} {new : BlockId → ValueRange.Instr → Prop}

theorem Kind.onward {k : Nat} {i : ValueRange.Instr} (h : Kind s.frame k i)
    (hOnward : Onward t base s s') : Kind s'.frame k i := by
  obtain ⟨x, hx, ⟨v, hv⟩ | ⟨n, hn⟩⟩ := h
  · exact ⟨x, hx, .inl ⟨v, hOnward.sigma hv⟩⟩
  · exact ⟨x, hx, .inr ⟨n, hOnward.value hn⟩⟩

theorem Planned.onward {p p' : Program} (h : Planned pkg rules f t base todo b instr ty x p)
    (hp : Regular p) (hx : x < p.values.size) (hExt : Extends t base p p')
    (hWrites : Writes (fun _ => False) new p p')
    (hExtra : ∀ r ∈ extra, p.values.size ≤ r.result) :
    Planned pkg rules f t base (todo ++ extra) b instr ty x p' := by
  rcases h with ⟨form, cs, callee, hForm, hConsts, hTodo, hi⟩ | ⟨hi, hNot, hForm⟩
  · exact .inl ⟨form, cs, callee, hForm, hConsts.imp fun _ _ h => hExt.constant hp h,
      List.mem_append_left _ hTodo, hWrites.kept hi rfl id⟩
  · refine .inr ⟨hWrites.kept hi rfl id, fun r hr => ?_, hForm⟩
    rcases List.mem_append.mp hr with hr | hr
    · exact hNot r hr
    · exact (Nat.ne_of_lt (Nat.lt_of_lt_of_le hx (hExtra r hr))).symm

theorem Draft.below (h : Draft pkg rules f t base done todo s) {r : Pending} (hr : r ∈ todo) :
    r.result < s.program.values.size := by
  obtain ⟨_, _, _, hi⟩ := h.awaits hr
  exact h.working.regular.result_lt hi rfl

/-- A step that adds one instruction with a new result, and what is pending for it. -/
theorem Draft.step (h : Draft pkg rules f t base done todo s) (hWork : Working rules f t base s')
    (hOnward : Onward t base s s')
    (hWrites : Writes (fun _ => False) new s.program s'.program)
    (hNew : ∀ k i x, new (base + k) i → i.result = some x → Kind s'.frame k i)
    (hSigma : ∀ {d v x}, s'.frame.sigmas.lookup (d, v) = some x →
      s.frame.sigmas.lookup (d, v) = some x ∨ ∃ q, (f.block d).preds = [q] ∧
        d ∈ (f.block q).succs ∧ f.Compares rules q v ∧ ⟨x, [.use (some v) q]⟩ ∈ extra ∧
        ⟨.sigma, some x, [], none⟩ ∈ (s'.program.block (base + d)).instrs)
    {done' : List (Nat × Nat)}
    (hResult : ∀ {b n instr ty}, (b, n) ∈ done' → f.instr? b n = some instr →
      typeOf? rules f (.result b n) = some ty → (b, n) ∈ done ∨
        ∃ x, s'.frame.values.lookup (.result b n) = some x ∧
          Planned pkg rules f t base (todo ++ extra) b instr ty x s'.program)
    (hKeys : ∀ {b n x}, s'.frame.values.lookup (.result b n) = some x → (b, n) ∈ done')
    (hIncreasing : extra.Pairwise (·.result < ·.result))
    (hExtra : ∀ r ∈ extra, s.program.values.size ≤ r.result ∧
      (∃ k op callee, ⟨op, some r.result, [], callee⟩ ∈ (s'.program.block (base + k)).instrs) ∧
      ∀ v b, Slot.use (some v) b ∈ r.slots →
        ∀ ty, typeOf? rules f v = some ty → ty.isInteger = true) :
    Draft pkg rules f t base done' (todo ++ extra) s' where
  working := hWork
  unended hb := (hWrites.term _).trans (h.unended hb)
  kind {k i} hk hi := by
    -- nothing that was drafted is changed
    rcases hWrites.origin hi with hOld | ⟨x, hx, -, hi'⟩ | ⟨_, _, hFalse, _⟩
    · exact (h.kind hk hOld).onward hOnward
    · exact hNew k i x hi' hx
    · exact hFalse.elim
  sigma {d v x} hx := by
    rcases hSigma hx with hOld | ⟨q, hPreds, hSucc, hCompares, hTodo, hi⟩
    · obtain ⟨q, hPreds, hSucc, hCompares, hTodo, hi⟩ := h.sigma hOld
      exact ⟨q, hPreds, hSucc, hCompares, List.mem_append_left _ hTodo, hWrites.kept hi rfl id⟩
    · exact ⟨q, hPreds, hSucc, hCompares, List.mem_append_right _ hTodo, hi⟩
  result {b n instr ty} hMem hInstr hTy := by
    rcases hResult hMem hInstr hTy with hOld | hNew
    · obtain ⟨x, hx, hPlanned⟩ := h.result hOld hInstr hTy
      exact ⟨x, hOnward.value hx, hPlanned.onward h.working.regular (h.working.value hx).1.1.1
        hOnward.program hWrites fun r hr => (hExtra r hr).1⟩
    · exact hNew
  keys := hKeys
  increasing := List.pairwise_append.mpr ⟨h.increasing, hIncreasing,
    fun _ hr _ hr' => Nat.lt_of_lt_of_le (h.below hr) (hExtra _ hr').1⟩
  awaits {r} hr := by
    rcases List.mem_append.mp hr with hr | hr
    · obtain ⟨k, op, callee, hi⟩ := h.awaits hr
      exact ⟨k, op, callee, hWrites.kept hi rfl id⟩
    · exact (hExtra r hr).2.1
  integers hr := (List.mem_append.mp hr).elim h.integers fun hr => (hExtra _ hr).2.2 _ _

theorem Draft.skip (h : Draft pkg rules f t base done todo s) (hb : ∀ instr ty,
      f.instr? b n = some instr → ¬ typeOf? rules f (.result b n) = some ty) :
    Draft pkg rules f t base (done ++ [(b, n)]) todo s where
  working := h.working
  unended := h.unended
  kind := h.kind
  sigma := h.sigma
  result hMem hInstr hTy := by
    rcases List.mem_append.mp hMem with hOld | hNew
    · exact h.result hOld hInstr hTy
    · cases List.mem_singleton.mp hNew
      exact absurd hTy (hb _ _ hInstr)
  keys hx := List.mem_append_left _ (h.keys hx)
  increasing := h.increasing
  awaits := h.awaits
  integers := h.integers

/-- The integers among the operands of an operation have bits. -/
theorem isInteger_of_slots (hf : f.Formed rules) (hInstr : f.instr? b n = some instr) {form : Form}
    (hForm : f.form? pkg rules b instr ty = some form) {cs : List ValueId} {c : Nat}
    (hSlot : Slot.use (some v) c ∈ form.slots cs) (ty' : IntType)
    (hTy : typeOf? rules f v = some ty') : ty'.isInteger = true := by
  rcases List.mem_append.mp hSlot with hFixed | hUse
  · obtain ⟨_, _, hEq⟩ := List.mem_map.mp hFixed
    cases hEq
  · obtain ⟨u, hu, hEq⟩ := List.mem_map.mp hUse
    have hv : u.1 = some v := (Slot.use.inj hEq).1
    exact hf.bits ⟨b, n, instr, hInstr, .inr ((Func.mem_of_form? hForm hu).1 v hv)⟩ hTy

/-- The result of an instruction joins what is drafted. -/
theorem Draft.add (hf : f.Formed rules) (h : Draft pkg rules f t base done todo s)
    (hInstr : f.instr? b n = some instr) (hTy : typeOf? rules f (.result b n) = some ty)
    {r : Option Pending} (hDrafts : Drafts pkg rules f t base b n instr ty s r s') :
    Draft pkg rules f t base (done ++ [(b, n)]) (todo ++ r.toList) s' ∧ Onward t base s s' ∧
      s'.frame.sigmas = s.frame.sigmas := by
  obtain ⟨x, i, hAdds, hPlan⟩ := hDrafts
  have hLookup : s'.frame.values.lookup (.result b n) = some x := by
    rw [hAdds.values, List.lookup_cons_self]
  refine ⟨h.step hAdds.working hAdds.toOnward hAdds.writes ?_ (fun hx => .inl ?_) ?_ ?_ ?_ ?_,
    hAdds.toOnward, hAdds.sigmas⟩
  · rintro k j y ⟨hk, rfl⟩ hy
    obtain rfl := Nat.add_left_cancel hk
    exact ⟨x, hAdds.result, .inr ⟨n, hLookup⟩⟩
  · rw [hAdds.sigmas] at hx
    exact hx
  · intro b' n' instr' ty' hMem hInstr' hTy'
    rcases List.mem_append.mp hMem with hOld | hMem
    · exact .inl hOld
    · cases List.mem_singleton.mp hMem
      cases hInstr.symm.trans hInstr'
      cases hTy.symm.trans hTy'
      refine .inr ⟨x, hLookup, ?_⟩
      rcases hPlan with ⟨form, cs, callee, hForm, hConsts, rfl, rfl⟩ | ⟨rfl, rfl, hForm⟩
      · exact .inl ⟨form, cs, callee, hForm, hConsts,
          List.mem_append_right _ List.mem_cons_self, hAdds.mem⟩
      · refine .inr ⟨hAdds.mem, fun r hr => ?_, hForm⟩
        rw [Option.toList_none, List.append_nil] at hr
        exact Nat.ne_of_lt (Nat.lt_of_lt_of_le (h.below hr) hAdds.fresh)
  · intro b' n' y hy
    rw [hAdds.values] at hy
    rcases of_lookup_cons hy with ⟨hEq, -⟩ | hOld
    · cases hEq
      exact List.mem_append_right _ List.mem_cons_self
    · exact List.mem_append_left _ (h.keys hOld)
  · cases r with
    | none => exact .nil
    | some r => exact List.pairwise_singleton _ _
  · intro r' hr'
    rcases hPlan with ⟨form, cs, callee, hForm, hConsts, rfl, rfl⟩ | ⟨rfl, rfl, hForm⟩
    · obtain rfl := List.mem_singleton.mp hr'
      exact ⟨hAdds.fresh, ⟨b, _, _, hAdds.mem⟩, fun v c => isInteger_of_slots hf hInstr hForm⟩
    · cases hr'

theorem addInstr_ensures (hf : f.Formed rules) (h : Draft pkg rules f t base done todo s)
    (hb : b < f.blocks.size) (hNew : (b, n) ∉ done) :
    Ensures s (addInstr pkg rules f b n) fun r s' =>
      Draft pkg rules f t base (done ++ [(b, n)]) (todo ++ r.toList) s' ∧ Onward t base s s' ∧
        s'.frame.sigmas = s.frame.sigmas := by
  have hSkip (hNone : ∀ instr ty, f.instr? b n = some instr →
      ¬ typeOf? rules f (.result b n) = some ty) :
      Draft pkg rules f t base (done ++ [(b, n)]) (todo ++ []) s := by
    rw [List.append_nil]
    exact h.skip hNone
  cases hInstr : f.instr? b n with
  | none =>
    unfold addInstr
    dsimp only
    rw [hInstr]
    exact .pure ⟨hSkip fun _ _ hSome => (by cases hInstr.symm.trans hSome), .refl t base s, rfl⟩
  | some instr =>
    cases hTy : typeOf? rules f (.result b n) with
    | none =>
      unfold addInstr
      dsimp only
      rw [hInstr, hTy]
      exact .pure ⟨hSkip fun _ _ _ hSome => (by cases hTy.symm.trans hSome), .refl t base s, rfl⟩
    | some ty =>
      have hNone : s.frame.values.lookup (.result b n) = none := by
        cases hx : s.frame.values.lookup (.result b n) with
        | none => rfl
        | some x => exact absurd (h.keys hx) hNew
      exact (addInstr_drafts h.working hb hNone hInstr hTy
        (hf.bits ⟨b, n, instr, hInstr, .inl rfl⟩ hTy)).mono fun r s' => h.add hf hInstr hTy

theorem addSigma_ensures (hf : f.Formed rules) (h : Draft pkg rules f t base done todo s)
    {q d : Nat} (hSucc : d ∈ (f.block q).succs) (hPreds : (f.block d).preds = [q])
    (hv : ∃ c x y, comparison? rules f q = some (c, x, y) ∧ (v = x ∨ v = y)) :
    Ensures s (addSigma rules f q d v) fun r s' =>
      Draft pkg rules f t base done (todo ++ r) s' ∧ Onward t base s s' ∧
        ((∀ ty n, v ≠ .const ty n) → (s'.frame.sigmas.lookup (d, v)).isSome) := by
  have hSame : Draft pkg rules f t base done (todo ++ []) s := by
    rw [List.append_nil]
    exact h
  unfold addSigma
  split
  · exact .pure ⟨hSame, .refl t base s, fun hNot => absurd rfl (hNot _ _)⟩
  case h_2 hNot =>
    refine .get_bind ?_
    split
    case isTrue hFound => exact .pure ⟨hSame, .refl t base s, fun _ => hFound⟩
    case isFalse hFound =>
      have hCompares : f.Compares rules q v := ⟨hv, fun ty n hv => hNot ty n hv⟩
      obtain ⟨hMentions, hType⟩ := hf.isSome_of_compares hCompares
      obtain ⟨ty, hTy⟩ := Option.isSome_iff_exists.mp hType
      have hInt := hf.bits hMentions hTy
      have hd := hf.succ_lt hSucc
      have hHouses := h.working.houses hd
      refine .blockOf_bind (.extend_bind ?_)
      rw [h.working.blocks hd, hTy, Option.getD_some, Program.emit_answer hInt]
      have hEmits := Program.emits_emit hInt .sigma (f.nameOf v ++ "." ++ toString d) none
        h.working.regular hHouses (Nat.le_add_right base d)
      obtain ⟨hWork, hOnward⟩ := h.working.recordSigma hEmits.extended (hEmits.writes.lists t)
        (Option.not_isSome_iff_eq_none.mp hFound) hType hEmits.holds
      have hLookup : (((d, v), s.program.values.size) :: s.frame.sigmas).lookup (d, v) =
        some s.program.values.size := List.lookup_cons_self
      refine ⟨h.step hWork hOnward hEmits.writes ?_ (fun {d' w y} hy => ?_)
        (fun hMem _ _ => .inl hMem) h.keys (List.pairwise_singleton _ _) ?_, hOnward,
        fun _ => Option.isSome_of_eq_some hLookup⟩
      · rintro k j y ⟨hk, rfl⟩ -
        obtain rfl := Nat.add_left_cancel hk
        exact ⟨_, rfl, .inl ⟨v, hLookup⟩⟩
      · rcases of_lookup_cons hy with ⟨hEq, rfl⟩ | hOld
        · cases hEq
          exact .inr ⟨q, hPreds, hSucc, hCompares, List.mem_cons_self, hEmits.mem⟩
        · exact .inl hOld
      · rintro r hr
        obtain rfl := List.mem_singleton.mp hr
        refine ⟨Nat.le_refl _, ⟨d, _, _, hEmits.mem⟩, fun w c hSlot ty' hTy' => ?_⟩
        cases List.mem_singleton.mp hSlot
        exact hf.bits hMentions hTy'

theorem isSome_sigma (h : Onward t base s s') {d : Nat}
    (hx : (s.frame.sigmas.lookup (d, v)).isSome) : (s'.frame.sigmas.lookup (d, v)).isSome := by
  obtain ⟨x, hx⟩ := Option.isSome_iff_exists.mp hx
  exact Option.isSome_of_eq_some (h.sigma hx)

/-- A block that branches on a comparison gives its successors the sigmas of what it compares, where
it is the only predecessor. -/
theorem addSigmas_ensures (hf : f.Formed rules) (h : Draft pkg rules f t base done todo s)
    (q : Nat) : Ensures s (addSigmas rules f q) fun r s' =>
      Draft pkg rules f t base done (todo ++ r) s' ∧ Onward t base s s' ∧
        ∀ d ∈ (f.block q).succs, (f.block d).preds.length = 1 → ∀ v, f.Compares rules q v →
          (s'.frame.sigmas.lookup (d, v)).isSome := by
  unfold addSigmas
  cases hComparison : comparison? rules f q with
  | none =>
    refine .pure ⟨by rw [List.append_nil]; exact h, .refl t base s, fun _ _ _ v hv => ?_⟩
    obtain ⟨⟨c, x, y, hSome, -⟩, -⟩ := hv
    cases hComparison.symm.trans hSome
  | some comparison =>
    obtain ⟨c, x, y⟩ := comparison
    refine Ensures.bind (Ensures.mapM (I := fun succs lists s' =>
      Draft pkg rules f t base done (todo ++ lists.flatten) s' ∧ Onward t base s s' ∧
        ∀ d ∈ succs, (f.block d).preds.length = 1 → ∀ v, f.Compares rules q v →
          (s'.frame.sigmas.lookup (d, v)).isSome)
      ⟨by rw [List.flatten_nil, List.append_nil]; exact h, .refl t base s, nofun⟩ ?_)
      fun lists s' hDone => .pure hDone
    rintro succs d rest lists s₁ hSplit ⟨hDraft, hOnward, hPlaced⟩
    have hSucc : d ∈ (f.block q).succs :=
      hSplit ▸ List.mem_append_right succs List.mem_cons_self
    split
    case isTrue hOne =>
      have hPreds : (f.block d).preds = [q] := by
        obtain ⟨q', hq'⟩ := List.length_eq_one_iff.mp hOne
        have hMem := hf.pred_of_succ hSucc
        rw [hq'] at hMem ⊢
        rw [List.mem_singleton.mp hMem]
      refine (addSigma_ensures hf hDraft hSucc hPreds ⟨c, x, y, hComparison, .inl rfl⟩).bind ?_
      rintro first s₂ ⟨hDraft₂, hOnward₂, hx⟩
      refine (addSigma_ensures hf hDraft₂ hSucc hPreds ⟨c, x, y, hComparison, .inr rfl⟩).bind ?_
      rintro second s₃ ⟨hDraft₃, hOnward₃, hy⟩
      refine .pure ⟨?_, (hOnward.trans hOnward₂).trans hOnward₃, fun d' hd' hOne' v hv => ?_⟩
      · rw [List.flatten_append, List.flatten_singleton, ← List.append_assoc, ← List.append_assoc]
        exact hDraft₃
      · rcases List.mem_append.mp hd' with hd' | hd'
        · exact isSome_sigma hOnward₃ (isSome_sigma hOnward₂ (hPlaced d' hd' hOne' v hv))
        · obtain rfl := List.mem_singleton.mp hd'
          obtain ⟨⟨c', x', y', hSome, hxy⟩, hConst⟩ := hv
          cases hComparison.symm.trans hSome
          rcases hxy with rfl | rfl
          · exact isSome_sigma hOnward₃ (hx hConst)
          · exact hy hConst
    case isFalse hOne =>
      refine .pure ⟨?_, hOnward, fun d' hd' hOne' v hv => ?_⟩
      · rw [List.flatten_append, List.flatten_singleton, List.append_nil]
        exact hDraft
      · rcases List.mem_append.mp hd' with hd' | hd'
        · exact hPlaced d' hd' hOne' v hv
        · exact absurd (List.mem_singleton.mp hd' ▸ hOne') hOne

/-- The sigmas that the function needs are there. -/
def Placed (rules : Rules) (f : Func) (frame : Frame) (blocks : List Nat) : Prop :=
  ∀ q ∈ blocks, ∀ d ∈ (f.block q).succs, (f.block d).preds.length = 1 →
    ∀ v, f.Compares rules q v → (frame.sigmas.lookup (d, v)).isSome

theorem allSigmas_ensures (hf : f.Formed rules) (h : Draft pkg rules f t base done [] s)
    (places : List Nat) : Ensures s (places.mapM (addSigmas rules f)) fun lists s' =>
      Draft pkg rules f t base done lists.flatten s' ∧ Onward t base s s' ∧
        Placed rules f s'.frame places := by
  refine Ensures.mapM (I := fun blocks lists s' =>
    Draft pkg rules f t base done lists.flatten s' ∧ Onward t base s s' ∧
      Placed rules f s'.frame blocks) ⟨h, .refl t base s, nofun⟩ ?_
  rintro blocks q rest lists s₁ - ⟨hDraft, hOnward, hPlaced⟩
  refine (addSigmas_ensures hf hDraft q).mono ?_
  rintro list s₂ ⟨hDraft₂, hOnward₂, hNew⟩
  refine ⟨?_, hOnward.trans hOnward₂, fun q' hq' d hd hOne v hv => ?_⟩
  · rw [List.flatten_append, List.flatten_singleton]
    exact hDraft₂
  · rcases List.mem_append.mp hq' with hq' | hq'
    · exact isSome_sigma hOnward₂ (hPlaced q' hq' d hd hOne v hv)
    · obtain rfl := List.mem_singleton.mp hq'
      exact hNew d hd hOne v hv

/-- The instructions of a block are added in order. -/
theorem blockInstrs_ensures (hf : f.Formed rules) (h : Draft pkg rules f t base done todo s)
    (hb : b < f.blocks.size) (hNew : ∀ n, (b, n) ∉ done) :
    Ensures s ((List.range (f.block b).instrs.size).mapM (addInstr pkg rules f b)) fun row s' =>
      Draft pkg rules f t base (done ++ (List.range (f.block b).instrs.size).map (b, ·))
        (todo ++ row.filterMap id) s' ∧ Onward t base s s' ∧
        s'.frame.sigmas = s.frame.sigmas := by
  refine Ensures.mapM (I := fun ns row s' =>
    Draft pkg rules f t base (done ++ ns.map (b, ·)) (todo ++ row.filterMap id) s' ∧
      Onward t base s s' ∧ s'.frame.sigmas = s.frame.sigmas) ⟨?_, .refl t base s, rfl⟩ ?_
  · rw [List.map_nil, List.filterMap_nil, List.append_nil, List.append_nil]
    exact h
  · rintro ns n rest row s₁ hSplit ⟨hDraft, hOnward, hSame⟩
    have hFresh : (b, n) ∉ done ++ ns.map (b, ·) := by
      intro hMem
      rcases List.mem_append.mp hMem with hMem | hMem
      · exact hNew n hMem
      · obtain ⟨m, hm, hEq⟩ := List.mem_map.mp hMem
        cases hEq
        have hNodup := List.nodup_range (n := (f.block b).instrs.size)
        rw [hSplit] at hNodup
        exact (List.nodup_middle.mp hNodup).notMem (List.mem_append_left _ hm)
    refine (addInstr_ensures hf hDraft hb hFresh).mono ?_
    rintro r s₂ ⟨hDraft₂, hOnward₂, hSame₂⟩
    refine ⟨?_, hOnward.trans hOnward₂, hSame₂.trans hSame⟩
    rw [List.map_append, List.filterMap_append, ← List.append_assoc, ← List.append_assoc]
    have hSingle : [r].filterMap id = r.toList := by cases r <;> rfl
    rw [hSingle]
    exact hDraft₂

/-- All instructions are added, block by block. -/
theorem allInstrs_ensures (hf : f.Formed rules) (h : Draft pkg rules f t base [] todo s) :
    Ensures s ((List.range f.blocks.size).mapM fun b =>
      (List.range (f.block b).instrs.size).mapM (addInstr pkg rules f b)) fun rows s' =>
      Draft pkg rules f t base ((List.range f.blocks.size).flatMap fun b =>
          (List.range (f.block b).instrs.size).map (b, ·))
        (todo ++ rows.flatten.filterMap id) s' ∧ Onward t base s s' ∧
        s'.frame.sigmas = s.frame.sigmas := by
  refine Ensures.mapM (I := fun blocks rows s' =>
    Draft pkg rules f t base (blocks.flatMap fun b =>
        (List.range (f.block b).instrs.size).map (b, ·))
      (todo ++ rows.flatten.filterMap id) s' ∧ Onward t base s s' ∧
      s'.frame.sigmas = s.frame.sigmas) ⟨?_, .refl t base s, rfl⟩ ?_
  · rw [List.flatMap_nil, List.flatten_nil, List.filterMap_nil, List.append_nil]
    exact h
  · rintro blocks b rest rows s₁ hSplit ⟨hDraft, hOnward, hSame⟩
    have hb : b < f.blocks.size :=
      List.mem_range.mp (hSplit ▸ List.mem_append_right blocks List.mem_cons_self)
    have hFresh (n : Nat) : (b, n) ∉ blocks.flatMap fun b =>
        (List.range (f.block b).instrs.size).map (b, ·) := by
      intro hMem
      obtain ⟨b', hb', hn⟩ := List.mem_flatMap.mp hMem
      obtain ⟨_, _, hEq⟩ := List.mem_map.mp hn
      cases hEq
      have hNodup := List.nodup_range (n := f.blocks.size)
      rw [hSplit] at hNodup
      exact (List.nodup_middle.mp hNodup).notMem (List.mem_append_left _ hb')
    refine (blockInstrs_ensures hf hDraft hb hFresh).mono ?_
    rintro row s₂ ⟨hDraft₂, hOnward₂, hSame₂⟩
    refine ⟨?_, hOnward.trans hOnward₂, hSame₂.trans hSame⟩
    rw [List.flatMap_append, List.flatMap_singleton, List.flatten_append, List.flatten_singleton,
      List.filterMap_append, ← List.append_assoc]
    exact hDraft₂

end Draft

end ValueRange.Source.Lowering
