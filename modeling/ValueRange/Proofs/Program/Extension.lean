import ValueRange.Proofs.Program.Labels

/-! What is left as it is while one function of a program is built. The other functions keep their
blocks, the blocks before a given one keep everything, and of the instructions only those that
define some values change. -/

namespace ValueRange.Program

variable {p p' p'' : Program} {f t : FuncId} {base b : BlockId} {v x : ValueId} {i : Instr}

/-- What calls of the builder keep, also if instructions are changed that keep their results. -/
structure Regular (p : Program) : Prop where
  made : Made p
  linked : Linked p
  layout : Layout p
  enclosed : Enclosed p
  home : 0 < p.modules.size

theorem regular_start : Regular start :=
  ⟨.start, ⟨nofun, nofun, nofun⟩, .start, nofun, Nat.one_pos⟩

/-- The first block that an instruction may be in, and its place there, follow from its result. -/
theorem Regular.eq_of_result (hp : Regular p) {b' : BlockId} {i' : Instr}
    (hi : i ∈ (p.block b).instrs) (hi' : i' ∈ (p.block b').instrs) (hx : i.result = some x)
    (hx' : i'.result = some x) : b = b' ∧ i = i' := by
  obtain ⟨k, hk⟩ := Array.mem_iff_getElem?.mp hi
  obtain ⟨k', hk'⟩ := Array.mem_iff_getElem?.mp hi'
  cases hp.made.tidy.site_eq hk hk' hx hx'
  exact ⟨rfl, Option.some.inj (hk.symm.trans hk')⟩

theorem Regular.result_lt (hp : Regular p) (hi : i ∈ (p.block b).instrs) (hx : i.result = some x) :
    x < p.values.size := by
  obtain ⟨k, hk⟩ := Array.mem_iff_getElem?.mp hi
  obtain ⟨_, hValue, _⟩ := hp.made.tidy.result hk hx
  exact (Array.getElem?_eq_some_iff.mp hValue).1

/-- The second program extends the first by parts of the function `t` and by functions without
blocks. Blocks before `base` stay as they are, and no definition becomes a sigma. -/
structure Extends (t : FuncId) (base : BlockId) (p p' : Program) : Prop where
  regular : Regular p → Regular p'
  functions : p.functions.size ≤ p'.functions.size
  values : p.values.size ≤ p'.values.size
  lists {f : FuncId} : f ≠ t → (p'.func f).blocks = (p.func f).blocks
  block {b : BlockId} : b < base → p'.block b = p.block b
  houses {f : FuncId} {b : BlockId} : p.Houses f b → p'.Houses f b
  holds {f : FuncId} {v : ValueId} : p.Holds f v → p'.Holds f v
  constant {f : FuncId} {type : IntType} {n : Int} {v : ValueId} : Regular p →
    p.IsConstant f type n v → p'.IsConstant f type n v
  origin {b : BlockId} {i : Instr} {x : ValueId} : i ∈ (p'.block b).instrs → i.result = some x →
    x < p.values.size →
      ∃ i' ∈ (p.block b).instrs, i'.result = some x ∧ (i.op = .sigma → i'.op = .sigma)

/-- The second program has the instructions of the first, of which those that define values in `X`
may have been changed, and instructions in `new` that define new values. Nothing else happened to
the blocks that there were. -/
structure Writes (X : ValueId → Prop) (new : BlockId → Instr → Prop) (p p' : Program) : Prop where
  values : p.values.size ≤ p'.values.size
  kept {b : BlockId} {i : Instr} {x : ValueId} : i ∈ (p.block b).instrs → i.result = some x →
    ¬ X x → i ∈ (p'.block b).instrs
  origin {b : BlockId} {i : Instr} : i ∈ (p'.block b).instrs → i ∈ (p.block b).instrs ∨
    (∃ x, i.result = some x ∧ p.values.size ≤ x ∧ new b i) ∨
    ∃ x, i.result = some x ∧ X x ∧ ∃ i' ∈ (p.block b).instrs, i'.result = some x
  term (b : BlockId) : (p'.block b).term = (p.block b).term
  lists (f : FuncId) : (p'.func f).blocks = (p.func f).blocks

/-- No instruction is written. -/
abbrev Quiet : Program → Program → Prop := Writes (fun _ => False) fun _ _ => False

/-! ### Sequences of steps -/

theorem Extends.refl (t : FuncId) (base : BlockId) (p : Program) : Extends t base p p :=
  ⟨id, Nat.le_refl _, Nat.le_refl _, fun _ => rfl, fun _ => rfl, id, id, fun _ => id,
    fun hi hx _ => ⟨_, hi, hx, id⟩⟩

theorem Extends.trans (h : Extends t base p p') (h' : Extends t base p' p'') :
    Extends t base p p'' where
  regular := h'.regular ∘ h.regular
  functions := Nat.le_trans h.functions h'.functions
  values := Nat.le_trans h.values h'.values
  lists hf := (h'.lists hf).trans (h.lists hf)
  block hb := (h'.block hb).trans (h.block hb)
  houses := h'.houses ∘ h.houses
  holds := h'.holds ∘ h.holds
  constant hp := h'.constant (h.regular hp) ∘ h.constant hp
  origin hi hx hlt := by
    obtain ⟨i', hi', hx', hOp⟩ := h'.origin hi hx (Nat.lt_of_lt_of_le hlt h.values)
    obtain ⟨i'', hi'', hx'', hOp'⟩ := h.origin hi' hx' hlt
    exact ⟨i'', hi'', hx'', hOp' ∘ hOp⟩

section Writes

variable {X X' : ValueId → Prop} {new new' : BlockId → Instr → Prop}

theorem Writes.refl (X : ValueId → Prop) (new : BlockId → Instr → Prop) (p : Program) :
    Writes X new p p :=
  ⟨Nat.le_refl _, fun hi _ _ => hi, .inl, fun _ => rfl, fun _ => rfl⟩

theorem Writes.mono (h : Writes X new p p') (hX : ∀ x, X x → X' x)
    (hNew : ∀ b i, new b i → new' b i) : Writes X' new' p p' where
  values := h.values
  kept hi hx hX' := h.kept hi hx (hX' ∘ hX _)
  origin hi := by
    rcases h.origin hi with hOld | ⟨x, hx, hLe, hNew'⟩ | ⟨x, hx, hX', hOld⟩
    · exact .inl hOld
    · exact .inr (.inl ⟨x, hx, hLe, hNew _ _ hNew'⟩)
    · exact .inr (.inr ⟨x, hx, hX _ hX', hOld⟩)
  term := h.term
  lists := h.lists

theorem Quiet.writes (h : Quiet p p') : Writes X new p p' :=
  h.mono (fun _ => False.elim) fun _ _ => False.elim

/-- What is written first is not changed afterwards. -/
theorem Writes.trans (h : Writes X new p p') (h' : Writes X new p' p'')
    (hX : ∀ x, X x → x < p.values.size) : Writes X new p p'' where
  values := Nat.le_trans h.values h'.values
  kept hi hx hNot := h'.kept (h.kept hi hx hNot) hx hNot
  origin hi := by
    rcases h'.origin hi with hMid | ⟨x, hx, hLe, hNew⟩ | ⟨x, hx, hIn, i', hi', hx'⟩
    · exact h.origin hMid
    · exact .inr (.inl ⟨x, hx, Nat.le_trans h.values hLe, hNew⟩)
    · rcases h.origin hi' with hOld | ⟨y, hy, hLe, -⟩ | ⟨y, hy, -, i'', hi'', hy'⟩
      · exact .inr (.inr ⟨x, hx, hIn, i', hOld, hx'⟩)
      · cases hx'.symm.trans hy
        exact absurd (hX x hIn) (Nat.not_lt.mpr hLe)
      · cases hx'.symm.trans hy
        exact .inr (.inr ⟨x, hx, hIn, i'', hi'', hy'⟩)
  term b := (h'.term b).trans (h.term b)
  lists f := (h'.lists f).trans (h.lists f)

end Writes

/-! ### The steps of the builder -/

theorem Extends.of_grown (hMade : Made p → Made p') (hLinked : Linked p → Linked p')
    (hChanges : Layout p → Relation.ReflTransGen Change p p')
    (hGrown : Grown (fun _ => True) p p') (hHome : p.modules.size ≤ p'.modules.size)
    (hLists : ∀ f, f ≠ t → (p'.func f).blocks = (p.func f).blocks)
    (hBlock : ∀ b < base, p'.block b = p.block b)
    (hOrigin : ∀ {b i x}, i ∈ (p'.block b).instrs → i.result = some x → x < p.values.size →
      ∃ i' ∈ (p.block b).instrs, i'.result = some x ∧ (i.op = .sigma → i'.op = .sigma)) :
    Extends t base p p' where
  regular hp := ⟨hMade hp.made, hLinked hp.linked, hGrown.layout hp.layout,
    hGrown.enclosed hp.enclosed, Nat.lt_of_lt_of_le hp.home hHome⟩
  functions := hGrown.functions
  values := hGrown.size
  lists := hLists _
  block := hBlock _
  houses := hGrown.houses
  holds h := ⟨Nat.lt_of_lt_of_le h.1 hGrown.size,
    (congrArg Label.owner (hGrown.old h.1)).trans h.2⟩
  constant hp hv := hv.changes hp.layout (hChanges hp.layout)
  origin := hOrigin

/-- A call that keeps the blocks. -/
theorem Extends.of_call (h : Call p p') (hGrown : Grown (fun _ => True) p p')
    (hHome : p.modules.size ≤ p'.modules.size) (hBlocks : p'.blocks = p.blocks)
    (hLists : ∀ f, (p'.func f).blocks = (p.func f).blocks) : Extends t base p p' := by
  have hBlock (b : BlockId) : p'.block b = p.block b := by rw [Program.block, hBlocks]; rfl
  refine .of_grown h.made h.linked (fun hp => hp.calls (.single h)) hGrown hHome
    (fun f _ => hLists f) (fun b _ => hBlock b) fun {b i x} hi hx _ => ⟨i, ?_, hx, id⟩
  rw [hBlock] at hi
  exact hi

theorem Quiet.of_blocks (hBlocks : p'.blocks = p.blocks)
    (hValues : p.values.size ≤ p'.values.size)
    (hLists : ∀ f, (p'.func f).blocks = (p.func f).blocks) : Quiet p p' := by
  have hBlock (b : BlockId) : p'.block b = p.block b := by rw [block, hBlocks]; rfl
  refine ⟨hValues, fun {b _ _} hi _ _ => ?_, fun {b _} hi => .inl ?_, fun b => ?_, hLists⟩
  · rw [hBlock]
    exact hi
  · rw [hBlock] at hi
    exact hi
  · rw [hBlock]

section Calls

variable (t base)

theorem quiet_addFunction (p : Program) (name : String) :
    Quiet p ((addFunction 0 name).run p).2 := by
  refine .of_blocks rfl (Nat.le_refl _) fun f => ?_
  rw [func_addFunction]
  split
  case isTrue h => rw [h, func_of_le (Nat.le_refl _)]; rfl
  case isFalse => rfl

theorem extends_addFunction (hp : 0 < p.modules.size) (name : String) :
    Extends t base p ((addFunction 0 name).run p).2 :=
  .of_call (.addFunction hp name) (grown_addFunction hp name) (Nat.le_of_eq Array.size_modify.symm)
    rfl (quiet_addFunction p name).lists

theorem quiet_setExternal (p : Program) (f : FuncId) (flag : Bool) :
    Quiet p (p.setExternal f flag) :=
  .of_blocks rfl (Nat.le_refl _) fun _ => proj_getD_modify _ _ _ Func.blocks _ fun _ => rfl

theorem extends_setExternal (hf : f < p.functions.size) (flag : Bool) :
    Extends t base p (p.setExternal f flag) :=
  .of_call (.setExternal hf flag)
    (grown_modifyFunction p f (fun _ => rfl) (fun _ => rfl) fun _ => rfl) (Nat.le_refl _)
    rfl (quiet_setExternal p f flag).lists

theorem quiet_addValue (p : Program) (f : FuncId) (name : String) (type : IntType)
    (const : Option Int) (hint : Option Hint) (site : Option Site) :
    Quiet p ((addValue f name type const hint site).run p).2 :=
  .of_blocks rfl (size_values_addValue .. ▸ Nat.le_succ _)
    (blocks_addValue f name type const hint site)

theorem quiet_addParam (p : Program) (f : FuncId) (name : String) (type : IntType)
    (hint : Option Hint) : Quiet p ((addParam f name type hint).run p).2 := by
  have hValue := quiet_addValue p f name type none hint none
  refine .of_blocks rfl hValue.values fun f' => Eq.trans ?_ (hValue.lists f')
  exact proj_getD_modify _ _ _ Func.blocks _ fun _ => rfl

theorem extends_addParam (hf : f < p.functions.size) (name : String) (type : IntType)
    (hint : Option Hint) : Extends t base p ((addParam f name type hint).run p).2 :=
  .of_call (.addParam hf name type hint) (grown_addParam hf name type hint trivial)
    (Nat.le_of_eq Array.size_modify.symm) rfl (quiet_addParam p f name type hint).lists

theorem quiet_constant (p : Program) (f : FuncId) (type : IntType) (n : Int) :
    Quiet p ((constant f type n).run p).2 := by
  rw [run_constant]
  split
  · exact .refl _ _ p
  · exact quiet_addValue p f "" type (some n) none none

theorem extends_constant (hf : f < p.functions.size) (type : IntType) (n : Int) :
    Extends t base p ((constant f type n).run p).2 := by
  refine .of_call (.constant hf type n) (grown_constant hf type n trivial) ?_ ?_
    (quiet_constant p f type n).lists
  · rw [run_constant]
    split
    · exact Nat.le_refl _
    · exact Nat.le_of_eq Array.size_modify.symm
  · rw [run_constant]
    split <;> rfl

theorem quiet_setHint (p : Program) (v : ValueId) (hint : Option Hint) :
    Quiet p (p.setHint v hint) :=
  .of_blocks rfl (Nat.le_of_eq Array.size_modify.symm) fun _ => rfl

theorem extends_setHint (p : Program) (v : ValueId) (hint : Option Hint) :
    Extends t base p (p.setHint v hint) :=
  .of_grown (fun hp => .setHint hp v hint) (fun hp => hp.setHint v hint)
    (fun _ => .single (.touch (sameOutline_setHint p v hint))) (grown_setHint p v hint)
    (Nat.le_refl _) (fun _ _ => rfl) (fun _ _ => rfl) fun hi hx _ => ⟨_, hi, hx, id⟩

end Calls

theorem extends_addBlock (hf : t < p.functions.size) (hBase : base ≤ p.blocks.size)
    (name : String) : Extends t base p ((addBlock t name).run p).2 := by
  have hCall : Call p _ := .addBlock hf name
  refine .of_grown hCall.made hCall.linked (fun hp => hp.calls (.single hCall))
    (grown_addBlock hf name) (Nat.le_refl _) (fun f hne => ?_) (fun b hb => ?_)
    fun {b i x} hi hx _ => ⟨i, ?_, hx, id⟩
  · rw [func_addBlock, if_neg fun h => hne h.1.symm]
  · rw [block_addBlock, if_neg (Nat.ne_of_lt (Nat.lt_of_lt_of_le hb hBase))]
  · rw [block_addBlock] at hi
    split at hi
    · exact absurd hi (Array.not_mem_empty _)
    · exact hi

section Emit

variable {type : IntType} (hInt : type.isInteger = true) (op : Opcode) (name : String)
  (hint : Option Hint)
include hInt

theorem emit_answer (p : Program) (b : BlockId) :
    ((emit b op name type [] hint none).run p).1 = some p.values.size := by
  simp only [emit, hInt]
  rfl

theorem block_emit (hb : b < p.blocks.size) (c : BlockId) :
    ((emit b op name type [] hint none).run p).2.block c = if b = c then
        { p.block c with instrs := (p.block c).instrs.push ⟨op, some p.values.size, [], none⟩ }
      else p.block c := by
  rw [run_emit_of_integer hInt]
  refine (getD_modify _ _ _ _ _).trans ?_
  by_cases hc : b = c
  · rw [if_pos ⟨hc, hc ▸ hb⟩, if_pos hc]
    rfl
  · rw [if_neg fun h => hc h.1, if_neg hc]
    rfl

theorem mem_instrs_emit (hb : b < p.blocks.size) {c : BlockId} {i : Instr} :
    i ∈ (((emit b op name type [] hint none).run p).2.block c).instrs ↔
      i ∈ (p.block c).instrs ∨ c = b ∧ i = ⟨op, some p.values.size, [], none⟩ := by
  rw [block_emit hInt op name hint hb]
  split
  case isTrue hc => rw [Array.mem_push, and_iff_right hc.symm]
  case isFalse hc => rw [or_iff_left fun h => hc h.1.symm]

theorem writes_emit (hb : b < p.blocks.size) :
    Writes (fun _ => False) (fun c i => c = b ∧ i = ⟨op, some p.values.size, [], none⟩) p
      ((emit b op name type [] hint none).run p).2 := by
  refine ⟨?_, fun hi _ _ => (mem_instrs_emit hInt op name hint hb).mpr (.inl hi),
    fun hi => ?_, fun c => ?_, fun f => ?_⟩
  · rw [run_emit_of_integer hInt]
    exact (quiet_addValue p _ name type none hint _).values
  · rcases (mem_instrs_emit hInt op name hint hb).mp hi with hOld | ⟨hc, rfl⟩
    · exact .inl hOld
    · exact .inr (.inl ⟨_, rfl, Nat.le_refl _, hc, rfl⟩)
  · rw [block_emit hInt op name hint hb]
    split <;> rfl
  · rw [run_emit_of_integer hInt]
    exact (quiet_addValue p (p.block b).owner name type none hint
      (some ⟨b, (p.block b).instrs.size⟩)).lists f

/-- A new instruction is all that is written, and its result is a new value of the function that the
block belongs to. -/
structure Emits (t : FuncId) (base b : BlockId) (op : Opcode) (p p' : Program) : Prop where
  extended : Extends t base p p'
  writes : Writes (fun _ => False) (fun c i => c = b ∧ i = ⟨op, some p.values.size, [], none⟩) p p'
  mem : ⟨op, some p.values.size, [], none⟩ ∈ (p'.block b).instrs
  holds : p'.Holds t p.values.size

theorem emits_emit (hp : Regular p) (hb : p.Houses t b) (hBase : base ≤ b) :
    Emits t base b op p ((emit b op name type [] hint none).run p).2 := by
  have hCall : Call p _ := .emit hb.1 op name type [] nofun hint none
  have hWrites := writes_emit hInt op name hint hb.1
  refine ⟨.of_grown hCall.made hCall.linked (fun hp => hp.calls (.single hCall))
    (grown_emit hb (hb.2 ▸ hp.layout.seated.blockOwner hb.1) op name type hint trivial) ?_
    (fun f _ => hWrites.lists f) (fun c hc => ?_) fun hi hx hlt => ?_, hWrites,
    (mem_instrs_emit hInt op name hint hb.1).mpr (.inr ⟨rfl, rfl⟩), ?_⟩
  · rw [run_emit_of_integer hInt]
    exact Nat.le_of_eq Array.size_modify.symm
  · rw [block_emit hInt op name hint hb.1, if_neg (Nat.ne_of_lt (Nat.lt_of_lt_of_le hc hBase)).symm]
  · rcases (mem_instrs_emit hInt op name hint hb.1).mp hi with hOld | ⟨-, rfl⟩
    · exact ⟨_, hOld, hx, id⟩
    · cases hx
      exact absurd hlt (Nat.lt_irrefl _)
  · rw [run_emit_of_integer hInt, ← hb.2]
    exact holds_addValue (p.block b).owner name type none hint (some ⟨b, (p.block b).instrs.size⟩) p

end Emit

/-! ### Changes of instructions -/

/-- A value that an instruction defines has its site there. -/
theorem Regular.exists_site (hp : Regular p) (hi : i ∈ (p.block b).instrs)
    (hx : i.result = some x) : ∃ k, (p.value x).site = some ⟨b, k⟩ := by
  obtain ⟨k, hk⟩ := Array.mem_iff_getElem?.mp hi
  obtain ⟨y, hy, -, hSite⟩ := hp.made.tidy.result hk hx
  refine ⟨k, ?_⟩
  rw [value, Array.getD_eq_getD_getElem?, hy]
  exact hSite

theorem Regular.exists_of_site (hp : Regular p) {s : Site} (hSite : (p.value x).site = some s) :
    ∃ i, p.instr? s = some i ∧ i.result = some x := by
  cases hValue : p.values[x]? with
  | none =>
    rw [value, Array.getD_eq_getD_getElem?, hValue] at hSite
    cases hSite
  | some y =>
    rw [value, Array.getD_eq_getD_getElem?, hValue] at hSite
    exact hp.linked.site hValue hSite

theorem instr?_modifyInstr (p : Program) (s s' : Site) (change : Instr → Instr) :
    (p.modifyInstr s change).instr? s' =
      if s = s' then (p.instr? s').map change else p.instr? s' := by
  obtain ⟨c, k⟩ := s
  obtain ⟨c', k'⟩ := s'
  rw [instr?, modifyInstr, block, getD_modify]
  by_cases hc : c = c'
  · subst hc
    by_cases hlt : c < p.blocks.size
    · rw [if_pos ⟨rfl, hlt⟩, Array.getElem?_modify]
      simp only [Site.mk.injEq, true_and]
      rfl
    · have hNone : p.instr? ⟨c, k'⟩ = none := by
        rw [instr?, block_of_le (Nat.not_lt.mp hlt)]
        rfl
      rw [if_neg fun h => hlt h.2, hNone]
      refine Eq.trans ?_ (ite_self none).symm
      exact hNone
  · rw [if_neg fun h => hc h.1, if_neg fun h => hc (congrArg Site.block h)]
    rfl

section Change

variable {s : Site} {change : Instr → Instr}

/-- A change at the site of a value changes the instruction that defines it. -/
theorem mem_instrs_modifyInstr (hp : Regular p) (hSite : (p.value x).site = some s) :
    i ∈ ((p.modifyInstr s change).block b).instrs ↔
      i ∈ (p.block b).instrs ∧ i.result ≠ some x ∨
        ∃ i' ∈ (p.block b).instrs, i'.result = some x ∧ change i' = i := by
  obtain ⟨j, hj, hx⟩ := hp.exists_of_site hSite
  have hUnique {k : Nat} {i' : Instr} (hi' : p.instr? ⟨b, k⟩ = some i') :
      s = ⟨b, k⟩ ↔ i'.result = some x := by
    refine ⟨fun h => ?_, fun h => hp.made.tidy.site_eq hi' hj h hx⟩
    rw [← h, hj] at hi'
    exact Option.some.inj hi' ▸ hx
  simp only [Array.mem_iff_getElem?]
  change (∃ k, (p.modifyInstr s change).instr? ⟨b, k⟩ = some i) ↔
    (∃ k, p.instr? ⟨b, k⟩ = some i) ∧ _ ∨ ∃ i', (∃ k, p.instr? ⟨b, k⟩ = some i') ∧ _
  simp only [instr?_modifyInstr]
  constructor
  · rintro ⟨k, hk⟩
    split at hk
    case isTrue hs =>
      obtain ⟨i', hi', hChange⟩ := Option.map_eq_some_iff.mp hk
      exact .inr ⟨i', ⟨k, hi'⟩, (hUnique hi').mp hs, hChange⟩
    case isFalse hs => exact .inl ⟨⟨k, hk⟩, fun h => hs ((hUnique hk).mpr h)⟩
  · rintro (⟨⟨k, hk⟩, hne⟩ | ⟨i', ⟨k, hk⟩, hx', hChange⟩)
    · exact ⟨k, by rw [if_neg fun h => hne ((hUnique hk).mp h), hk]⟩
    · exact ⟨k, by rw [if_pos ((hUnique hk).mpr hx'), hk, Option.map_some, hChange]⟩

theorem writes_modifyInstr {new : BlockId → Instr → Prop} (hp : Regular p)
    (hSite : (p.value x).site = some s) (hResult : ∀ i, (change i).result = i.result) :
    Writes (· = x) new p (p.modifyInstr s change) := by
  refine ⟨Nat.le_refl _, fun hi hy hne => ?_, fun hi => ?_, fun b => ?_, fun _ => rfl⟩
  · refine (mem_instrs_modifyInstr hp hSite).mpr (.inl ⟨hi, fun h => hne ?_⟩)
    exact Option.some.inj (hy.symm.trans h)
  · rcases (mem_instrs_modifyInstr hp hSite).mp hi with ⟨hOld, -⟩ | ⟨i', hi', hx, rfl⟩
    · exact .inl hOld
    · exact .inr (.inr ⟨x, (hResult i').trans hx, rfl, i', hi', hx⟩)
  · exact proj_getD_modify _ _ _ Block.term _ fun _ => rfl

theorem extends_modifyInstr (hBase : base ≤ s.block)
    (hResult : ∀ i, (change i).result = i.result)
    (hOp : ∀ i, (change i).op = .sigma → i.op = .sigma) :
    Extends t base p (p.modifyInstr s change) := by
  refine .of_grown (fun hp => .modifyInstr hp s change hResult)
    (fun hp => hp.modifyInstr s hResult)
    (fun _ => .single (.touch (sameOutline_modifyInstrs p s.block (·.modify s.index change))))
    (grown_modifyInstrs p s.block (·.modify s.index change)) (Nat.le_refl _) (fun _ _ => rfl)
    (fun b hb => ?_) fun {b i x} hi hx _ => ?_
  · refine (getD_modify _ _ _ _ _).trans (if_neg fun h => ?_)
    exact Nat.not_lt.mpr hBase (h.1 ▸ hb)
  · obtain ⟨k, hk⟩ := Array.mem_iff_getElem?.mp hi
    replace hk : (p.modifyInstr s change).instr? ⟨b, k⟩ = some i := hk
    rw [instr?_modifyInstr] at hk
    split at hk
    · obtain ⟨i', hi', rfl⟩ := Option.map_eq_some_iff.mp hk
      exact ⟨i', Array.mem_of_getElem? hi', (hResult i').symm.trans hx, hOp i'⟩
    · exact ⟨i, Array.mem_of_getElem? hk, hx, id⟩

end Change

/-! ### Terminators -/

/-- Only a block that ends and its targets change. -/
theorem block_terminate_of_ne (p : Program) {b c : BlockId} {u : Terminator} (hb : c ≠ b)
    (hTargets : c ∉ u.successors) : (p.terminate b u).block c = p.block c := by
  have hEdges (cs : List BlockId) (hcs : c ∉ cs) (q : Program) :
      (cs.foldl (fun p target => p.addEdge b target) q).block c = q.block c := by
    induction cs generalizing q with
    | nil => rfl
    | cons d cs ih =>
      refine (ih (fun h => hcs (List.mem_cons_of_mem d h)) _).trans ?_
      rw [block_addEdge]
      split
      · rfl
      · have hTarget : ¬ (d = c ∧ c < q.blocks.size) := fun h => hcs (h.1 ▸ List.mem_cons_self)
        rw [if_neg hTarget, if_neg fun h => hb h.1.symm]
  refine (hEdges _ hTargets _).trans ((getD_modify _ _ _ _ _).trans (if_neg fun h => ?_))
  exact hb h.1.symm

theorem instrs_terminate (p : Program) (b : BlockId) (u : Terminator) (c : BlockId) :
    ((p.terminate b u).block c).instrs = (p.block c).instrs :=
  proj_terminate Block.instrs (fun _ _ => rfl) (fun _ _ => rfl) (fun _ _ => rfl) p b u c

theorem lists_terminate (p : Program) (b : BlockId) (u : Terminator) (f : FuncId) :
    ((p.terminate b u).func f).blocks = (p.func f).blocks := by
  obtain ⟨blocks, -, hEq⟩ := exists_terminate p b u
  rw [hEq]
  rfl

theorem extends_terminate {u : Terminator} (hb : p.Houses f b) (hBase : base ≤ b)
    (hTargets : ∀ c ∈ u.successors, p.Houses f c ∧ base ≤ c) (hOpen : (p.block b).term = none) :
    Extends t base p (p.terminate b u) := by
  obtain ⟨blocks, -, hEq⟩ := exists_terminate p b u
  have hCall : Call p _ := .terminate hb.1 (fun c hc => (hTargets c hc).1.1) hOpen
  refine .of_grown hCall.made hCall.linked (fun hp => hp.calls (.single hCall))
    (grown_terminate hb (fun c hc => (hTargets c hc).1) hOpen) ?_
    (fun f _ => lists_terminate p b u f) (fun c hc => ?_)
    fun {c i x} hi hx _ => ⟨i, ?_, hx, id⟩
  · exact Nat.le_of_eq (by rw [hEq])
  · refine block_terminate_of_ne p (Nat.ne_of_lt (Nat.lt_of_lt_of_le hc hBase)) fun h => ?_
    exact Nat.not_lt.mpr (hTargets c h).2 hc
  · rw [instrs_terminate] at hi
    exact hi

end ValueRange.Program
