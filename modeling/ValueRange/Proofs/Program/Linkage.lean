import Mathlib.Logic.Relation
import Mathlib.Tactic.SplitIfs
import ValueRange.Proofs.Program.Construction

/-! Programs that are built by calls which succeed and refer only to what earlier calls gave out. In
such a program every value that has a site is the result of the instruction there, and a block knows
the blocks whose terminators lead to it. -/

namespace ValueRange.Program

/-- One call of the builder that succeeds. The places that it gets exist. -/
inductive Call (p : Program) : Program → Prop
  | addModule : Call p (addModule.run p).2
  | addFunction {m : ModuleId} (hm : m < p.modules.size) (name : String) :
      Call p ((addFunction m name).run p).2
  | setExternal {f : FuncId} (hf : f < p.functions.size) (flag : Bool) : Call p (p.setExternal f flag)
  | addParam {f : FuncId} (hf : f < p.functions.size) (name : String) (type : IntType)
      (hint : Option Hint) : Call p ((addParam f name type hint).run p).2
  | addBlock {f : FuncId} (hf : f < p.functions.size) (name : String) :
      Call p ((addBlock f name).run p).2
  | constant {f : FuncId} (hf : f < p.functions.size) (type : IntType) (n : Int) :
      Call p ((constant f type n).run p).2
  | emit {b : BlockId} (hb : b < p.blocks.size) (op : Opcode) (name : String) (type : IntType)
      (args : List (Option ValueId)) (hArgs : ∀ a ∈ args, ∀ v ∈ a, v < p.values.size)
      (hint : Option Hint) (callee : Option FuncId) :
      Call p ((emit b op name type args hint callee).run p).2
  | setHint {v : ValueId} (hv : v < p.values.size) (hint : Option Hint) : Call p (p.setHint v hint)
  | setArg {v : ValueId} {i : Nat} {arg : Option ValueId} {p' : Program}
      (hArg : ∀ a ∈ arg, a < p.values.size) (h : p.setArg v i arg = .ok p') : Call p p'
  | setTerminator {b : BlockId} {t : Terminator} {p' : Program} (hb : b < p.blocks.size)
      (hTargets : ∀ c ∈ t.successors, c < p.blocks.size) (h : p.setTerminator b t = .ok p') :
      Call p p'

/-- A program that calls of the builder lead to. -/
def Constructed (p : Program) : Prop := Relation.ReflTransGen Call start p

variable {p p' : Program} {v : ValueId} {s : Site} {q b c : BlockId} {i : Instr} {t : Terminator}

theorem exists_of_setArg {k : Nat} {arg : Option ValueId} (h : p.setArg v k arg = .ok p') :
    ∃ s, p' = p.modifyInstr s fun x => { x with args := x.args.set k arg } := by
  unfold setArg at h
  split at h
  · cases h
  · split at h
    · cases h
    · split at h
      · exact ⟨_, (Except.ok.inj h).symm⟩
      · cases h

theorem eq_of_setTerminator (h : p.setTerminator b t = .ok p') : p' = p.terminate b t := by
  unfold setTerminator at h
  split at h
  · cases h
  · exact (Except.ok.inj h).symm

/-- A block without a terminator gets one. -/
theorem Call.terminate (hb : b < p.blocks.size) (hTargets : ∀ c ∈ t.successors, c < p.blocks.size)
    (hOpen : (p.block b).term = none) : Call p (p.terminate b t) := by
  refine .setTerminator hb hTargets ?_
  rw [Program.setTerminator, hOpen]

theorem Call.made (h : Call p p') (hp : Made p) : Made p' := by
  cases h with
  | addModule => exact .addModule hp
  | addFunction _ name => exact .addFunction hp _ name
  | setExternal _ flag => exact .setExternal hp _ flag
  | addParam _ name type hint => exact .addParam hp _ name type hint
  | addBlock _ name => exact .addBlock hp _ name
  | constant _ type n => exact .constant hp _ type n
  | emit _ op name type args _ hint callee => exact .emit hp _ op name type args hint callee
  | setHint _ hint => exact .setHint hp _ hint
  | setArg _ h =>
    obtain ⟨s, rfl⟩ := exists_of_setArg h
    exact .modifyInstr hp s _ fun _ => rfl
  | setTerminator _ _ h =>
    rw [eq_of_setTerminator h]
    exact .terminate hp _ _

/-- A value with a site is the result of the instruction there, and terminators and edges agree. -/
structure Linked (p : Program) : Prop where
  site {v : ValueId} {x : Value} {s : Site} : p.values[v]? = some x → x.site = some s →
    ∃ i, p.instr? s = some i ∧ i.result = some v
  succs {q c : BlockId} {t : Terminator} : (p.block q).term = some t → c ∈ t.successors →
    c ∈ (p.block q).succs
  preds {q c : BlockId} : c ∈ (p.block q).succs → q ∈ (p.block c).preds

/-- What a step may do to blocks without touching a terminator or an edge. -/
structure SameEdges (p p' : Program) : Prop where
  term (b : BlockId) : (p'.block b).term = (p.block b).term
  succs (b : BlockId) : (p'.block b).succs = (p.block b).succs
  preds (b : BlockId) : (p'.block b).preds = (p.block b).preds

theorem SameEdges.of_blocks (h : p'.blocks = p.blocks) : SameEdges p p' := by
  refine ⟨fun b => ?_, fun b => ?_, fun b => ?_⟩ <;> rw [block, h] <;> rfl

theorem Linked.step (hp : Linked p) (hEdges : SameEdges p p')
    (hInstrs : ∀ {s i}, p.instr? s = some i → ∃ i', p'.instr? s = some i' ∧ i'.result = i.result)
    (hValues : ∀ {v : ValueId} {x : Value} {s}, p'.values[v]? = some x → x.site = some s →
      (∃ y : Value, p.values[v]? = some y ∧ y.site = some s) ∨
        ∃ i, p'.instr? s = some i ∧ i.result = some v) : Linked p' := by
  refine ⟨fun hx hs => ?_, fun ht hc => ?_, fun hc => ?_⟩
  · rcases hValues hx hs with ⟨y, hy, hSite⟩ | hNew
    · obtain ⟨i, hi, hv⟩ := hp.site hy hSite
      obtain ⟨i', hi', hResult⟩ := hInstrs hi
      exact ⟨i', hi', hResult.trans hv⟩
    · exact hNew
  · rw [hEdges.term] at ht
    rw [hEdges.succs]
    exact hp.succs ht hc
  · rw [hEdges.succs] at hc
    rw [hEdges.preds]
    exact hp.preds hc

/-- A step that changes no block, and adds values without sites. -/
theorem Linked.same (hp : Linked p) (hBlocks : p'.blocks = p.blocks)
    (hValues : ∀ {v : ValueId} {x : Value} {s}, p'.values[v]? = some x → x.site = some s →
      ∃ y : Value, p.values[v]? = some y ∧ y.site = some s) : Linked p' := by
  refine hp.step (.of_blocks hBlocks) (fun {s i} hi => ⟨i, ?_, rfl⟩) fun hx hs => .inl (hValues hx hs)
  rw [instr?, block, hBlocks]
  exact hi

theorem Linked.addValue (hp : Linked p) (f : FuncId) (name : String) (type : IntType)
    (const : Option Int) (hint : Option Hint) :
    Linked ((addValue f name type const hint none).run p).2 := by
  refine hp.same rfl fun {v x s} hx hs => ?_
  change (p.values.push _)[v]? = some x at hx
  rw [Array.getElem?_push] at hx
  split at hx
  · cases hx
    cases hs
  · exact ⟨x, hx, hs⟩

theorem Linked.addParam (hp : Linked p) (f : FuncId) (name : String) (type : IntType)
    (hint : Option Hint) : Linked ((addParam f name type hint).run p).2 :=
  (hp.addValue f name type none hint).same rfl fun hx hs => ⟨_, hx, hs⟩

theorem Linked.constant (hp : Linked p) (f : FuncId) (type : IntType) (n : Int) :
    Linked ((constant f type n).run p).2 := by
  rw [run_constant]
  split
  · exact hp
  · exact hp.addValue f "" type (some n) none

theorem Linked.setHint (hp : Linked p) (v : ValueId) (hint : Option Hint) :
    Linked (p.setHint v hint) := by
  refine hp.same rfl fun {w x s} hx hs => ?_
  rw [Program.setHint, Array.getElem?_modify] at hx
  split at hx
  · obtain ⟨y, hy, rfl⟩ := Option.map_eq_some_iff.mp hx
    exact ⟨y, hy, hs⟩
  · exact ⟨x, hx, hs⟩

theorem Linked.addBlock (hp : Linked p) (f : FuncId) (name : String) :
    Linked ((addBlock f name).run p).2 := by
  have hBlock (b : BlockId) : ((Program.addBlock f name).run p).2.block b =
      if b = p.blocks.size then ⟨f, (p.func f).blocks.size, name, #[], none, [], []⟩
      else p.block b := getD_push _ _ _ _
  have hOutside : p.block p.blocks.size = default := by
    rw [block, Array.getD_eq_getD_getElem?, Array.getElem?_eq_none (Nat.le_refl _)]
    rfl
  refine hp.step ⟨fun b => ?_, fun b => ?_, fun b => ?_⟩ (fun {s i} hi => ⟨i, ?_, rfl⟩)
    fun hx hs => .inl ⟨_, hx, hs⟩
  · rw [hBlock]
    split
    case isTrue h => rw [h, hOutside]; rfl
    case isFalse => rfl
  · rw [hBlock]
    split
    case isTrue h => rw [h, hOutside]; rfl
    case isFalse => rfl
  · rw [hBlock]
    split
    case isTrue h => rw [h, hOutside]; rfl
    case isFalse => rfl
  · rw [instr?, hBlock, if_neg]
    · exact hi
    · intro h
      rw [instr?, h, hOutside] at hi
      cases hi

theorem sameEdges_pushInstr (p : Program) (b : BlockId) (i : Instr) :
    SameEdges p (p.pushInstr b i) :=
  ⟨fun _ => proj_getD_modify _ _ _ Block.term _ fun _ => rfl,
    fun _ => proj_getD_modify _ _ _ Block.succs _ fun _ => rfl,
    fun _ => proj_getD_modify _ _ _ Block.preds _ fun _ => rfl⟩

theorem instr?_pushInstr (p : Program) (b : BlockId) (i : Instr) (s : Site) :
    (p.pushInstr b i).instr? s =
      if s = ⟨b, (p.block b).instrs.size⟩ ∧ b < p.blocks.size then some i else p.instr? s := by
  obtain ⟨c, k⟩ := s
  rw [instr?, pushInstr, block, getD_modify]
  by_cases hb : b = c ∧ c < p.blocks.size
  · obtain ⟨rfl, hc⟩ := hb
    rw [if_pos ⟨rfl, hc⟩, Array.getElem?_push]
    simp only [Site.mk.injEq, true_and, hc, and_true]
    rfl
  · rw [if_neg hb, if_neg]
    · rfl
    · rintro ⟨h, hlt⟩
      cases h
      exact hb ⟨rfl, hlt⟩

theorem Linked.emit (hp : Linked p) (hb : b < p.blocks.size) (op : Opcode) (name : String)
    (type : IntType) (args : List (Option ValueId)) (hint : Option Hint) (callee : Option FuncId) :
    Linked ((emit b op name type args hint callee).run p).2 := by
  have hKept {p' : Program} (hBlocks : p'.blocks = p.blocks) {x : Instr} {s : Site} {i : Instr}
      (hi : p.instr? s = some i) : ∃ i', (p'.pushInstr b x).instr? s = some i' ∧
        i'.result = i.result := by
    have hSame (c : BlockId) : p'.block c = p.block c := by rw [block, hBlocks]; rfl
    refine ⟨i, ?_, rfl⟩
    rw [instr?_pushInstr, if_neg, instr?, hSame]
    · exact hi
    · rintro ⟨rfl, -⟩
      rw [hSame] at hi
      exact Nat.lt_irrefl _ (Array.getElem?_eq_some_iff.mp hi).1
  by_cases hInt : type.isInteger = true
  · rw [run_emit_of_integer hInt]
    refine hp.step ?_ (hKept rfl) fun {v x s} hx hs => ?_
    · have hEdges := sameEdges_pushInstr ((Program.addValue (p.block b).owner name type none hint
        (some ⟨b, (p.block b).instrs.size⟩)).run p).2 b ⟨op, some p.values.size, args, callee⟩
      exact ⟨hEdges.term, hEdges.succs, hEdges.preds⟩
    · change (p.values.push _)[v]? = some x at hx
      rw [Array.getElem?_push] at hx
      split at hx
      case isTrue hv =>
        cases hx
        cases hs
        refine .inr ⟨_, (instr?_pushInstr _ _ _ _).trans (if_pos ⟨rfl, hb⟩), ?_⟩
        rw [hv]
        rfl
      case isFalse => exact .inl ⟨x, hx, hs⟩
  · rw [run_emit_of_not_integer hInt]
    exact hp.step (sameEdges_pushInstr p b _) (hKept rfl) fun hx hs => .inl ⟨_, hx, hs⟩

theorem Linked.modifyInstr (hp : Linked p) (s : Site) {f : Instr → Instr}
    (hf : ∀ i, (f i).result = i.result) : Linked (p.modifyInstr s f) := by
  refine hp.step ⟨fun _ => proj_getD_modify _ _ _ Block.term _ fun _ => rfl,
    fun _ => proj_getD_modify _ _ _ Block.succs _ fun _ => rfl,
    fun _ => proj_getD_modify _ _ _ Block.preds _ fun _ => rfl⟩ (fun {s' i} hi => ?_)
    fun hx hs => .inl ⟨_, hx, hs⟩
  rw [instr?, Program.modifyInstr, block, getD_modify]
  split
  · rw [Array.getElem?_modify]
    split
    · exact ⟨f i, by rw [show (p.blocks.getD s'.block default).instrs[s'.index]? = some i from hi]; rfl,
        hf i⟩
    · exact ⟨i, hi, rfl⟩
  · exact ⟨i, hi, rfl⟩

/-! ### Terminators -/

theorem block_addEdge (p : Program) (source target b : BlockId) :
    (p.addEdge source target).block b = if target ∈ (p.block source).succs then p.block b
      else { p.block b with
        succs := if source = b ∧ b < p.blocks.size then (p.block b).succs ++ [target]
          else (p.block b).succs
        preds := if target = b ∧ b < p.blocks.size then (p.block b).preds ++ [source]
          else (p.block b).preds } := by
  unfold addEdge
  split
  · rfl
  · rw [block, getD_modify, getD_modify, Array.size_modify]
    split_ifs <;> rfl

/-- An edge keeps the edges that there are, and adds itself on both sides. -/
theorem addEdge_edges (hPreds : ∀ {q c}, c ∈ (p.block q).succs → q ∈ (p.block c).preds)
    (source : BlockId) {target : BlockId} (hTarget : target < p.blocks.size) :
    (∀ {q c}, c ∈ ((p.addEdge source target).block q).succs →
      q ∈ ((p.addEdge source target).block c).preds) ∧
    (∀ {q c}, c ∈ (p.block q).succs → c ∈ ((p.addEdge source target).block q).succs) ∧
    (source < p.blocks.size → target ∈ ((p.addEdge source target).block source).succs) := by
  by_cases hMem : target ∈ (p.block source).succs
  · have hSame (b : BlockId) : (p.addEdge source target).block b = p.block b := by
      rw [block_addEdge, if_pos hMem]
    refine ⟨fun {q c} hc => ?_, fun {q c} hc => ?_, fun _ => ?_⟩
    · rw [hSame] at hc ⊢
      exact hPreds hc
    · rw [hSame]
      exact hc
    · rw [hSame]
      exact hMem
  · refine ⟨fun {q c} hc => ?_, fun {q c} hc => ?_, fun hSource => ?_⟩
    · rw [block_addEdge, if_neg hMem] at hc ⊢
      dsimp only at hc ⊢
      split_ifs at hc with hq
      · rcases List.mem_append.mp hc with hc | hc
        · split_ifs
          · exact List.mem_append_left _ (hPreds hc)
          · exact hPreds hc
        · obtain rfl := List.mem_singleton.mp hc
          rw [if_pos ⟨rfl, hTarget⟩]
          exact List.mem_append_right _ (List.mem_singleton.mpr hq.1.symm)
      · split_ifs
        · exact List.mem_append_left _ (hPreds hc)
        · exact hPreds hc
    · rw [block_addEdge, if_neg hMem]
      dsimp only
      split_ifs
      · exact List.mem_append_left _ hc
      · exact hc
    · rw [block_addEdge, if_neg hMem]
      dsimp only
      rw [if_pos ⟨rfl, hSource⟩]
      exact List.mem_append_right _ List.mem_cons_self

theorem size_addEdge (p : Program) (source target : BlockId) :
    (p.addEdge source target).blocks.size = p.blocks.size := by
  unfold addEdge
  split
  · rfl
  · exact Array.size_modify.trans Array.size_modify

/-- A terminator keeps what there is apart from it, and gets an edge to each of its targets. -/
theorem Linked.terminate (hp : Linked p) (hb : b < p.blocks.size)
    (hTargets : ∀ c ∈ t.successors, c < p.blocks.size) : Linked (p.terminate b t) := by
  -- the blocks of `r` keep everything but edges, of which `targets` are still to be added
  have hFold (targets : List BlockId) (hIn : ∀ c ∈ targets, c < p.blocks.size) (r : Program)
      (hSize : r.blocks.size = p.blocks.size)
      (hPreds : ∀ {q c}, c ∈ (r.block q).succs → q ∈ (r.block c).preds) :
      let r' := targets.foldl (fun p target => p.addEdge b target) r
      r'.values = r.values ∧ (∀ c, (r'.block c).term = (r.block c).term) ∧
        (∀ c, (r'.block c).instrs = (r.block c).instrs) ∧
        (∀ {q c}, c ∈ (r'.block q).succs → q ∈ (r'.block c).preds) ∧
        (∀ {q c}, c ∈ (r.block q).succs → c ∈ (r'.block q).succs) ∧
        ∀ c ∈ targets, c ∈ (r'.block b).succs := by
    induction targets generalizing r with
    | nil => exact ⟨rfl, fun _ => rfl, fun _ => rfl, hPreds, fun h => h, nofun⟩
    | cons c targets ih =>
      have hc := hIn c List.mem_cons_self
      obtain ⟨hPreds', hKept, hNew⟩ := addEdge_edges hPreds b (hSize.symm ▸ hc)
      obtain ⟨hv, ht, hi, hp', hs, hAll⟩ := ih (fun c hc => hIn c (List.mem_cons_of_mem _ hc))
        (r.addEdge b c) ((size_addEdge r b c).trans hSize) hPreds'
      refine ⟨hv.trans ?_, fun d => (ht d).trans ?_, fun d => (hi d).trans ?_, hp',
        fun h => hs (hKept h), fun d hd => ?_⟩
      · unfold addEdge
        split <;> rfl
      · exact proj_addEdge Block.term (fun _ _ => rfl) (fun _ _ => rfl) b c d
      · exact proj_addEdge Block.instrs (fun _ _ => rfl) (fun _ _ => rfl) b c d
      · rcases List.mem_cons.mp hd with rfl | hd
        · exact hs (hNew (hSize.symm ▸ hb))
        · exact hAll d hd
  let r : Program := { p with blocks := p.blocks.modify b fun x => { x with term := some t } }
  have hProj {β : Type} (π : Block → β) (hπ : ∀ x term, π { x with term } = π x) (c : BlockId) :
      π (r.block c) = π (p.block c) := proj_getD_modify _ _ _ π _ fun x => hπ x _
  have hSuccs := hProj Block.succs fun _ _ => rfl
  obtain ⟨hv, ht, hi, hPreds, hKept, hAll⟩ := hFold t.successors hTargets r Array.size_modify
    fun {q c} hc => by
      rw [hProj Block.preds fun _ _ => rfl]
      exact hp.preds (hSuccs q ▸ hc)
  refine ⟨fun {v x s} hx hs => ?_, fun {q c u} hu hc => ?_, hPreds⟩
  · obtain ⟨i, hInstr, hResult⟩ := hp.site (hv ▸ hx) hs
    refine ⟨i, ?_, hResult⟩
    change ((p.terminate b t).block s.block).instrs[s.index]? = some i
    rw [show ((p.terminate b t).block s.block).instrs = (p.block s.block).instrs from
      (hi _).trans (hProj Block.instrs (fun _ _ => rfl) _)]
    exact hInstr
  · have hTerm : (r.block q).term = if b = q then some t else (p.block q).term := by
      rw [block, getD_modify]
      by_cases hq : b = q
      · rw [if_pos ⟨hq, hq ▸ hb⟩, if_pos hq]
      · rw [if_neg fun h => hq h.1, if_neg hq]
        rfl
    replace hu := (ht q).symm.trans hu
    rw [hTerm] at hu
    split at hu
    case isTrue hq =>
      cases hu
      exact hq ▸ hAll c hc
    case isFalse => exact hKept ((hSuccs q).symm ▸ hp.succs hu hc)

/-! ### Runs of calls -/

theorem Call.linked (h : Call p p') (hp : Linked p) : Linked p' := by
  cases h with
  | addModule => exact hp.same rfl fun hx hs => ⟨_, hx, hs⟩
  | addFunction _ name => exact hp.same rfl fun hx hs => ⟨_, hx, hs⟩
  | setExternal _ flag => exact hp.same rfl fun hx hs => ⟨_, hx, hs⟩
  | addParam _ name type hint => exact hp.addParam _ name type hint
  | addBlock _ name => exact hp.addBlock _ name
  | constant _ type n => exact hp.constant _ type n
  | emit hb op name type args _ hint callee => exact hp.emit hb op name type args hint callee
  | setHint _ hint => exact hp.setHint _ hint
  | setArg _ h =>
    obtain ⟨s, rfl⟩ := exists_of_setArg h
    exact hp.modifyInstr s fun _ => rfl
  | setTerminator hb hTargets h =>
    rw [eq_of_setTerminator h]
    exact hp.terminate hb hTargets

theorem Constructed.linked (h : Constructed p) : Linked p := by
  induction h with
  | refl => exact ⟨nofun, nofun, nofun⟩
  | tail _ hCall ih => exact hCall.linked ih

/-- A test of a copy of the parameter against ten, in signed integers of eight bits. -/
def guarded : Program :=
  let t : IntType := .signed 8
  let p := ((addFunction 0 "guarded").run start).2
  let p := ((addParam 0 "x" t none).run p).2
  let p := ((constant 0 t 10).run p).2
  let p := ((addBlock 0 "entry").run p).2
  let p := ((addBlock 0 "small").run p).2
  let p := ((addBlock 0 "large").run p).2
  let p := ((emit 0 (.unary .copy) "y" t [some 0] none none).run p).2
  let p := p.terminate 0 (.test (.known .slt) (some 2) (some 1) 1 2)
  let p := p.terminate 1 (.ret [])
  p.terminate 2 (.ret [])

theorem guarded_constructed : Constructed guarded := by
  let t : IntType := .signed 8
  have h : Constructed start := .refl
  have h := h.tail (.addFunction (m := 0) (by decide) "guarded")
  have h := h.tail (.addParam (f := 0) (by decide) "x" t none)
  have h := h.tail (.constant (f := 0) (by decide) t 10)
  have h := h.tail (.addBlock (f := 0) (by decide) "entry")
  have h := h.tail (.addBlock (f := 0) (by decide) "small")
  have h := h.tail (.addBlock (f := 0) (by decide) "large")
  have h := h.tail (.emit (b := 0) (by decide) (.unary .copy) "y" t [some 0] (by decide) none none)
  have h := h.tail (.terminate (b := 0) (t := .test (.known .slt) (some 2) (some 1) 1 2)
    (by decide +kernel) (by decide +kernel) (by decide +kernel))
  have h := h.tail (.terminate (b := 1) (t := .ret []) (by decide +kernel) nofun (by decide +kernel))
  exact h.tail (.terminate (b := 2) (t := .ret []) (by decide +kernel) nofun (by decide +kernel))

end ValueRange.Program
