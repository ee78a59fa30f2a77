import ValueRange.Program.Builder

/-! Programs that are made by the steps that extend programs. A result has its own value, which knows
the place of its instruction, a parameter has its own value too, and neither is a constant. -/

namespace ValueRange.Program

/-- A program that the steps of the builder lead to. An instruction that was emitted may get other
operands or another callee, but not another result. -/
inductive Made : Program → Prop
  | start : Made start
  | addModule {p : Program} (hp : Made p) : Made (addModule.run p).2
  | addFunction {p : Program} (hp : Made p) (m : ModuleId) (name : String) :
      Made ((addFunction m name).run p).2
  | setExternal {p : Program} (hp : Made p) (f : FuncId) (flag : Bool) :
      Made (p.setExternal f flag)
  | addParam {p : Program} (hp : Made p) (f : FuncId) (name : String) (type : IntType)
      (hint : Option Hint) : Made ((addParam f name type hint).run p).2
  | addBlock {p : Program} (hp : Made p) (f : FuncId) (name : String) :
      Made ((addBlock f name).run p).2
  | constant {p : Program} (hp : Made p) (f : FuncId) (type : IntType) (n : Int) :
      Made ((constant f type n).run p).2
  | emit {p : Program} (hp : Made p) (b : BlockId) (op : Opcode) (name : String) (type : IntType)
      (args : List (Option ValueId)) (hint : Option Hint) (callee : Option FuncId) :
      Made ((emit b op name type args hint callee).run p).2
  | setHint {p : Program} (hp : Made p) (v : ValueId) (hint : Option Hint) : Made (p.setHint v hint)
  | modifyInstr {p : Program} (hp : Made p) (s : Site) (f : Instr → Instr)
      (hf : ∀ i, (f i).result = i.result) : Made (p.modifyInstr s f)
  | terminate {p : Program} (hp : Made p) (b : BlockId) (t : Terminator) : Made (p.terminate b t)

/-- The value is not a constant, and is defined at the site, if any. -/
def Slot (p : Program) (v : ValueId) (s : Option Site) : Prop :=
  ∃ x, p.values[v]? = some x ∧ x.const = none ∧ x.site = s

/-- Results and parameters are values of their own. -/
structure Tidy (p : Program) : Prop where
  result {b : BlockId} {k : Nat} {i : Instr} {v : ValueId} : (p.block b).instrs[k]? = some i →
    i.result = some v → p.Slot v (some ⟨b, k⟩)
  param {f : FuncId} {v : ValueId} : v ∈ (p.func f).params → p.Slot v none

section Arrays

variable {α β : Type} (xs : Array α) (j : Nat) (d : α)

theorem getD_modify (i : Nat) (f : α → α) : (xs.modify i f).getD j d =
    if i = j ∧ j < xs.size then f (xs.getD j d) else xs.getD j d := by
  rw [Array.getD_eq_getD_getElem?, Array.getD_eq_getD_getElem?, Array.getElem?_modify]
  by_cases hi : i = j
  · by_cases hj : j < xs.size
    · rw [if_pos hi, if_pos ⟨hi, hj⟩, Array.getElem?_eq_getElem hj]
      rfl
    · rw [if_pos hi, if_neg fun h => hj h.2, Array.getElem?_eq_none (Nat.le_of_not_lt hj)]
      rfl
  · rw [if_neg hi, if_neg fun h => hi h.1]

theorem proj_getD_modify (π : α → β) (i : Nat) {f : α → α} (hf : ∀ x, π (f x) = π x) :
    π ((xs.modify i f).getD j d) = π (xs.getD j d) := by
  rw [getD_modify]
  split
  · exact hf _
  · rfl

theorem getD_push (x : α) : (xs.push x).getD j d = if j = xs.size then x else xs.getD j d := by
  rw [Array.getD_eq_getD_getElem?, Array.getD_eq_getD_getElem?, Array.getElem?_push]
  split <;> rfl

end Arrays

variable {p p' : Program} {v : ValueId} {s : Option Site}

theorem Slot.push (h : p.Slot v s) (x : Value) (hValues : p'.values = p.values.push x) :
    p'.Slot v s := by
  obtain ⟨y, hy, hSlot⟩ := h
  refine ⟨y, ?_, hSlot⟩
  rw [hValues, Array.getElem?_push, if_neg (Nat.ne_of_lt (Array.getElem?_eq_some_iff.mp hy).1), hy]

theorem Slot.const_eq (h : p.Slot v s) : (p.value v).const = none := by
  obtain ⟨x, hx, hConst, -⟩ := h
  rw [value, Array.getD_eq_getD_getElem?, hx]
  exact hConst

/-- A step that keeps the slots, and adds results and parameters with slots of their own, keeps a
program tidy. -/
theorem Tidy.step (hp : Tidy p) (hSlots : ∀ {v s}, p.Slot v s → p'.Slot v s)
    (hResults : ∀ {b k i v}, (p'.block b).instrs[k]? = some i → i.result = some v →
      (∃ i', (p.block b).instrs[k]? = some i' ∧ i'.result = some v) ∨ p'.Slot v (some ⟨b, k⟩))
    (hParams : ∀ {f v}, v ∈ (p'.func f).params → v ∈ (p.func f).params ∨ p'.Slot v none) :
    Tidy p' := by
  refine ⟨fun hi hv => ?_, fun hv => ?_⟩
  · rcases hResults hi hv with ⟨i', hi', hv'⟩ | hSlot
    · exact hSlots (hp.result hi' hv')
    · exact hSlot
  · rcases hParams hv with hv | hSlot
    · exact hSlots (hp.param hv)
    · exact hSlot

/-- A step that changes neither values nor instructions nor parameters. -/
theorem Tidy.same (hp : Tidy p) (hValues : p'.values = p.values)
    (hInstrs : ∀ b, (p'.block b).instrs = (p.block b).instrs)
    (hParams : ∀ f, (p'.func f).params = (p.func f).params) : Tidy p' := by
  refine hp.step (fun h => ?_) (fun hi hv => .inl ?_) fun hv => .inl (hParams _ ▸ hv)
  · unfold Slot
    rw [hValues]
    exact h
  · rw [hInstrs] at hi
    exact ⟨_, hi, hv⟩

section Values

variable (f : FuncId) (name : String) (type : IntType) (const : Option Int) (hint : Option Hint)
variable (site : Option Site)

theorem params_addValue (f' : FuncId) :
    (((addValue f name type const hint site).run p).2.func f').params = (p.func f').params :=
  proj_getD_modify _ _ _ Func.params _ fun _ => rfl

theorem Tidy.addValue (hp : Tidy p) : Tidy ((addValue f name type const hint site).run p).2 :=
  hp.step (fun h => h.push _ rfl) (fun hi hv => .inl ⟨_, hi, hv⟩)
    fun hv => .inl (params_addValue f name type const hint site _ ▸ hv)

/-- The value that is added is in its own slot. -/
theorem slot_addValue : ((addValue f name type none hint site).run p).2.Slot
    ((addValue f name type none hint site).run p).1 site :=
  ⟨_, Array.getElem?_push_size, rfl, rfl⟩

end Values

theorem Tidy.addParam (hp : Tidy p) (f : FuncId) (name : String) (type : IntType)
    (hint : Option Hint) : Tidy ((addParam f name type hint).run p).2 := by
  have hSlot := slot_addValue (p := p) f name type hint none
  have hAdded := hp.addValue f name type none hint none
  generalize hq : (Program.addValue f name type none hint none).run p = q at hSlot hAdded
  have hRun : ((Program.addParam f name type hint).run p).2 = { q.2 with
      functions := q.2.functions.modify f fun x => { x with params := x.params.push q.1 } } := by
    rw [← hq]
    rfl
  rw [hRun]
  refine hAdded.step (fun h => h) (fun hi hv => .inl ⟨_, hi, hv⟩) fun {f' v} hv => ?_
  rw [func, getD_modify] at hv
  split at hv
  · rcases Array.mem_push.mp hv with hv | rfl
    · exact .inl hv
    · exact .inr hSlot
  · exact .inl hv

theorem Tidy.pushInstr (hp : Tidy p) (b : BlockId) (i : Instr)
    (hResult : ∀ v, i.result = some v → p.Slot v (some ⟨b, (p.block b).instrs.size⟩)) :
    Tidy (p.pushInstr b i) := by
  refine hp.step (fun h => h) (fun {c k x v} hx hv => ?_) fun hv => .inl hv
  rw [Program.pushInstr, block, getD_modify] at hx
  split at hx
  case isTrue hc =>
    obtain ⟨rfl, -⟩ := hc
    rw [Array.getElem?_push] at hx
    split at hx
    case isTrue hk =>
      cases hx
      rw [hk]
      exact .inr (hResult v hv)
    case isFalse => exact .inl ⟨x, hx, hv⟩
  case isFalse => exact .inl ⟨x, hx, hv⟩

theorem run_emit_of_integer {type : IntType} (hInt : type.isInteger = true) (b : BlockId)
    (op : Opcode) (name : String) (args : List (Option ValueId)) (hint : Option Hint)
    (callee : Option FuncId) : ((emit b op name type args hint callee).run p).2 =
      let q := (addValue (p.block b).owner name type none hint
        (some ⟨b, (p.block b).instrs.size⟩)).run p
      q.2.pushInstr b ⟨op, some q.1, args, callee⟩ := by
  simp only [emit, hInt]
  rfl

theorem run_emit_of_not_integer {type : IntType} (hInt : ¬ type.isInteger = true) (b : BlockId)
    (op : Opcode) (name : String) (args : List (Option ValueId)) (hint : Option Hint)
    (callee : Option FuncId) : ((emit b op name type args hint callee).run p).2 =
      p.pushInstr b ⟨op, none, args, callee⟩ := by
  simp only [emit, hInt]
  rfl

theorem Tidy.emit (hp : Tidy p) (b : BlockId) (op : Opcode) (name : String) (type : IntType)
    (args : List (Option ValueId)) (hint : Option Hint) (callee : Option FuncId) :
    Tidy ((emit b op name type args hint callee).run p).2 := by
  by_cases hInt : type.isInteger = true
  · rw [run_emit_of_integer hInt]
    refine (hp.addValue _ _ _ _ _ _).pushInstr b _ fun v hv => ?_
    cases hv
    exact slot_addValue _ _ _ _ _
  · rw [run_emit_of_not_integer hInt]
    exact hp.pushInstr b _ nofun

/-- A changed instruction keeps its result. -/
theorem exists_of_modifyInstr {s : Site} {f : Instr → Instr} (hf : ∀ i, (f i).result = i.result)
    {b : BlockId} {k : Nat} {i : Instr} (hi : ((p.modifyInstr s f).block b).instrs[k]? = some i)
    (hv : i.result = some v) : ∃ i', (p.block b).instrs[k]? = some i' ∧ i'.result = some v := by
  rw [modifyInstr, block, getD_modify] at hi
  split at hi
  · rw [Array.getElem?_modify] at hi
    split at hi
    · obtain ⟨old, hOld, rfl⟩ := Option.map_eq_some_iff.mp hi
      exact ⟨old, hOld, hf old ▸ hv⟩
    · exact ⟨i, hi, hv⟩
  · exact ⟨i, hi, hv⟩

theorem Tidy.modifyInstr (hp : Tidy p) (s : Site) (f : Instr → Instr)
    (hf : ∀ i, (f i).result = i.result) : Tidy (p.modifyInstr s f) :=
  hp.step (fun h => h) (fun hi hv => .inl (exists_of_modifyInstr hf hi hv))
    fun hv => .inl hv

theorem Tidy.addFunction (hp : Tidy p) (m : ModuleId) (name : String) :
    Tidy ((addFunction m name).run p).2 := by
  refine hp.step (fun h => h) (fun hi hv => .inl ⟨_, hi, hv⟩) fun {f v} hv => .inl ?_
  change v ∈ (Array.getD (p.functions.push _) f default).params at hv
  rw [getD_push] at hv
  split at hv
  · exact absurd hv (Array.not_mem_empty v)
  · exact hv

theorem Tidy.addBlock (hp : Tidy p) (f : FuncId) (name : String) :
    Tidy ((addBlock f name).run p).2 := by
  refine hp.step (fun h => h) (fun {b k i v} hi hv => .inl ?_) fun {f' v} hv => .inl ?_
  · change (Array.getD (p.blocks.push _) b default).instrs[k]? = some i at hi
    rw [getD_push] at hi
    split at hi
    · cases hi
    · exact ⟨i, hi, hv⟩
  · change v ∈ (Array.getD (p.functions.modify f _) f' default).params at hv
    rw [proj_getD_modify _ _ _ Func.params] at hv
    · exact hv
    · exact fun _ => rfl

theorem Tidy.setHint (hp : Tidy p) (v : ValueId) (hint : Option Hint) : Tidy (p.setHint v hint) := by
  refine hp.step (fun {w s} h => ?_) (fun hi hv => .inl ⟨_, hi, hv⟩) fun hv => .inl hv
  obtain ⟨x, hx, hConst, hSite⟩ := h
  unfold Slot Program.setHint
  rw [Array.getElem?_modify]
  split
  · exact ⟨{ x with hint := hint }, by rw [hx, Option.map_some], hConst, hSite⟩
  · exact ⟨x, hx, hConst, hSite⟩

theorem run_constant (f : FuncId) (type : IntType) (n : Int) :
    ((constant f type n).run p).2 = match p.constant? f type n with
      | some _ => p
      | none => ((addValue f "" type (some n) none none).run p).2 := by
  unfold constant
  change (StateT.run (match p.constant? f type n with
    | some v => (pure v : Builder ValueId)
    | none => addValue f "" type (some n) none none) p).2 = _
  split <;> rfl

theorem Tidy.constant (hp : Tidy p) (f : FuncId) (type : IntType) (n : Int) :
    Tidy ((constant f type n).run p).2 := by
  rw [run_constant]
  split
  · exact hp
  · exact hp.addValue f "" type (some n) none none

/-- An edge changes only the neighbours of blocks. -/
theorem proj_addEdge {β : Type} (π : Block → β) (hSuccs : ∀ x succs, π { x with succs } = π x)
    (hPreds : ∀ x preds, π { x with preds } = π x) (source target b : BlockId) :
    π ((p.addEdge source target).block b) = π (p.block b) := by
  unfold addEdge
  split
  · rfl
  · dsimp only [block]
    rw [proj_getD_modify _ _ _ π _ fun x => hPreds x _,
      proj_getD_modify _ _ _ π _ fun x => hSuccs x _]

theorem Tidy.addEdge (hp : Tidy p) (source target : BlockId) : Tidy (p.addEdge source target) := by
  refine hp.same ?_ (proj_addEdge Block.instrs (fun _ _ => rfl) (fun _ _ => rfl) _ _) fun f => ?_
  · unfold Program.addEdge
    split <;> rfl
  · unfold Program.addEdge
    split <;> rfl

theorem Tidy.terminate (hp : Tidy p) (b : BlockId) (t : Terminator) : Tidy (p.terminate b t) := by
  unfold Program.terminate
  have hTerm : Tidy { p with blocks := p.blocks.modify b fun x => { x with term := some t } } :=
    hp.same rfl (fun c => proj_getD_modify _ _ _ Block.instrs _ fun _ => rfl) fun _ => rfl
  revert hTerm
  generalize { p with blocks := p.blocks.modify b fun x => { x with term := some t } } = q
  intro hq
  induction t.successors generalizing q with
  | nil => exact hq
  | cons c cs ih => exact ih _ (hq.addEdge b c)

/-- The steps of the builder keep a program tidy. -/
theorem Made.tidy (hp : Made p) : Tidy p := by
  induction hp with
  | start => exact ⟨nofun, nofun⟩
  | addModule _ ih => exact ih.same rfl (fun _ => rfl) fun _ => rfl
  | addFunction _ m name ih => exact ih.addFunction m name
  | setExternal _ f flag ih =>
    exact ih.same rfl (fun _ => rfl) fun _ => proj_getD_modify _ _ _ Func.params _ fun _ => rfl
  | addParam _ f name type hint ih => exact ih.addParam f name type hint
  | addBlock _ f name ih => exact ih.addBlock f name
  | constant _ f type n ih => exact ih.constant f type n
  | emit _ b op name type args hint callee ih => exact ih.emit b op name type args hint callee
  | setHint _ v hint ih => exact ih.setHint v hint
  | modifyInstr _ s f hf ih => exact ih.modifyInstr s f hf
  | terminate _ b t ih => exact ih.terminate b t

/-- A value is the result of at most one instruction. -/
theorem Tidy.site_eq (hp : Tidy p) {b b' : BlockId} {k k' : Nat} {i i' : Instr}
    (hi : (p.block b).instrs[k]? = some i) (hi' : (p.block b').instrs[k']? = some i')
    (hv : i.result = some v) (hv' : i'.result = some v) : (⟨b', k'⟩ : Site) = ⟨b, k⟩ := by
  obtain ⟨y, hy, -, hSite⟩ := hp.result hi hv
  obtain ⟨y', hy', -, hSite'⟩ := hp.result hi' hv'
  cases hy.symm.trans hy'
  exact Option.some.inj (hSite'.symm.trans hSite)

theorem Tidy.block_eq (hp : Tidy p) {b b' : BlockId} {i i' : Instr}
    (hi : i ∈ (p.block b).instrs) (hi' : i' ∈ (p.block b').instrs) (hv : i.result = some v)
    (hv' : i'.result = some v) : b' = b := by
  obtain ⟨k, hk⟩ := Array.mem_iff_getElem?.mp hi
  obtain ⟨k', hk'⟩ := Array.mem_iff_getElem?.mp hi'
  exact congrArg Site.block (hp.site_eq hk hk' hv hv')

/-- A parameter is no result. -/
theorem Tidy.param_ne_result (hp : Tidy p) {f : FuncId} {b : BlockId} {i : Instr}
    (hv : v ∈ (p.func f).params) (hi : i ∈ (p.block b).instrs) : i.result ≠ some v := by
  intro hResult
  obtain ⟨k, hk⟩ := Array.mem_iff_getElem?.mp hi
  obtain ⟨x, hx, -, hSite⟩ := hp.result hk hResult
  obtain ⟨x', hx', -, hSite'⟩ := hp.param hv
  cases hx.symm.trans hx'
  cases hSite.symm.trans hSite'

/-! ### Functions and their blocks -/

/-- A block belongs to the function that lists it, which lists the results of its instructions. -/
structure Housed (p : Program) : Prop where
  owner {f : FuncId} {b : BlockId} : b ∈ (p.func f).blocks →
    b < p.blocks.size ∧ (p.block b).owner = f
  values {f : FuncId} {b : BlockId} {k : Nat} {i : Instr} {v : ValueId} : b ∈ (p.func f).blocks →
    (p.block b).instrs[k]? = some i → i.result = some v → v ∈ (p.func f).values

theorem Housed.step (hp : Housed p)
    (hBlocks : ∀ {f b}, b ∈ (p'.func f).blocks → b ∈ (p.func f).blocks ∨
      (b < p'.blocks.size ∧ (p'.block b).owner = f ∧ (p'.block b).instrs = #[]))
    (hKept : ∀ {b}, b < p.blocks.size →
      b < p'.blocks.size ∧ (p'.block b).owner = (p.block b).owner)
    (hValues : ∀ {f v}, v ∈ (p.func f).values → v ∈ (p'.func f).values)
    (hResults : ∀ {f b} {k : Nat} {i : Instr} {v}, b ∈ (p.func f).blocks →
      (p'.block b).instrs[k]? = some i → i.result = some v →
      (∃ i', (p.block b).instrs[k]? = some i' ∧ i'.result = some v) ∨ v ∈ (p'.func f).values) :
    Housed p' := by
  refine ⟨fun hb => ?_, fun hb hi hv => ?_⟩
  · rcases hBlocks hb with hb | ⟨hlt, hOwner, -⟩
    · obtain ⟨hlt, hOwner⟩ := hp.owner hb
      exact ⟨(hKept hlt).1, (hKept hlt).2.trans hOwner⟩
    · exact ⟨hlt, hOwner⟩
  · rcases hBlocks hb with hb | ⟨-, -, hNone⟩
    · rcases hResults hb hi hv with ⟨i', hi', hv'⟩ | hv
      · exact hValues (hp.values hb hi' hv')
      · exact hv
    · rw [hNone] at hi
      cases hi

/-- A step that changes neither functions nor blocks. -/
theorem Housed.same (hp : Housed p) (hSize : p'.blocks.size = p.blocks.size)
    (hBlocks : ∀ f, (p'.func f).blocks = (p.func f).blocks)
    (hFunctions : ∀ f, (p'.func f).values = (p.func f).values)
    (hOwners : ∀ b, (p'.block b).owner = (p.block b).owner)
    (hInstrs : ∀ b, (p'.block b).instrs = (p.block b).instrs) : Housed p' :=
  hp.step (fun hb => .inl (hBlocks _ ▸ hb)) (fun hb => ⟨hSize ▸ hb, hOwners _⟩)
    (fun hv => hFunctions _ ▸ hv) fun _ hi hv => .inl ⟨_, hInstrs _ ▸ hi, hv⟩

theorem lt_of_mem_blocks {f : FuncId} {b : BlockId} (hb : b ∈ (p.func f).blocks) :
    f < p.functions.size := by
  refine Nat.lt_of_not_le fun hf => ?_
  rw [func, Array.getD_eq_getD_getElem?, Array.getElem?_eq_none hf] at hb
  exact Array.not_mem_empty b hb

section Values

variable (f : FuncId) (name : String) (type : IntType) (const : Option Int) (hint : Option Hint)
variable (site : Option Site)

theorem values_addValue (f' : FuncId) :
    (((addValue f name type const hint site).run p).2.func f').values =
      if f = f' ∧ f' < p.functions.size then (p.func f').values.push p.values.size
      else (p.func f').values := by
  change (Array.getD (p.functions.modify f _) f' default).values = _
  rw [getD_modify]
  split <;> rfl

theorem blocks_addValue (f' : FuncId) :
    (((addValue f name type const hint site).run p).2.func f').blocks = (p.func f').blocks :=
  proj_getD_modify _ _ _ Func.blocks _ fun _ => rfl

theorem Housed.addValue (hp : Housed p) :
    Housed ((addValue f name type const hint site).run p).2 := by
  refine hp.step (fun hb => .inl ?_) (fun hb => ⟨hb, rfl⟩) (fun {f' v} hv => ?_)
    fun _ hi hv => .inl ⟨_, hi, hv⟩
  · rwa [blocks_addValue] at hb
  · rw [values_addValue]
    split
    · exact Array.mem_push_of_mem _ hv
    · exact hv

end Values

theorem Housed.addParam (hp : Housed p) (f : FuncId) (name : String) (type : IntType)
    (hint : Option Hint) : Housed ((addParam f name type hint).run p).2 := by
  have hAdded := hp.addValue f name type none hint none
  generalize hq : (Program.addValue f name type none hint none).run p = q at hAdded
  have hRun : ((Program.addParam f name type hint).run p).2 = { q.2 with
      functions := q.2.functions.modify f fun x => { x with params := x.params.push q.1 } } := by
    rw [← hq]
    rfl
  rw [hRun]
  exact hAdded.same rfl (fun _ => proj_getD_modify _ _ _ Func.blocks _ fun _ => rfl)
    (fun _ => proj_getD_modify _ _ _ Func.values _ fun _ => rfl) (fun _ => rfl) fun _ => rfl

theorem Housed.pushInstr (hp : Housed p) (b : BlockId) (i : Instr)
    (hResult : ∀ v, i.result = some v → ∀ f, b ∈ (p.func f).blocks → v ∈ (p.func f).values) :
    Housed (p.pushInstr b i) := by
  refine hp.step (fun hb => .inl hb) (fun {c} hc => ⟨?_, ?_⟩) (fun hv => hv)
    fun {f c k x v} hc hx hv => ?_
  · exact Nat.lt_of_lt_of_eq hc Array.size_modify.symm
  · exact proj_getD_modify _ _ _ Block.owner _ fun _ => rfl
  · rw [Program.pushInstr, block, getD_modify] at hx
    split at hx
    case isTrue hEq =>
      obtain ⟨rfl, -⟩ := hEq
      rw [Array.getElem?_push] at hx
      split at hx
      case isTrue =>
        cases hx
        exact .inr (hResult v hv f hc)
      case isFalse => exact .inl ⟨x, hx, hv⟩
    case isFalse => exact .inl ⟨x, hx, hv⟩

theorem Housed.emit (hp : Housed p) (b : BlockId) (op : Opcode) (name : String) (type : IntType)
    (args : List (Option ValueId)) (hint : Option Hint) (callee : Option FuncId) :
    Housed ((emit b op name type args hint callee).run p).2 := by
  by_cases hInt : type.isInteger = true
  · rw [run_emit_of_integer hInt]
    refine (hp.addValue _ _ _ _ _ _).pushInstr b _ fun v hv f hb => ?_
    rw [blocks_addValue] at hb
    cases hv
    rw [values_addValue, if_pos ⟨(hp.owner hb).2, lt_of_mem_blocks hb⟩]
    exact Array.mem_push_self
  · rw [run_emit_of_not_integer hInt]
    exact hp.pushInstr b _ nofun

theorem Housed.modifyInstr (hp : Housed p) (s : Site) (f : Instr → Instr)
    (hf : ∀ i, (f i).result = i.result) : Housed (p.modifyInstr s f) := by
  refine hp.step (fun hb => .inl hb) (fun {c} hc => ⟨?_, ?_⟩) (fun hv => hv)
    fun _ hi hv => .inl (exists_of_modifyInstr hf hi hv)
  · exact Nat.lt_of_lt_of_eq hc Array.size_modify.symm
  · exact proj_getD_modify _ _ _ Block.owner _ fun _ => rfl

theorem Housed.addFunction (hp : Housed p) (m : ModuleId) (name : String) :
    Housed ((addFunction m name).run p).2 := by
  have hFunc (f : FuncId) : ((Program.addFunction m name).run p).2.func f =
      if f = p.functions.size then ⟨name, #[], #[], false, #[], m⟩ else p.func f :=
    getD_push _ _ _ _
  refine hp.step (fun {f b} hb => .inl ?_) (fun hb => ⟨hb, rfl⟩) (fun {f v} hv => ?_)
    fun _ hi hv => .inl ⟨_, hi, hv⟩
  · rw [hFunc] at hb
    split at hb
    · exact absurd hb (Array.not_mem_empty b)
    · exact hb
  · rw [hFunc]
    split
    case isTrue hf =>
      rw [func, Array.getD_eq_getD_getElem?, Array.getElem?_eq_none (Nat.le_of_eq hf.symm)] at hv
      exact absurd hv (Array.not_mem_empty v)
    case isFalse => exact hv

theorem Housed.addBlock (hp : Housed p) (f : FuncId) (name : String) :
    Housed ((addBlock f name).run p).2 := by
  have hBlock (b : BlockId) : ((Program.addBlock f name).run p).2.block b =
      if b = p.blocks.size then ⟨f, (p.func f).blocks.size, name, #[], none, [], []⟩
      else p.block b := getD_push _ _ _ _
  have hSize : ((Program.addBlock f name).run p).2.blocks.size = p.blocks.size + 1 :=
    Array.size_push _
  have hFunc (f' : FuncId) : ((Program.addBlock f name).run p).2.func f' =
      if f = f' ∧ f' < p.functions.size then
        { p.func f' with blocks := (p.func f').blocks.push p.blocks.size }
      else p.func f' := getD_modify _ _ _ _ _
  refine hp.step (fun {f' b} hb => ?_) (fun {b} hb => ?_) (fun {f' v} hv => ?_)
    fun {f' b k i v} hb hi hv => .inl ⟨i, ?_, hv⟩
  · rw [hFunc] at hb
    split at hb
    case isTrue hf =>
      rcases Array.mem_push.mp hb with hb | rfl
      · exact .inl hb
      · rw [hBlock, if_pos rfl, hSize]
        exact .inr ⟨Nat.lt_succ_self _, hf.1, rfl⟩
    case isFalse => exact .inl hb
  · rw [hBlock, if_neg (Nat.ne_of_lt hb), hSize]
    exact ⟨Nat.lt_succ_of_lt hb, rfl⟩
  · rw [hFunc]
    split <;> exact hv
  · rwa [hBlock, if_neg (Nat.ne_of_lt (hp.owner hb).1)] at hi

theorem Housed.constant (hp : Housed p) (f : FuncId) (type : IntType) (n : Int) :
    Housed ((constant f type n).run p).2 := by
  rw [run_constant]
  split
  · exact hp
  · exact hp.addValue f "" type (some n) none none

theorem Housed.addEdge (hp : Housed p) (source target : BlockId) :
    Housed (p.addEdge source target) := by
  refine hp.same ?_ (fun f => ?_) (fun f => ?_)
    (proj_addEdge Block.owner (fun _ _ => rfl) (fun _ _ => rfl) _ _)
    (proj_addEdge Block.instrs (fun _ _ => rfl) (fun _ _ => rfl) _ _)
  all_goals unfold Program.addEdge
  · split
    · rfl
    · exact Array.size_modify.trans Array.size_modify
  · split <;> rfl
  · split <;> rfl

theorem Housed.terminate (hp : Housed p) (b : BlockId) (t : Terminator) :
    Housed (p.terminate b t) := by
  unfold Program.terminate
  have hTerm : Housed { p with blocks := p.blocks.modify b fun x => { x with term := some t } } :=
    hp.same Array.size_modify (fun _ => rfl) (fun _ => rfl)
      (fun _ => proj_getD_modify _ _ _ Block.owner _ fun _ => rfl)
      fun _ => proj_getD_modify _ _ _ Block.instrs _ fun _ => rfl
  revert hTerm
  generalize { p with blocks := p.blocks.modify b fun x => { x with term := some t } } = q
  intro hq
  induction t.successors generalizing q with
  | nil => exact hq
  | cons c cs ih => exact ih _ (hq.addEdge b c)

/-- The steps of the builder keep blocks and results with their functions. -/
theorem Made.housed (hp : Made p) : Housed p := by
  induction hp with
  | start => exact ⟨nofun, nofun⟩
  | addModule _ ih =>
    exact ih.same rfl (fun _ => rfl) (fun _ => rfl) (fun _ => rfl) fun _ => rfl
  | addFunction _ m name ih => exact ih.addFunction m name
  | setExternal _ f flag ih =>
    exact ih.same rfl (fun _ => proj_getD_modify _ _ _ Func.blocks _ fun _ => rfl)
      (fun _ => proj_getD_modify _ _ _ Func.values _ fun _ => rfl) (fun _ => rfl) fun _ => rfl
  | addParam _ f name type hint ih => exact ih.addParam f name type hint
  | addBlock _ f name ih => exact ih.addBlock f name
  | constant _ f type n ih => exact ih.constant f type n
  | emit _ b op name type args hint callee ih => exact ih.emit b op name type args hint callee
  | setHint _ v hint ih =>
    exact ih.same rfl (fun _ => rfl) (fun _ => rfl) (fun _ => rfl) fun _ => rfl
  | modifyInstr _ s f hf ih => exact ih.modifyInstr s f hf
  | terminate _ b t ih => exact ih.terminate b t

/-! ### Places -/

/-- The lists of functions and modules hold places that exist, and blocks and functions stand in them
once. -/
structure Numbered (p : Program) : Prop where
  value_lt {f : FuncId} {v : ValueId} : v ∈ (p.func f).values → v < p.values.size
  block_lt {f : FuncId} {b : BlockId} : b ∈ (p.func f).blocks → b < p.blocks.size
  func_lt {m : ModuleId} {f : FuncId} : f ∈ (p.moduleAt m).functions → f < p.functions.size
  blocks (f : FuncId) : (p.func f).blocks.toList.Nodup
  functions (m : ModuleId) : (p.moduleAt m).functions.toList.Nodup

/-- A list with a new place at its end. -/
theorem nodup_push {xs : Array Nat} {n : Nat} (h : xs.toList.Nodup) (hn : ∀ x ∈ xs, x < n) :
    (xs.push n).toList.Nodup := by
  rw [Array.toList_push, List.nodup_append]
  refine ⟨h, List.pairwise_singleton _ n, fun x hx y hy => ?_⟩
  rw [List.mem_singleton.mp hy]
  exact Nat.ne_of_lt (hn x (Array.mem_toList_iff.mp hx))

/-- A step that lists nothing new. -/
theorem Numbered.same (hp : Numbered p) (hValues : p.values.size ≤ p'.values.size)
    (hBlocks : p.blocks.size ≤ p'.blocks.size) (hFunctions : p.functions.size ≤ p'.functions.size)
    (hFuncValues : ∀ f, (p'.func f).values = (p.func f).values)
    (hFuncBlocks : ∀ f, (p'.func f).blocks = (p.func f).blocks)
    (hModules : ∀ m, (p'.moduleAt m).functions = (p.moduleAt m).functions) : Numbered p' where
  value_lt hv := Nat.lt_of_lt_of_le (hp.value_lt (hFuncValues _ ▸ hv)) hValues
  block_lt hb := Nat.lt_of_lt_of_le (hp.block_lt (hFuncBlocks _ ▸ hb)) hBlocks
  func_lt hf := Nat.lt_of_lt_of_le (hp.func_lt (hModules _ ▸ hf)) hFunctions
  blocks f := hFuncBlocks f ▸ hp.blocks f
  functions m := hModules m ▸ hp.functions m

theorem Numbered.addValue (hp : Numbered p) (f : FuncId) (name : String) (type : IntType)
    (const : Option Int) (hint : Option Hint) (site : Option Site) :
    Numbered ((addValue f name type const hint site).run p).2 := by
  have hSize : ((Program.addValue f name type const hint site).run p).2.values.size =
      p.values.size + 1 := Array.size_push _
  have hFunctions : ((Program.addValue f name type const hint site).run p).2.functions.size =
      p.functions.size := Array.size_modify
  have hModules (m : ModuleId) : (((Program.addValue f name type const hint site).run p).2.moduleAt
      m).functions = (p.moduleAt m).functions :=
    proj_getD_modify _ _ _ Module.functions _ fun _ => rfl
  refine ⟨fun {f' v} hv => ?_, fun hb => ?_, fun {m f'} hf => ?_, fun f' => ?_, fun m => ?_⟩
  · rw [hSize]
    rw [values_addValue] at hv
    split at hv
    · rcases Array.mem_push.mp hv with hv | rfl
      · exact Nat.lt_succ_of_lt (hp.value_lt hv)
      · exact Nat.lt_succ_self _
    · exact Nat.lt_succ_of_lt (hp.value_lt hv)
  · rw [blocks_addValue] at hb
    exact hp.block_lt hb
  · rw [hFunctions]
    exact hp.func_lt (hModules m ▸ hf)
  · rw [blocks_addValue]
    exact hp.blocks f'
  · rw [hModules]
    exact hp.functions m

theorem Numbered.addParam (hp : Numbered p) (f : FuncId) (name : String) (type : IntType)
    (hint : Option Hint) : Numbered ((addParam f name type hint).run p).2 := by
  refine (hp.addValue f name type none hint none).same (Nat.le_refl _) (Nat.le_refl _)
    (Nat.le_of_eq Array.size_modify.symm) (fun _ => ?_) (fun _ => ?_) fun _ => rfl
  · exact proj_getD_modify _ _ _ Func.values _ fun _ => rfl
  · exact proj_getD_modify _ _ _ Func.blocks _ fun _ => rfl

theorem Numbered.constant (hp : Numbered p) (f : FuncId) (type : IntType) (n : Int) :
    Numbered ((constant f type n).run p).2 := by
  rw [run_constant]
  split
  · exact hp
  · exact hp.addValue f "" type (some n) none none

theorem Numbered.modifyBlock (hp : Numbered p) (b : BlockId) (f : Block → Block) :
    Numbered { p with blocks := p.blocks.modify b f } :=
  hp.same (Nat.le_refl _) (Nat.le_of_eq Array.size_modify.symm) (Nat.le_refl _) (fun _ => rfl)
    (fun _ => rfl) fun _ => rfl

theorem Numbered.emit (hp : Numbered p) (b : BlockId) (op : Opcode) (name : String) (type : IntType)
    (args : List (Option ValueId)) (hint : Option Hint) (callee : Option FuncId) :
    Numbered ((emit b op name type args hint callee).run p).2 := by
  by_cases hInt : type.isInteger = true
  · rw [run_emit_of_integer hInt]
    exact (hp.addValue _ _ _ _ _ _).modifyBlock b _
  · rw [run_emit_of_not_integer hInt]
    exact hp.modifyBlock b _

theorem Numbered.addFunction (hp : Numbered p) (m : ModuleId) (name : String) :
    Numbered ((addFunction m name).run p).2 := by
  have hFunc (f : FuncId) : ((Program.addFunction m name).run p).2.func f =
      if f = p.functions.size then ⟨name, #[], #[], false, #[], m⟩ else p.func f :=
    getD_push _ _ _ _
  have hSize : ((Program.addFunction m name).run p).2.functions.size = p.functions.size + 1 :=
    Array.size_push _
  have hModule (m' : ModuleId) : ((Program.addFunction m name).run p).2.moduleAt m' =
      if m = m' ∧ m' < p.modules.size then
        { p.moduleAt m' with functions := (p.moduleAt m').functions.push p.functions.size }
      else p.moduleAt m' := getD_modify _ _ _ _ _
  refine ⟨fun {f v} hv => ?_, fun {f b} hb => ?_, fun {m' f} hf => ?_, fun f => ?_, fun m' => ?_⟩
  · rw [hFunc] at hv
    split at hv
    · exact absurd hv (Array.not_mem_empty v)
    · exact hp.value_lt hv
  · rw [hFunc] at hb
    split at hb
    · exact absurd hb (Array.not_mem_empty b)
    · exact hp.block_lt hb
  · rw [hSize]
    rw [hModule] at hf
    split at hf
    · rcases Array.mem_push.mp hf with hf | rfl
      · exact Nat.lt_succ_of_lt (hp.func_lt hf)
      · exact Nat.lt_succ_self _
    · exact Nat.lt_succ_of_lt (hp.func_lt hf)
  · rw [hFunc]
    split
    · exact List.nodup_nil
    · exact hp.blocks f
  · rw [hModule]
    split
    · exact nodup_push (hp.functions m') fun f hf => hp.func_lt hf
    · exact hp.functions m'

theorem Numbered.addBlock (hp : Numbered p) (f : FuncId) (name : String) :
    Numbered ((addBlock f name).run p).2 := by
  have hSize : ((Program.addBlock f name).run p).2.blocks.size = p.blocks.size + 1 :=
    Array.size_push _
  have hFunctions : ((Program.addBlock f name).run p).2.functions.size = p.functions.size :=
    Array.size_modify
  have hFunc (f' : FuncId) : ((Program.addBlock f name).run p).2.func f' =
      if f = f' ∧ f' < p.functions.size then
        { p.func f' with blocks := (p.func f').blocks.push p.blocks.size }
      else p.func f' := getD_modify _ _ _ _ _
  refine ⟨fun {f' v} hv => ?_, fun {f' b} hb => ?_, fun hf => ?_, fun f' => ?_, hp.functions⟩
  · rw [hFunc] at hv
    split at hv <;> exact hp.value_lt hv
  · rw [hSize]
    rw [hFunc] at hb
    split at hb
    · rcases Array.mem_push.mp hb with hb | rfl
      · exact Nat.lt_succ_of_lt (hp.block_lt hb)
      · exact Nat.lt_succ_self _
    · exact Nat.lt_succ_of_lt (hp.block_lt hb)
  · rw [hFunctions]
    exact hp.func_lt hf
  · rw [hFunc]
    split
    · exact nodup_push (hp.blocks f') fun b hb => hp.block_lt hb
    · exact hp.blocks f'

theorem Numbered.terminate (hp : Numbered p) (b : BlockId) (t : Terminator) :
    Numbered (p.terminate b t) := by
  unfold Program.terminate
  have hTerm := hp.modifyBlock b fun x => { x with term := some t }
  revert hTerm
  generalize { p with blocks := p.blocks.modify b fun x => { x with term := some t } } = q
  intro hq
  induction t.successors generalizing q with
  | nil => exact hq
  | cons c cs ih =>
    refine ih (q.addEdge b c) ?_
    unfold addEdge
    split
    · exact hq
    · exact (hq.modifyBlock b fun x => { x with succs := x.succs ++ [c] }).modifyBlock c
        fun x => { x with preds := x.preds ++ [b] }

/-- The steps of the builder list places that exist. -/
theorem Made.numbered (hp : Made p) : Numbered p := by
  induction hp with
  | start =>
    refine ⟨nofun, nofun, fun {m f} hf => ?_, fun _ => List.nodup_nil, fun m => ?_⟩
    · match m with
      | 0 => exact absurd hf (Array.not_mem_empty f)
      | _ + 1 => exact absurd hf (Array.not_mem_empty f)
    · match m with
      | 0 => exact List.nodup_nil
      | _ + 1 => exact List.nodup_nil
  | @addModule p _ ih =>
    have hModule (m : ModuleId) : (Program.moduleAt (Program.addModule.run p).2 m).functions =
        (p.moduleAt m).functions := by
      change (Array.getD (p.modules.push ⟨#[], 0⟩) m default).functions = _
      rw [getD_push]
      split
      case isTrue hm =>
        rw [moduleAt, Array.getD_eq_getD_getElem?, Array.getElem?_eq_none (Nat.le_of_eq hm.symm)]
        rfl
      case isFalse => rfl
    exact ih.same (Nat.le_refl _) (Nat.le_refl _) (Nat.le_refl _) (fun _ => rfl) (fun _ => rfl)
      hModule
  | addFunction _ m name ih => exact ih.addFunction m name
  | setExternal _ f flag ih =>
    exact ih.same (Nat.le_refl _) (Nat.le_refl _) (Nat.le_of_eq Array.size_modify.symm)
      (fun _ => proj_getD_modify _ _ _ Func.values _ fun _ => rfl)
      (fun _ => proj_getD_modify _ _ _ Func.blocks _ fun _ => rfl) fun _ => rfl
  | addParam _ f name type hint ih => exact ih.addParam f name type hint
  | addBlock _ f name ih => exact ih.addBlock f name
  | constant _ f type n ih => exact ih.constant f type n
  | emit _ b op name type args hint callee ih => exact ih.emit b op name type args hint callee
  | setHint _ v hint ih =>
    exact ih.same (Nat.le_of_eq Array.size_modify.symm) (Nat.le_refl _) (Nat.le_refl _)
      (fun _ => rfl) (fun _ => rfl) fun _ => rfl
  | modifyInstr _ s f _ ih => exact ih.modifyBlock _ _
  | terminate _ b t ih => exact ih.terminate b t

/-- A loop that counts up to its parameter, in signed integers of eight bits. -/
def counting : Program :=
  let t : IntType := .signed 8
  let p := ((addFunction 0 "counting").run start).2
  let p := ((addParam 0 "n" t none).run p).2
  let p := ((constant 0 t 0).run p).2
  let p := ((constant 0 t 1).run p).2
  let p := ((addBlock 0 "entry").run p).2
  let p := ((addBlock 0 "loop").run p).2
  let p := ((addBlock 0 "body").run p).2
  let p := ((addBlock 0 "exit").run p).2
  let p := ((emit 1 .phi "i" t [some 1, some 5] none none).run p).2
  let p := ((emit 2 .sigma "i.t" t [some 3] none none).run p).2
  let p := ((emit 2 (.binary .add) "next" t [some 4, some 2] none none).run p).2
  let p := p.terminate 0 (.jump 1)
  let p := p.terminate 1 (.test (.known .slt) (some 3) (some 0) 2 3)
  let p := p.terminate 2 (.jump 1)
  p.terminate 3 (.ret [])

theorem counting_made : counting.Made :=
  .terminate (.terminate (.terminate (.terminate (.emit (.emit (.emit (.addBlock (.addBlock
    (.addBlock (.addBlock (.constant (.constant (.addParam (.addFunction .start 0 _) 0 _ _ _) 0 _ _)
    0 _ _) 0 _) 0 _) 0 _) 0 _) 1 _ _ _ _ _ _) 2 _ _ _ _ _ _) 2 _ _ _ _ _ _) 0 _) 1 _) 2 _) 3 _

/-- A loop that counts down from five while it does not pass zero, in unsigned integers of eight
bits. -/
def descending : Program :=
  let t : IntType := ⟨8, true⟩
  let p := ((addFunction 0 "descending").run start).2
  let p := ((constant 0 t 5).run p).2
  let p := ((constant 0 t 0).run p).2
  let p := ((constant 0 t 1).run p).2
  let p := ((addBlock 0 "entry").run p).2
  let p := ((addBlock 0 "loop").run p).2
  let p := ((addBlock 0 "body").run p).2
  let p := ((addBlock 0 "exit").run p).2
  let p := ((emit 1 .phi "i" t [some 0, some 6] none none).run p).2
  let p := ((emit 1 (.binary .mul) "j" t [some 3, some 1] none none).run p).2
  let p := ((emit 2 .sigma "i.t" t [some 3] none none).run p).2
  let p := ((emit 2 (.binary .sub) "next" t [some 5, some 2] none none).run p).2
  let p := p.terminate 0 (.jump 1)
  let p := p.terminate 1 (.test (.known .sge) (some 3) (some 4) 2 3)
  let p := p.terminate 2 (.jump 1)
  p.terminate 3 (.ret [])

theorem descending_made : descending.Made :=
  .terminate (.terminate (.terminate (.terminate (.emit (.emit (.emit (.emit (.addBlock (.addBlock
    (.addBlock (.addBlock (.constant (.constant (.constant (.addFunction .start 0 _) 0 _ _) 0 _ _)
    0 _ _) 0 _) 0 _) 0 _) 0 _) 1 _ _ _ _ _ _) 1 _ _ _ _ _ _) 2 _ _ _ _ _ _) 2 _ _ _ _ _ _) 0 _)
    1 _) 2 _) 3 _

end ValueRange.Program
