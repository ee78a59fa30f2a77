import ValueRange.Proofs.Program.Completeness

/-! The layout of a program. Calls of the builder keep the neighbours of blocks in step with their
terminators, blocks at their positions, the numbers of values apart, and one constant for each
function, type and integer. -/

namespace ValueRange.Program

variable {p p' q : Program} {f f' : FuncId} {b c : BlockId} {v w : ValueId} {t : Terminator}
  {type : IntType} {n : Int}

/-! ### Changes -/

/-- The programs differ at most in instructions, parameters, hints, sites, and names. -/
structure SameOutline (p p' : Program) : Prop extends SameEdges p p' where
  modules : p'.modules = p.modules
  functions : p'.functions.size = p.functions.size
  blocks : p'.blocks.size = p.blocks.size
  values : p'.values.size = p.values.size
  home (f : FuncId) : (p'.func f).home = (p.func f).home
  funcBlocks (f : FuncId) : (p'.func f).blocks = (p.func f).blocks
  funcValues (f : FuncId) : (p'.func f).values = (p.func f).values
  blockOwner (b : BlockId) : (p'.block b).owner = (p.block b).owner
  index (b : BlockId) : (p'.block b).index = (p.block b).index
  valueOwner (v : ValueId) : (p'.value v).owner = (p.value v).owner
  number (v : ValueId) : (p'.value v).number = (p.value v).number
  type (v : ValueId) : p'.typeOf v = p.typeOf v
  const (v : ValueId) : (p'.value v).const = (p.value v).const

/-- The changes to the outline of a program that calls are made of. A constant is added only if there
is none like it. -/
inductive Change (p : Program) : Program → Prop
  | addModule : Change p (addModule.run p).2
  | addFunction {m : ModuleId} (hm : m < p.modules.size) (name : String) :
      Change p ((addFunction m name).run p).2
  | addBlock {f : FuncId} (hf : f < p.functions.size) (name : String) :
      Change p ((addBlock f name).run p).2
  | addValue {f : FuncId} (hf : f < p.functions.size) (name : String) (type : IntType)
      (const : Option Int) (hint : Option Hint) (site : Option Site)
      (hNew : ∀ n ∈ const, p.constant? f type n = none) :
      Change p ((addValue f name type const hint site).run p).2
  | terminate {b : BlockId} {t : Terminator} (hb : b < p.blocks.size)
      (hTargets : ∀ c ∈ t.successors, c < p.blocks.size) (hOpen : (p.block b).term = none) :
      Change p (p.terminate b t)
  | touch {p' : Program} (h : SameOutline p p') : Change p p'

theorem sameOutline_modifyFunction (p : Program) (f : FuncId) {change : Func → Func}
    (hHome : ∀ x, (change x).home = x.home) (hBlocks : ∀ x, (change x).blocks = x.blocks)
    (hValues : ∀ x, (change x).values = x.values) :
    SameOutline p { p with functions := p.functions.modify f change } where
  toSameEdges := .of_blocks rfl
  modules := rfl
  functions := Array.size_modify
  blocks := rfl
  values := rfl
  home _ := proj_getD_modify _ _ _ Func.home _ hHome
  funcBlocks _ := proj_getD_modify _ _ _ Func.blocks _ hBlocks
  funcValues _ := proj_getD_modify _ _ _ Func.values _ hValues
  blockOwner _ := rfl
  index _ := rfl
  valueOwner _ := rfl
  number _ := rfl
  type _ := rfl
  const _ := rfl

theorem sameOutline_modifyInstrs (p : Program) (b : BlockId) (change : Array Instr → Array Instr) :
    SameOutline p { p with blocks := p.blocks.modify b fun x =>
      { x with instrs := change x.instrs } } where
  term _ := proj_getD_modify _ _ _ Block.term _ fun _ => rfl
  succs _ := proj_getD_modify _ _ _ Block.succs _ fun _ => rfl
  preds _ := proj_getD_modify _ _ _ Block.preds _ fun _ => rfl
  modules := rfl
  functions := rfl
  blocks := Array.size_modify
  values := rfl
  home _ := rfl
  funcBlocks _ := rfl
  funcValues _ := rfl
  blockOwner _ := proj_getD_modify _ _ _ Block.owner _ fun _ => rfl
  index _ := proj_getD_modify _ _ _ Block.index _ fun _ => rfl
  valueOwner _ := rfl
  number _ := rfl
  type _ := rfl
  const _ := rfl

theorem sameOutline_setHint (p : Program) (v : ValueId) (hint : Option Hint) :
    SameOutline p (p.setHint v hint) where
  toSameEdges := .of_blocks rfl
  modules := rfl
  functions := rfl
  blocks := rfl
  values := Array.size_modify
  home _ := rfl
  funcBlocks _ := rfl
  funcValues _ := rfl
  blockOwner _ := rfl
  index _ := rfl
  valueOwner _ := proj_getD_modify _ _ _ Value.owner _ fun _ => rfl
  number _ := proj_getD_modify _ _ _ Value.number _ fun _ => rfl
  type _ := proj_getD_modify _ _ _ Value.type _ fun _ => rfl
  const _ := proj_getD_modify _ _ _ Value.const _ fun _ => rfl

/-- A call is at most two changes, if the owners of blocks are there. -/
theorem Call.changes (h : Call p p')
    (hOwner : ∀ {b}, b < p.blocks.size → (p.block b).owner < p.functions.size) :
    Relation.ReflTransGen Change p p' := by
  have hInstr {p : Program} (b : BlockId) (i : Instr) : Change p (p.pushInstr b i) :=
    .touch (sameOutline_modifyInstrs p b (·.push i))
  cases h with
  | addModule => exact .single .addModule
  | addFunction hm name => exact .single (.addFunction hm name)
  | setExternal _ flag =>
    exact .single (.touch (sameOutline_modifyFunction p _ (fun _ => rfl) (fun _ => rfl) fun _ => rfl))
  | addParam hf name type hint =>
    refine .head (.addValue hf name type none hint none nofun) (.single (.touch ?_))
    exact sameOutline_modifyFunction _ _ (fun _ => rfl) (fun _ => rfl) fun _ => rfl
  | addBlock hf name => exact .single (.addBlock hf name)
  | constant hf type n =>
    rw [run_constant]
    cases hConst : p.constant? _ type n with
    | some v => exact .refl
    | none =>
      refine .single (.addValue hf "" type (some n) none none fun m hm => ?_)
      rw [← Option.some.inj hm]
      exact hConst
  | emit hb op name type args _ hint callee =>
    by_cases hInt : type.isInteger = true
    · rw [run_emit_of_integer hInt]
      exact .head (.addValue (hOwner hb) name type none hint _ nofun) (.single (hInstr _ _))
    · rw [run_emit_of_not_integer hInt]
      exact .single (hInstr _ _)
  | setHint _ hint => exact .single (.touch (sameOutline_setHint p _ hint))
  | setArg _ h =>
    obtain ⟨s, rfl⟩ := exists_of_setArg h
    exact .single (.touch (sameOutline_modifyInstrs p s.block (·.modify s.index _)))
  | @setTerminator b t p' hb hTargets h =>
    have hOpen : (p.block b).term = none := by
      unfold Program.setTerminator at h
      split at h
      case h_1 => cases h
      case h_2 hNone => exact hNone
    rw [eq_of_setTerminator h]
    exact .single (.terminate hb hTargets hOpen)

/-! ### What the changes do -/

section Changes

theorem func_addFunction (p : Program) (m : ModuleId) (name : String) (f : FuncId) :
    ((addFunction m name).run p).2.func f =
      if f = p.functions.size then ⟨name, #[], #[], false, #[], m⟩ else p.func f :=
  getD_push _ _ _ _

theorem func_addBlock (p : Program) (f : FuncId) (name : String) (f' : FuncId) :
    ((addBlock f name).run p).2.func f' = if f = f' ∧ f' < p.functions.size then
        { p.func f' with blocks := (p.func f').blocks.push p.blocks.size }
      else p.func f' :=
  getD_modify _ _ _ _ _

theorem func_of_le (hf : p.functions.size ≤ f) : p.func f = default := by
  rw [func, Array.getD_eq_getD_getElem?, Array.getElem?_eq_none hf]
  rfl

theorem funcValues_addFunction (p : Program) (m : ModuleId) (name : String) (f : FuncId) :
    (((addFunction m name).run p).2.func f).values = (p.func f).values := by
  rw [func_addFunction]
  split
  case isTrue hf =>
    rw [func_of_le (Nat.le_of_eq hf.symm)]
    rfl
  case isFalse => rfl

theorem funcValues_addBlock (p : Program) (f : FuncId) (name : String) (f' : FuncId) :
    (((addBlock f name).run p).2.func f').values = (p.func f').values := by
  rw [func_addBlock]
  split <;> rfl

variable (f : FuncId) (name : String) (type : IntType) (const : Option Int) (hint : Option Hint)
variable (site : Option Site)

theorem home_addValue (f' : FuncId) :
    (((addValue f name type const hint site).run p).2.func f').home = (p.func f').home :=
  proj_getD_modify _ _ _ Func.home _ fun _ => rfl

theorem size_values_addValue :
    ((addValue f name type const hint site).run p).2.values.size = p.values.size + 1 :=
  Array.size_push _

theorem nextNumber_addValue (m : ModuleId) :
    (((addValue f name type const hint site).run p).2.moduleAt m).nextNumber =
      (p.moduleAt m).nextNumber +
        if (p.func f).home = m ∧ m < p.modules.size then 1 else 0 := by
  change (Array.getD (p.modules.modify _ _) m default).nextNumber = _
  rw [getD_modify]
  split <;> rfl

/-- An end of a block changes blocks only, and keeps their number. -/
theorem exists_terminate (p : Program) (b : BlockId) (t : Terminator) :
    ∃ blocks, blocks.size = p.blocks.size ∧ p.terminate b t = { p with blocks } := by
  unfold terminate
  generalize hq : { p with blocks := p.blocks.modify b fun x => { x with term := some t } } = q
  have hKept : ∃ blocks, blocks.size = p.blocks.size ∧ q = { p with blocks } :=
    ⟨_, Array.size_modify, hq.symm⟩
  clear hq
  induction t.successors generalizing q with
  | nil => exact hKept
  | cons c cs ih =>
    obtain ⟨blocks, hSize, rfl⟩ := hKept
    refine ih (addEdge b c _) ?_
    unfold addEdge
    split
    · exact ⟨blocks, hSize, rfl⟩
    · exact ⟨_, (Array.size_modify.trans Array.size_modify).trans hSize, rfl⟩

/-- An end of a block changes only terminators and neighbours of blocks. -/
theorem proj_terminate {β : Type} (π : Block → β) (hTerm : ∀ x term, π { x with term } = π x)
    (hSuccs : ∀ x succs, π { x with succs } = π x) (hPreds : ∀ x preds, π { x with preds } = π x)
    (p : Program) (b : BlockId) (t : Terminator) (c : BlockId) :
    π ((p.terminate b t).block c) = π (p.block c) := by
  unfold terminate
  generalize hq : { p with blocks := p.blocks.modify b fun x => { x with term := some t } } = q
  have hKept : π (q.block c) = π (p.block c) := by
    rw [← hq]
    exact proj_getD_modify _ _ _ π _ fun x => hTerm x _
  clear hq
  induction t.successors generalizing q with
  | nil => exact hKept
  | cons d cs ih => exact ih _ ((proj_addEdge π hSuccs hPreds b d c).trans hKept)

end Changes

/-! ### Places -/

/-- Everything belongs to something that is there, and blocks stand at their positions. -/
structure Seated (p : Program) : Prop where
  home {f : FuncId} : f < p.functions.size → (p.func f).home < p.modules.size
  blockOwner {b : BlockId} : b < p.blocks.size → (p.block b).owner < p.functions.size
  value {f : FuncId} {v : ValueId} : v ∈ (p.func f).values → p.Holds f v
  block {f : FuncId} {i : Nat} {b : BlockId} : (p.func f).blocks[i]? = some b →
    p.Houses f b ∧ (p.block b).index = i
  stands {b : BlockId} : b < p.blocks.size →
    (p.func (p.block b).owner).blocks[(p.block b).index]? = some b

/-- A change that keeps the functions and the blocks of a program and their places. -/
theorem Seated.same (hp : Seated p) (hModules : p.modules.size ≤ p'.modules.size)
    (hFunctions : p'.functions.size = p.functions.size) (hSize : p'.blocks.size = p.blocks.size)
    (hHome : ∀ f, (p'.func f).home = (p.func f).home)
    (hBlocks : ∀ f, (p'.func f).blocks = (p.func f).blocks)
    (hOwner : ∀ b, (p'.block b).owner = (p.block b).owner)
    (hIndex : ∀ b, (p'.block b).index = (p.block b).index)
    (hValues : ∀ {f v}, v ∈ (p'.func f).values → p'.Holds f v) : Seated p' where
  home hf := by
    rw [hHome]
    exact Nat.lt_of_lt_of_le (hp.home (hFunctions ▸ hf)) hModules
  blockOwner hb := by
    rw [hOwner, hFunctions]
    exact hp.blockOwner (hSize ▸ hb)
  value := hValues
  block hb := by
    rw [hBlocks] at hb
    rw [Houses, hSize, hOwner, hIndex]
    exact hp.block hb
  stands hb := by
    rw [hOwner, hBlocks, hIndex]
    exact hp.stands (hSize ▸ hb)

theorem Seated.addFunction (hp : Seated p) {m : ModuleId} (hm : m < p.modules.size)
    (name : String) : Seated ((addFunction m name).run p).2 := by
  have hFunctions : ((Program.addFunction m name).run p).2.functions.size = p.functions.size + 1 :=
    Array.size_push _
  have hModules : ((Program.addFunction m name).run p).2.modules.size = p.modules.size :=
    Array.size_modify
  refine ⟨fun {f} hf => ?_, fun {b} hb => ?_, fun {f v} hv => ?_, fun {f i b} hb => ?_,
    fun {b} hb => ?_⟩
  · rw [func_addFunction, hModules]
    split
    case isTrue => exact hm
    case isFalse hNe =>
      rw [hFunctions] at hf
      exact hp.home (Nat.lt_of_le_of_ne (Nat.le_of_lt_succ hf) hNe)
  · rw [hFunctions]
    exact Nat.lt_succ_of_lt (hp.blockOwner hb)
  · rw [func_addFunction] at hv
    split at hv
    · exact absurd hv (Array.not_mem_empty v)
    · exact hp.value hv
  · rw [func_addFunction] at hb
    split at hb
    · cases hb
    · exact hp.block hb
  · rw [func_addFunction, if_neg]
    · exact hp.stands hb
    · exact Nat.ne_of_lt (hp.blockOwner hb)

theorem Seated.addBlock (hp : Seated p) (hf : f < p.functions.size) (name : String) :
    Seated ((addBlock f name).run p).2 := by
  have hSize : ((Program.addBlock f name).run p).2.blocks.size = p.blocks.size + 1 :=
    Array.size_push _
  have hFunctions : ((Program.addBlock f name).run p).2.functions.size = p.functions.size :=
    Array.size_modify
  have hOld {b : BlockId} (hb : b < p.blocks.size) :
      ((Program.addBlock f name).run p).2.block b = p.block b := by
    rw [block_addBlock, if_neg (Nat.ne_of_lt hb)]
  have hNew : ((Program.addBlock f name).run p).2.block p.blocks.size =
      ⟨f, (p.func f).blocks.size, name, #[], none, [], []⟩ := by
    rw [block_addBlock, if_pos rfl]
  refine ⟨fun {f'} hf' => ?_, fun {b} hb => ?_, fun {f' v} hv => ?_, fun {f' i b} hb => ?_,
    fun {b} hb => ?_⟩
  · rw [func_addBlock]
    split <;> exact hp.home (hFunctions ▸ hf')
  · rw [hFunctions]
    rcases Nat.lt_succ_iff_lt_or_eq.mp (hSize ▸ hb) with hb | rfl
    · rw [hOld hb]
      exact hp.blockOwner hb
    · rw [hNew]
      exact hf
  · rw [func_addBlock] at hv
    split at hv <;> exact hp.value hv
  · have hKept (hb : (p.func f').blocks[i]? = some b) :
        ((Program.addBlock f name).run p).2.Houses f' b ∧
          (((Program.addBlock f name).run p).2.block b).index = i := by
      obtain ⟨⟨hlt, hOwner⟩, hIndex⟩ := hp.block hb
      rw [Houses, hOld hlt, hSize]
      exact ⟨⟨Nat.lt_succ_of_lt hlt, hOwner⟩, hIndex⟩
    rw [func_addBlock] at hb
    split at hb
    case isTrue hf =>
      obtain ⟨rfl, -⟩ := hf
      rw [Array.getElem?_push] at hb
      split at hb
      case isTrue hi =>
        obtain rfl := Option.some.inj hb
        rw [Houses, hNew, hSize]
        exact ⟨⟨Nat.lt_succ_self _, rfl⟩, hi.symm⟩
      case isFalse => exact hKept hb
    case isFalse => exact hKept hb
  · rcases Nat.lt_succ_iff_lt_or_eq.mp (hSize ▸ hb) with hb | rfl
    · rw [hOld hb, func_addBlock]
      have hStands := hp.stands hb
      split
      · rw [Array.getElem?_push, if_neg]
        · exact hStands
        · exact Nat.ne_of_lt (Array.getElem?_eq_some_iff.mp hStands).1
      · exact hStands
    · rw [hNew, func_addBlock, if_pos ⟨rfl, hf⟩]
      exact Array.getElem?_push_size

theorem Seated.addValue (hp : Seated p) (f : FuncId) (name : String) (type : IntType)
    (const : Option Int) (hint : Option Hint) (site : Option Site) :
    Seated ((addValue f name type const hint site).run p).2 := by
  refine hp.same (Nat.le_of_eq Array.size_modify.symm) Array.size_modify rfl
    (home_addValue f name type const hint site) (blocks_addValue f name type const hint site)
    (fun _ => rfl) (fun _ => rfl) fun {f' v} hv => ?_
  have hKept (hv : v ∈ (p.func f').values) :
      ((Program.addValue f name type const hint site).run p).2.Holds f' v := by
    obtain ⟨hlt, hOwner⟩ := hp.value hv
    rw [Holds, size_values_addValue, value_addValue, if_neg (Nat.ne_of_lt hlt)]
    exact ⟨Nat.lt_succ_of_lt hlt, hOwner⟩
  rw [values_addValue] at hv
  split at hv
  case isTrue hf =>
    rcases Array.mem_push.mp hv with hv | rfl
    · exact hKept hv
    · rw [← hf.1]
      exact holds_addValue f name type const hint site p
  case isFalse => exact hKept hv

theorem Seated.change (hp : Seated p) (h : Change p p') : Seated p' := by
  cases h with
  | addModule =>
    have hModules : p.modules.size ≤ (Program.addModule.run p).2.modules.size :=
      Nat.le_of_lt (Nat.lt_of_lt_of_eq (Nat.lt_succ_self _) (Array.size_push _).symm)
    exact hp.same hModules rfl rfl (fun _ => rfl) (fun _ => rfl) (fun _ => rfl) (fun _ => rfl)
      hp.value
  | addFunction hm name => exact hp.addFunction hm name
  | addBlock hf name => exact hp.addBlock hf name
  | addValue _ name type const hint site _ => exact hp.addValue _ name type const hint site
  | @terminate b t _ _ _ =>
    have hOwner := proj_terminate Block.owner (fun _ _ => rfl) (fun _ _ => rfl) (fun _ _ => rfl) p b t
    have hIndex := proj_terminate Block.index (fun _ _ => rfl) (fun _ _ => rfl) (fun _ _ => rfl) p b t
    obtain ⟨blocks, hSize, hEq⟩ := exists_terminate p b t
    rw [hEq] at hOwner hIndex ⊢
    exact hp.same (Nat.le_refl _) rfl hSize (fun _ => rfl) (fun _ => rfl) hOwner hIndex hp.value
  | touch h =>
    refine hp.same (Nat.le_of_eq (by rw [h.modules])) h.functions h.blocks h.home h.funcBlocks
      h.blockOwner h.index fun {f v} hv => ?_
    rw [h.funcValues] at hv
    rw [Holds, h.values, h.valueOwner]
    exact hp.value hv

/-! ### Numbers -/

/-- The module of the function of a value. -/
def homeOf (p : Program) (v : ValueId) : ModuleId := (p.func (p.value v).owner).home

/-- The numbers of the values of a module grow in the order in which they were added, which is the
order of the values of a function, and stay below the next number. -/
structure Counted (p : Program) : Prop where
  owner_lt {v : ValueId} : v < p.values.size → (p.value v).owner < p.functions.size
  number_lt {v : ValueId} : v < p.values.size →
    (p.value v).number < (p.moduleAt (p.homeOf v)).nextNumber
  number_lt_number {v w : ValueId} : v < w → w < p.values.size → p.homeOf v = p.homeOf w →
    (p.value v).number < (p.value w).number
  values (f : FuncId) : (p.func f).values.toList.Pairwise (· < ·)

/-- A change that adds no value and keeps the homes of those that there are. -/
theorem Counted.same (hp : Counted p) (hSize : p'.values.size = p.values.size)
    (hFunctions : p.functions.size ≤ p'.functions.size)
    (hOwner : ∀ v, (p'.value v).owner = (p.value v).owner)
    (hNumber : ∀ v, (p'.value v).number = (p.value v).number)
    (hHome : ∀ f < p.functions.size, (p'.func f).home = (p.func f).home)
    (hNext : ∀ m, (p'.moduleAt m).nextNumber = (p.moduleAt m).nextNumber)
    (hValues : ∀ f, (p'.func f).values = (p.func f).values) : Counted p' := by
  have hHomeOf {v : ValueId} (hv : v < p.values.size) : p'.homeOf v = p.homeOf v := by
    rw [homeOf, hOwner, hHome _ (hp.owner_lt hv)]
    rfl
  refine ⟨fun {v} hv => ?_, fun {v} hv => ?_, fun {v w} hvw hw hSame => ?_, fun f => ?_⟩
  · rw [hOwner]
    exact Nat.lt_of_lt_of_le (hp.owner_lt (hSize ▸ hv)) hFunctions
  · rw [hSize] at hv
    rw [hNumber, hHomeOf hv, hNext]
    exact hp.number_lt hv
  · rw [hSize] at hw
    rw [hHomeOf hw, hHomeOf (Nat.lt_trans hvw hw)] at hSame
    rw [hNumber, hNumber]
    exact hp.number_lt_number hvw hw hSame
  · rw [hValues]
    exact hp.values f

theorem Counted.addValue (hp : Counted p) (hs : Seated p) (hf : f < p.functions.size)
    (name : String) (type : IntType) (const : Option Int) (hint : Option Hint)
    (site : Option Site) : Counted ((addValue f name type const hint site).run p).2 := by
  have hFunctions : ((Program.addValue f name type const hint site).run p).2.functions.size =
      p.functions.size := Array.size_modify
  have hOld {v : ValueId} (hv : v < p.values.size) :
      ((Program.addValue f name type const hint site).run p).2.value v = p.value v := by
    rw [value_addValue, if_neg (Nat.ne_of_lt hv)]
  have hNew : ((Program.addValue f name type const hint site).run p).2.value p.values.size =
      ⟨(p.moduleAt (p.func f).home).nextNumber, name, type, const, hint, site, f⟩ := by
    rw [value_addValue, if_pos rfl]
  have hHomeOld {v : ValueId} (hv : v < p.values.size) :
      ((Program.addValue f name type const hint site).run p).2.homeOf v = p.homeOf v := by
    rw [homeOf, hOld hv, home_addValue]
    rfl
  have hHomeNew : ((Program.addValue f name type const hint site).run p).2.homeOf p.values.size =
      (p.func f).home := by
    rw [homeOf, hNew, home_addValue]
  refine ⟨fun {v} hv => ?_, fun {v} hv => ?_, fun {v w} hvw hw hSame => ?_, fun f' => ?_⟩
  · rw [hFunctions]
    rcases Nat.lt_succ_iff_lt_or_eq.mp (size_values_addValue f name type const hint site ▸ hv) with
      hv | rfl
    · rw [hOld hv]
      exact hp.owner_lt hv
    · rw [hNew]
      exact hf
  · rw [nextNumber_addValue]
    rcases Nat.lt_succ_iff_lt_or_eq.mp (size_values_addValue f name type const hint site ▸ hv) with
      hv | rfl
    · rw [hOld hv, hHomeOld hv]
      exact Nat.lt_add_right _ (hp.number_lt hv)
    · rw [hNew, hHomeNew, if_pos ⟨rfl, hs.home hf⟩]
      exact Nat.lt_succ_self _
  · rcases Nat.lt_succ_iff_lt_or_eq.mp (size_values_addValue f name type const hint site ▸ hw) with
      hw | rfl
    · have hv := Nat.lt_trans hvw hw
      rw [hOld hv, hOld hw]
      rw [hHomeOld hv, hHomeOld hw] at hSame
      exact hp.number_lt_number hvw hw hSame
    · rw [hHomeOld hvw, hHomeNew] at hSame
      rw [hOld hvw, hNew, ← hSame]
      exact hp.number_lt hvw
  · rw [values_addValue]
    split
    · rw [Array.toList_push, List.pairwise_append]
      refine ⟨hp.values f', List.pairwise_singleton _ _, fun v hv w hw => ?_⟩
      rw [List.mem_singleton.mp hw]
      exact (hs.value (Array.mem_toList_iff.mp hv)).1
    · exact hp.values f'

theorem Counted.change (hp : Counted p) (hs : Seated p) (h : Change p p') : Counted p' := by
  cases h with
  | addModule =>
    refine hp.same rfl (Nat.le_refl _) (fun _ => rfl) (fun _ => rfl) (fun _ _ => rfl) (fun m => ?_)
      fun _ => rfl
    change (Array.getD (p.modules.push ⟨#[], 0⟩) m default).nextNumber = _
    rw [getD_push]
    split
    case isTrue hm =>
      rw [moduleAt, Array.getD_eq_getD_getElem?, Array.getElem?_eq_none (Nat.le_of_eq hm.symm)]
      rfl
    case isFalse => rfl
  | addFunction _ name =>
    refine hp.same rfl (Nat.le_of_lt (Nat.lt_of_lt_of_eq (Nat.lt_succ_self _)
      (Array.size_push _).symm)) (fun _ => rfl) (fun _ => rfl) (fun f hf => ?_)
      (fun _ => proj_getD_modify _ _ _ Module.nextNumber _ fun _ => rfl)
      (funcValues_addFunction p _ name)
    rw [func_addFunction, if_neg (Nat.ne_of_lt hf)]
  | addBlock _ name =>
    refine hp.same rfl (Nat.le_of_eq Array.size_modify.symm) (fun _ => rfl) (fun _ => rfl)
      (fun f _ => ?_) (fun _ => rfl) (funcValues_addBlock p _ name)
    rw [func_addBlock]
    split <;> rfl
  | addValue hf name type const hint site _ => exact hp.addValue hs hf name type const hint site
  | terminate _ _ _ =>
    obtain ⟨blocks, -, hEq⟩ := exists_terminate p _ _
    rw [hEq]
    exact hp.same rfl (Nat.le_refl _) (fun _ => rfl) (fun _ => rfl) (fun _ _ => rfl) (fun _ => rfl)
      fun _ => rfl
  | touch h =>
    refine hp.same h.values (Nat.le_of_eq h.functions.symm) h.valueOwner h.number (fun f _ => h.home f)
      (fun m => ?_) h.funcValues
    rw [moduleAt, h.modules]
    rfl

theorem Counted.eq_of_number (hp : Counted p) (hv : v < p.values.size) (hw : w < p.values.size)
    (hHome : p.homeOf v = p.homeOf w) (hNumber : (p.value v).number = (p.value w).number) :
    v = w := by
  rcases Nat.lt_trichotomy v w with hlt | hEq | hgt
  · exact absurd hNumber (Nat.ne_of_lt (hp.number_lt_number hlt hw hHome))
  · exact hEq
  · exact absurd hNumber (Nat.ne_of_gt (hp.number_lt_number hgt hv hHome.symm))

/-- Along the values of a function, numbers increase. -/
theorem Counted.pairwise_number (hp : Counted p) (hs : Seated p) (f : FuncId) :
    (p.func f).values.toList.Pairwise fun v w => (p.value v).number < (p.value w).number := by
  refine (hp.values f).imp_of_mem fun {v w} hv hw hlt => ?_
  obtain ⟨-, hOwner⟩ := hs.value (Array.mem_toList_iff.mp hv)
  obtain ⟨hSize, hOwner'⟩ := hs.value (Array.mem_toList_iff.mp hw)
  refine hp.number_lt_number hlt hSize ?_
  rw [homeOf, homeOf, hOwner, hOwner']

/-! ### Constants -/

/-- The value is the integer, as a constant of the type in the function. -/
structure IsConstant (p : Program) (f : FuncId) (type : IntType) (n : Int) (v : ValueId) : Prop where
  mem : v ∈ (p.func f).values
  const : (p.value v).const = some n
  type : p.typeOf v = type

theorem isConstant_of_constant? (h : p.constant? f type n = some v) : p.IsConstant f type n v := by
  have hMem := Array.mem_of_find?_eq_some h
  have hFound := Array.find?_some h
  rw [Bool.and_eq_true, beq_iff_eq, beq_iff_eq] at hFound
  exact ⟨hMem, hFound.1, hFound.2⟩

theorem not_isConstant_of_constant? (h : p.constant? f type n = none) :
    ¬ p.IsConstant f type n v := by
  rintro ⟨hMem, hConst, hType⟩
  refine Array.find?_eq_none.mp h v hMem ?_
  rw [hConst, hType, beq_self_eq_true, beq_self_eq_true]
  rfl

/-- After a change, the constants are those of before and at most the one that it adds. -/
theorem Change.isConstant (h : Change p p') (hs : Seated p) :
    (p.IsConstant f type n v → p'.IsConstant f type n v) ∧
      (p'.IsConstant f type n v → p.IsConstant f type n v ∨
        v = p.values.size ∧ p.constant? f type n = none) := by
  have hSame (hValues : (p'.func f).values = (p.func f).values)
      (hConst : (p'.value v).const = (p.value v).const) (hType : p'.typeOf v = p.typeOf v) :
      (p.IsConstant f type n v → p'.IsConstant f type n v) ∧
        (p'.IsConstant f type n v → p.IsConstant f type n v ∨
          v = p.values.size ∧ p.constant? f type n = none) := by
    refine ⟨fun hv => ⟨hValues ▸ hv.mem, hConst.trans hv.const, hType.trans hv.type⟩, fun hv => ?_⟩
    exact .inl ⟨hValues ▸ hv.mem, hConst.symm.trans hv.const, hType.symm.trans hv.type⟩
  cases h with
  | addModule => exact hSame rfl rfl rfl
  | addFunction _ name => exact hSame (funcValues_addFunction p _ name f) rfl rfl
  | addBlock _ name => exact hSame (funcValues_addBlock p _ name f) rfl rfl
  | terminate _ _ _ =>
    obtain ⟨blocks, -, hEq⟩ := exists_terminate p _ _
    rw [hEq]
    exact ⟨fun hv => ⟨hv.mem, hv.const, hv.type⟩, fun hv => .inl ⟨hv.mem, hv.const, hv.type⟩⟩
  | touch h => exact hSame (h.funcValues f) (h.const v) (h.type v)
  | addValue hf name type' const hint site hNew =>
    refine ⟨fun hv => ?_, fun hv => ?_⟩
    · have hNe := Nat.ne_of_lt (hs.value hv.mem).1
      refine ⟨?_, ?_, ?_⟩
      · rw [values_addValue]
        split
        · exact Array.mem_push_of_mem _ hv.mem
        · exact hv.mem
      · rw [value_addValue, if_neg hNe]
        exact hv.const
      · rw [typeOf, value_addValue, if_neg hNe]
        exact hv.type
    · obtain ⟨hMem, hConst, hType⟩ := hv
      rw [typeOf] at hType
      rw [value_addValue] at hConst hType
      rw [values_addValue] at hMem
      split at hConst
      case isTrue hv =>
        subst hv
        rw [if_pos rfl] at hType
        dsimp only at hConst hType
        refine .inr ⟨rfl, ?_⟩
        split at hMem
        case isTrue hOwner =>
          rw [← hOwner.1, ← hType]
          exact hNew n hConst
        case isFalse => exact absurd (hs.value hMem).1 (Nat.lt_irrefl _)
      case isFalse hv =>
        rw [if_neg hv] at hType
        refine .inl ⟨?_, hConst, hType⟩
        split at hMem
        · exact (Array.mem_push.mp hMem).resolve_right hv
        · exact hMem

/-- There is one constant for a function, a type and an integer. -/
structure Interned (p : Program) : Prop where
  eq {f : FuncId} {type : IntType} {n : Int} {v w : ValueId} : p.IsConstant f type n v →
    p.IsConstant f type n w → v = w

theorem Interned.change (hp : Interned p) (hs : Seated p) (h : Change p p') : Interned p' := by
  refine ⟨fun {f type n v w} hv hw => ?_⟩
  rcases (h.isConstant hs).2 hv with hv | ⟨rfl, hNone⟩ <;>
    rcases (h.isConstant hs).2 hw with hw | ⟨rfl, hNone'⟩
  · exact hp.eq hv hw
  · exact absurd hv (not_isConstant_of_constant? hNone')
  · exact absurd hw (not_isConstant_of_constant? hNone)
  · rfl

/-- The constant that is asked for is the one that is found or added. -/
theorem isConstant_constant (hf : f < p.functions.size) (type : IntType) (n : Int) :
    ((constant f type n).run p).2.IsConstant f type n ((constant f type n).run p).1 := by
  unfold constant
  simp only [StateT.run_bind, StateT.run_get, pure_bind]
  split
  case h_1 v hv => exact isConstant_of_constant? hv
  case h_2 =>
    have hValue := value_addValue (p := p) f "" type (some n) none none p.values.size
    rw [if_pos rfl] at hValue
    refine ⟨?_, congrArg Value.const hValue, congrArg Value.type hValue⟩
    rw [values_addValue, if_pos ⟨rfl, hf⟩]
    exact Array.mem_push_self

/-! ### Edges -/

/-- The blocks that the terminator of a block leads to, with repetitions. -/
def targets (p : Program) (b : BlockId) : List BlockId :=
  ((p.block b).term.map Terminator.successors).getD []

/-- Successors are the targets in order, each once, and predecessors have the block among them. -/
structure Paired (p : Program) : Prop where
  succs (b : BlockId) : (p.block b).succs = (p.targets b).eraseDups
  preds (b q : BlockId) : (p.block b).preds.count q = if b ∈ (p.block q).succs then 1 else 0

theorem Paired.exists_term (hp : p.Paired) (h : c ∈ (p.block b).succs) :
    ∃ t, (p.block b).term = some t ∧ c ∈ t.successors := by
  rw [hp.succs, List.mem_eraseDups] at h
  unfold targets at h
  cases ht : (p.block b).term with
  | none =>
    rw [ht] at h
    cases h
  | some t =>
    rw [ht] at h
    exact ⟨t, rfl, h⟩

theorem eraseDups_concat (cs : List BlockId) (c : BlockId) :
    (cs ++ [c]).eraseDups = if c ∈ cs.eraseDups then cs.eraseDups else cs.eraseDups ++ [c] := by
  rw [List.eraseDups_append]
  by_cases hc : c ∈ cs
  · rw [if_pos (List.mem_eraseDups.mpr hc)]
    simp [List.removeAll, hc]
  · rw [if_neg fun h => hc (List.mem_eraseDups.mp h)]
    simp [List.removeAll, hc, List.eraseDups_cons]

/-- One edge more keeps predecessors and successors in step. -/
theorem preds_addEdge (hPreds : ∀ d q, (p.block d).preds.count q =
      if d ∈ (p.block q).succs then 1 else 0) (hb : b < p.blocks.size) (hc : c < p.blocks.size)
    (d q : BlockId) : ((p.addEdge b c).block d).preds.count q =
      if d ∈ ((p.addEdge b c).block q).succs then 1 else 0 := by
  by_cases hMem : c ∈ (p.block b).succs
  · rw [block_addEdge, if_pos hMem, block_addEdge, if_pos hMem]
    exact hPreds d q
  rw [block_addEdge, if_neg hMem, block_addEdge, if_neg hMem]
  dsimp only
  have hOld := hPreds d q
  by_cases hq : b = q
  · subst hq
    rw [if_pos (c := b = b ∧ b < p.blocks.size) ⟨rfl, hb⟩]
    by_cases hd : c = d
    · subst hd
      rw [if_neg hMem] at hOld
      rw [if_pos ⟨rfl, hc⟩, List.count_append, hOld, List.count_singleton_self,
        if_pos (List.mem_append_right _ List.mem_cons_self)]
    · have hOther : d ∈ (p.block b).succs ++ [c] ↔ d ∈ (p.block b).succs := by
        rw [List.mem_append, List.mem_singleton, or_iff_left fun h => hd h.symm]
      rw [if_neg fun h => hd h.1, hOld]
      simp only [hOther]
  · rw [if_neg (c := b = q ∧ q < p.blocks.size) fun h => hq h.1, ← hOld]
    by_cases hd : c = d
    · rw [if_pos ⟨hd, hd ▸ hc⟩, List.count_append, List.count_singleton, beq_eq_false_iff_ne.mpr hq]
      rfl
    · rw [if_neg fun h => hd h.1]

/-- The edges of a block to all its targets, added one after another. -/
theorem addEdges_paired (hb : b < p.blocks.size) (cs : List BlockId)
    (hIn : ∀ c ∈ cs, c < p.blocks.size) (done : List BlockId) (r : Program)
    (hSize : r.blocks.size = p.blocks.size) (hDone : (r.block b).succs = done.eraseDups)
    (hPreds : ∀ d q, (r.block d).preds.count q = if d ∈ (r.block q).succs then 1 else 0) :
    let r' := cs.foldl (fun p target => p.addEdge b target) r
    (r'.block b).succs = (done ++ cs).eraseDups ∧
      (∀ c, c ≠ b → (r'.block c).succs = (r.block c).succs) ∧
      ∀ d q, (r'.block d).preds.count q = if d ∈ (r'.block q).succs then 1 else 0 := by
  induction cs generalizing r done with
  | nil =>
    rw [List.append_nil]
    exact ⟨hDone, fun _ _ => rfl, hPreds⟩
  | cons c cs ih =>
    have hc := hIn c List.mem_cons_self
    have hNext : ((r.addEdge b c).block b).succs = (done ++ [c]).eraseDups := by
      rw [eraseDups_concat, ← hDone, block_addEdge]
      split
      · rfl
      · dsimp only
        rw [if_pos ⟨rfl, hSize.symm ▸ hb⟩]
    obtain ⟨hSuccs, hOthers, hCounts⟩ := ih (fun c hc => hIn c (List.mem_cons_of_mem _ hc))
      (done ++ [c]) (r.addEdge b c) ((size_addEdge r b c).trans hSize) hNext
      (preds_addEdge hPreds (hSize.symm ▸ hb) (hSize.symm ▸ hc))
    refine ⟨?_, fun d hd => (hOthers d hd).trans ?_, hCounts⟩
    · rw [List.append_assoc] at hSuccs
      exact hSuccs
    · rw [block_addEdge]
      split
      · rfl
      · exact if_neg fun h => hd h.1.symm

theorem Paired.terminate (hp : Paired p) (hb : b < p.blocks.size)
    (hTargets : ∀ c ∈ t.successors, c < p.blocks.size) (hOpen : (p.block b).term = none) :
    Paired (p.terminate b t) := by
  let r : Program := { p with blocks := p.blocks.modify b fun x => { x with term := some t } }
  have hBlock {β : Type} (π : Block → β) (hπ : ∀ x term, π { x with term } = π x) (c : BlockId) :
      π (r.block c) = π (p.block c) := proj_getD_modify _ _ _ π _ fun x => hπ x _
  have hSuccs := hBlock Block.succs fun _ _ => rfl
  have hTerm (c : BlockId) : (r.block c).term = if b = c then some t else (p.block c).term := by
    rw [block, getD_modify]
    by_cases hc : b = c
    · rw [if_pos ⟨hc, hc ▸ hb⟩, if_pos hc]
    · rw [if_neg fun h => hc h.1, if_neg hc]
      rfl
  have hNone : (r.block b).succs = ([] : List BlockId).eraseDups := by
    rw [hSuccs, hp.succs, targets, hOpen]
    rfl
  obtain ⟨hEnd, hOthers, hCounts⟩ := addEdges_paired hb t.successors hTargets [] r Array.size_modify
    hNone fun d q => by
      rw [hBlock Block.preds fun _ _ => rfl, hSuccs]
      exact hp.preds d q
  have hTermKept (c : BlockId) : ((p.terminate b t).block c).term = (r.block c).term := by
    change ((t.successors.foldl (fun p target => p.addEdge b target) r).block c).term = _
    generalize r = r'
    induction t.successors generalizing r' with
    | nil => rfl
    | cons d cs ih =>
      exact (ih _).trans (proj_addEdge Block.term (fun _ _ => rfl) (fun _ _ => rfl) b d c)
  refine ⟨fun c => ?_, hCounts⟩
  rw [targets, hTermKept, hTerm]
  by_cases hc : b = c
  · rw [← hc, if_pos rfl]
    exact hEnd
  · rw [if_neg hc]
    exact ((hOthers c fun h => hc h.symm).trans (hSuccs c)).trans (hp.succs c)

theorem Paired.same (hp : Paired p) (h : SameEdges p p') : Paired p' := by
  refine ⟨fun b => ?_, fun b q => ?_⟩
  · rw [h.succs, targets, h.term]
    exact hp.succs b
  · rw [h.preds, h.succs]
    exact hp.preds b q

theorem sameEdges_addBlock (p : Program) (f : FuncId) (name : String) :
    SameEdges p ((addBlock f name).run p).2 := by
  have hSame {β : Type} (π : Block → β)
      (hπ : π ⟨f, (p.func f).blocks.size, name, #[], none, [], []⟩ = π default) (b : BlockId) :
      π (((addBlock f name).run p).2.block b) = π (p.block b) := by
    rw [block_addBlock]
    split
    case isTrue hb => rw [block_of_le (Nat.le_of_eq hb.symm), hπ]
    case isFalse => rfl
  exact ⟨hSame Block.term rfl, hSame Block.succs rfl, hSame Block.preds rfl⟩

theorem Paired.change (hp : Paired p) (h : Change p p') : Paired p' := by
  cases h with
  | addModule => exact hp.same (.of_blocks rfl)
  | addFunction _ name => exact hp.same (.of_blocks rfl)
  | addBlock _ name => exact hp.same (sameEdges_addBlock p _ name)
  | addValue _ name type const hint site _ => exact hp.same (.of_blocks rfl)
  | terminate hb hTargets hOpen => exact hp.terminate hb hTargets hOpen
  | touch h => exact hp.same h.toSameEdges

/-! ### Runs of calls -/

/-- What the calls of the builder keep. -/
structure Layout (p : Program) : Prop where
  seated : Seated p
  counted : Counted p
  interned : Interned p
  paired : Paired p

theorem Layout.change (hp : Layout p) (h : Change p p') : Layout p' :=
  ⟨hp.seated.change h, hp.counted.change hp.seated h, hp.interned.change hp.seated h,
    hp.paired.change h⟩

theorem Layout.changes (hp : Layout p) (h : Relation.ReflTransGen Change p p') : Layout p' := by
  induction h with
  | refl => exact hp
  | tail _ hChange ih => exact ih.change hChange

/-- A constant stays the constant that it is. -/
theorem IsConstant.changes (hv : p.IsConstant f type n v) (hp : Layout p)
    (h : Relation.ReflTransGen Change p p') : p'.IsConstant f type n v := by
  induction h with
  | refl => exact hv
  | tail hChanges hChange ih => exact (hChange.isConstant (hp.changes hChanges).seated).1 ih

theorem Layout.calls (hp : Layout p) (h : Relation.ReflTransGen Call p p') :
    Relation.ReflTransGen Change p p' := by
  induction h with
  | refl => exact .refl
  | tail _ hCall ih => exact ih.trans (hCall.changes (hp.changes ih).seated.blockOwner)

theorem Layout.start : Layout start where
  seated := ⟨nofun, nofun, fun hv => absurd hv (Array.not_mem_empty _), nofun, nofun⟩
  counted := ⟨nofun, nofun, nofun, fun _ => List.Pairwise.nil⟩
  interned := ⟨fun hv => absurd hv.mem (Array.not_mem_empty _)⟩
  paired := ⟨fun _ => rfl, fun _ _ => rfl⟩

theorem Constructed.layout (h : Constructed p) : Layout p :=
  Layout.start.changes (Layout.start.calls h)

/-- Two constants that are asked for, with any calls in between, are the same value exactly if they
are asked for by the same function, type and integer. -/
theorem Layout.constant_eq_iff (hp : Layout p) (hf : f < p.functions.size)
    (hCalls : Relation.ReflTransGen Call ((constant f type n).run p).2 q)
    (hf' : f' < q.functions.size) (type' : IntType) (n' : Int) :
    ((constant f type n).run p).1 = ((constant f' type' n').run q).1 ↔
      f = f' ∧ type = type' ∧ n = n' := by
  have hFirst := hp.changes (hp.calls (.single (.constant hf type n)))
  have hChanges := hFirst.calls (hCalls.tail (.constant hf' type' n'))
  have hLast := hFirst.changes hChanges
  have hv := (isConstant_constant hf type n).changes hFirst hChanges
  have hw := isConstant_constant hf' type' n'
  constructor
  · intro hEq
    rw [← hEq] at hw
    refine ⟨?_, hv.type.symm.trans hw.type, Option.some.inj (hv.const.symm.trans hw.const)⟩
    exact (hLast.seated.value hv.mem).2.symm.trans (hLast.seated.value hw.mem).2
  · rintro ⟨rfl, rfl, rfl⟩
    exact hLast.interned.eq hv hw

/-- In a program that calls of the builder lead to, the successors of a block are the targets of its
terminator without repetitions, and its predecessors are the blocks that it succeeds, each once;
blocks stand at their positions; values of a module have different numbers, which increase along the
values of a function; a block that has a terminator gets no other; and a function has one constant
for a type and an integer. -/
theorem layout_kept (hp : Constructed p) :
    ((∀ b, (p.block b).succs = (p.targets b).eraseDups) ∧
      ∀ b q, (p.block b).preds.count q = if b ∈ (p.block q).succs then 1 else 0) ∧
    ((∀ f i b, (p.func f).blocks[i]? = some b → (p.block b).owner = f ∧ (p.block b).index = i) ∧
      ∀ b < p.blocks.size, (p.func (p.block b).owner).blocks[(p.block b).index]? = some b) ∧
    ((∀ v w, v < p.values.size → w < p.values.size → p.homeOf v = p.homeOf w →
        (p.value v).number = (p.value w).number → v = w) ∧
      ∀ f, (p.func f).values.toList.Pairwise fun v w => (p.value v).number < (p.value w).number) ∧
    (∀ b t, p.setTerminator b t =
      if (p.block b).term.isSome then .error (.terminated (p.blockText b))
      else .ok (p.terminate b t)) ∧
    ∀ f type n q f' type' n', f < p.functions.size →
      Relation.ReflTransGen Call ((constant f type n).run p).2 q → f' < q.functions.size →
      (((constant f type n).run p).1 = ((constant f' type' n').run q).1 ↔
        f = f' ∧ type = type' ∧ n = n') := by
  have h := hp.layout
  refine ⟨⟨h.paired.succs, h.paired.preds⟩, ⟨fun f i b hb => ?_, fun b hb => h.seated.stands hb⟩,
    ⟨fun v w hv hw => h.counted.eq_of_number hv hw, h.counted.pairwise_number h.seated⟩,
    fun b t => ?_, fun f type n q f' type' n' hf hCalls hf' => ?_⟩
  · obtain ⟨hHouses, hIndex⟩ := h.seated.block hb
    exact ⟨hHouses.2, hIndex⟩
  · unfold setTerminator
    cases (p.block b).term <;> rfl
  · exact h.constant_eq_iff hf hCalls hf' type' n'

/-- The test of a copy, whose constant is found again after other calls. -/
theorem guarded_layout :
    Constructed guarded ∧ (guarded.block 0).succs = [1, 2] ∧ (guarded.block 2).preds.count 0 = 1 ∧
      guarded.setTerminator 0 (.jump 1) = .error (.terminated "entry") ∧
      ((constant 0 (.signed 8) 10).run guarded).1 =
        ((constant 0 (.signed 8) 10).run
          (addModule.run ((constant 0 (.signed 8) 10).run guarded).2).2).1 := by
  obtain ⟨⟨hSuccs, hPreds⟩, -, -, hTerm, hConst⟩ := layout_kept guarded_constructed
  refine ⟨guarded_constructed, (hSuccs 0).trans (by decide +kernel),
    (hPreds 2 0).trans (by decide +kernel), (hTerm 0 _).trans (if_pos (by decide +kernel)), ?_⟩
  exact (hConst 0 _ 10 _ 0 _ 10 (by decide +kernel) (.single .addModule) (by decide +kernel)).mpr
    ⟨rfl, rfl, rfl⟩

end ValueRange.Program
