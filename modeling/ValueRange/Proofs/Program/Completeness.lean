import ValueRange.Program.Check
import ValueRange.Proofs.Program.Linkage
import ValueRange.Proofs.Program.Ownership

/-! Complete programs: all operands are there, they are values of the function that uses them, and
tests are by comparisons. The steps of the builder keep a program complete, and what holds on entry
to a block of a complete program can be stated. -/

namespace ValueRange

/-- The operands of a terminator. -/
def Terminator.operands : Terminator → List (Option ValueId)
  | jump _ => []
  | test _ x y _ _ => [x, y]
  | switch on _ _ => [on]
  | branch _ => []
  | ret results => results

/-- The instruction has as many operands as it needs, and none is missing. -/
structure Instr.Supplied (i : Instr) : Prop where
  args : none ∉ i.args
  unary {op : UnaryOp} : i.op = .unary op → i.args.length = 1
  binary {op : BinaryOp} : i.op = .binary op → i.args.length = 2
  phi : i.op = .phi → i.args ≠ []
  sigma : i.op = .sigma → i.args.length = 1

namespace Program

/-- The value is there and belongs to the function. -/
def Holds (p : Program) (f : FuncId) (v : ValueId) : Prop :=
  v < p.values.size ∧ (p.value v).owner = f

/-- The block is there and belongs to the function. -/
def Houses (p : Program) (f : FuncId) (b : BlockId) : Prop :=
  b < p.blocks.size ∧ (p.block b).owner = f

/-- The operand is a value of the function. -/
def Operand (p : Program) (f : FuncId) (a : Option ValueId) : Prop := ∃ v, a = some v ∧ p.Holds f v

/-- The terminator has its operands, and a test is by a comparison. -/
structure Ready (p : Program) (f : FuncId) (t : Terminator) : Prop where
  operands {a : Option ValueId} : a ∈ t.operands → p.Operand f a
  known {pred : Predicate} {x y : Option ValueId} {yes no : BlockId} :
    t = .test pred x y yes no → ∃ c, pred = .known c

/-- Nothing that an instruction or a terminator needs is missing, a result belongs to the function of
its block, and all functions are in the first module. -/
structure Complete (p : Program) : Prop where
  home : 0 < p.modules.size
  args {b : BlockId} {i : Instr} {a : Option ValueId} : i ∈ (p.block b).instrs → a ∈ i.args →
    p.Operand (p.block b).owner a
  term {b : BlockId} {t : Terminator} : (p.block b).term = some t → p.Ready (p.block b).owner t
  site {v : ValueId} {s : Site} : (p.value v).site = some s → p.Houses (p.value v).owner s.block
  listed {f : FuncId} : f < p.functions.size → f ∈ (p.moduleAt 0).functions

/-- A step that keeps a program complete. Only blocks in `T` get terminators. -/
structure Step (T : BlockId → Prop) (p p' : Program) : Prop where
  holds {f : FuncId} {v : ValueId} : p.Holds f v → p'.Holds f v
  houses {f : FuncId} {b : BlockId} : p.Houses f b → p'.Houses f b
  blocks : p.blocks.size ≤ p'.blocks.size
  term {b : BlockId} : ¬ T b → (p'.block b).term = (p.block b).term
  complete : Complete p → Complete p'

variable {T : BlockId → Prop} {p p' p'' : Program} {f : FuncId} {a : Option ValueId} {b : BlockId}

theorem Operand.mono (h : p.Operand f a) (hHolds : ∀ {v}, p.Holds f v → p'.Holds f v) :
    p'.Operand f a := by
  obtain ⟨v, rfl, hv⟩ := h
  exact ⟨v, rfl, hHolds hv⟩

theorem Ready.mono {t : Terminator} (h : p.Ready f t) (hHolds : ∀ {v}, p.Holds f v → p'.Holds f v) :
    p'.Ready f t :=
  ⟨fun ha => (h.operands ha).mono hHolds, h.known⟩

theorem Step.refl (T : BlockId → Prop) (p : Program) : Step T p p :=
  ⟨id, id, Nat.le_refl _, fun _ => rfl, id⟩

theorem Step.trans (h : Step T p p') (h' : Step T p' p'') : Step T p p'' :=
  ⟨h'.holds ∘ h.holds, h'.houses ∘ h.houses, Nat.le_trans h.blocks h'.blocks,
    fun hb => (h'.term hb).trans (h.term hb), h'.complete ∘ h.complete⟩

theorem Step.mono {T' : BlockId → Prop} (h : Step T p p') (hT : ∀ b, T b → T' b) : Step T' p p' :=
  ⟨h.holds, h.houses, h.blocks, fun hb => h.term fun hTb => hb (hT _ hTb), h.complete⟩

theorem block_of_le (hb : p.blocks.size ≤ b) : p.block b = default := by
  rw [block, Array.getD_eq_getD_getElem?, Array.getElem?_eq_none hb]
  rfl

theorem lt_of_mem_instrs {i : Instr} (hi : i ∈ (p.block b).instrs) : b < p.blocks.size := by
  refine Nat.lt_of_not_le fun hb => ?_
  rw [block_of_le hb] at hi
  exact Array.not_mem_empty i hi

theorem lt_of_term {t : Terminator} (ht : (p.block b).term = some t) : b < p.blocks.size := by
  refine Nat.lt_of_not_le fun hb => ?_
  rw [block_of_le hb] at ht
  cases ht

/-! ### The steps of the builder -/

/-- A step that keeps the terminators and the functions. Its instructions have operands of before, or
new ones that are there. -/
theorem Step.of (hHolds : ∀ {f v}, p.Holds f v → p'.Holds f v)
    (hHouses : ∀ {f b}, p.Houses f b → p'.Houses f b)
    (hBlocks : p.blocks.size ≤ p'.blocks.size) (hModules : p.modules.size ≤ p'.modules.size)
    (hTerm : ∀ b, (p'.block b).term = (p.block b).term)
    (hInstrs : ∀ {b i}, i ∈ (p'.block b).instrs →
      (∃ i' ∈ (p.block b).instrs, i.args = i'.args) ∨ ∀ a ∈ i.args, p'.Operand (p'.block b).owner a)
    (hSites : ∀ {v s}, (p'.value v).site = some s →
      ((p.value v).site = some s ∧ (p'.value v).owner = (p.value v).owner) ∨
        p'.Houses (p'.value v).owner s.block)
    (hSize : p'.functions.size = p.functions.size)
    (hListed : (p'.moduleAt 0).functions = (p.moduleAt 0).functions) : Step T p p' := by
  refine ⟨hHolds, hHouses, hBlocks, fun _ => hTerm _, fun hp =>
    ⟨Nat.lt_of_lt_of_le hp.home hModules, fun {b i a} hi ha => ?_, fun {b t} ht => ?_,
      fun {v s} hs => ?_, fun {f} hf => ?_⟩⟩
  · rcases hInstrs hi with ⟨i', hi', hSame⟩ | hNew
    · rw [(hHouses ⟨lt_of_mem_instrs hi', rfl⟩).2]
      exact (hp.args hi' (hSame ▸ ha)).mono hHolds
    · exact hNew a ha
  · rw [hTerm] at ht
    rw [(hHouses ⟨lt_of_term ht, rfl⟩).2]
    exact (hp.term ht).mono hHolds
  · rcases hSites hs with ⟨hOld, hOwner⟩ | hNew
    · rw [hOwner]
      exact hHouses (hp.site hOld)
    · exact hNew
  · rw [hListed]
    exact hp.listed (hSize ▸ hf)

/-- A step that keeps the values and changes no block but its instructions. -/
theorem Step.of_instrs (hValues : p'.values = p.values) (hSize : p'.blocks.size = p.blocks.size)
    (hModules : p'.modules = p.modules) (hFunctions : p'.functions.size = p.functions.size)
    (hOwner : ∀ b, (p'.block b).owner = (p.block b).owner)
    (hTerm : ∀ b, (p'.block b).term = (p.block b).term)
    (hInstrs : ∀ {b i}, i ∈ (p'.block b).instrs →
      (∃ i' ∈ (p.block b).instrs, i.args = i'.args) ∨ ∀ a ∈ i.args, p.Operand (p.block b).owner a) :
    Step T p p' := by
  have hValue (v : ValueId) : p'.value v = p.value v := by rw [value, hValues]; rfl
  have hHolds {f : FuncId} {v : ValueId} (hv : p.Holds f v) : p'.Holds f v := by
    rw [Holds, hValue, hValues]
    exact hv
  refine Step.of hHolds (fun {f b} hb => ?_) (Nat.le_of_eq hSize.symm)
    (Nat.le_of_eq (by rw [hModules])) hTerm (fun {b i} hi => ?_) (fun {v s} hs => .inl ?_) hFunctions
    (by rw [moduleAt, hModules]; rfl)
  · rw [Houses, hOwner, hSize]
    exact hb
  · refine (hInstrs hi).imp_right fun hNew a ha => ?_
    rw [hOwner]
    exact (hNew a ha).mono hHolds
  · rw [hValue] at hs ⊢
    exact ⟨hs, rfl⟩

/-- A step that changes nothing but functions, in which it keeps the modules. -/
theorem step_functions (p : Program) (f : FuncId) (change : Func → Func) :
    Step T p { p with functions := p.functions.modify f change } :=
  Step.of_instrs rfl rfl rfl Array.size_modify (fun _ => rfl) (fun _ => rfl)
    fun {_ i} hi => .inl ⟨i, hi, rfl⟩

theorem holds_addValue (f : FuncId) (name : String) (type : IntType) (const : Option Int)
    (hint : Option Hint) (site : Option Site) (p : Program) :
    ((addValue f name type const hint site).run p).2.Holds f p.values.size := by
  refine ⟨Nat.lt_of_lt_of_eq (Nat.lt_succ_self _) (Array.size_push _).symm, ?_⟩
  rw [value_addValue, if_pos rfl]

theorem step_addValue (f : FuncId) (name : String) (type : IntType) (const : Option Int)
    (hint : Option Hint) (site : Option Site) (p : Program)
    (hSite : ∀ s ∈ site, p.Houses f s.block) :
    Step T p ((addValue f name type const hint site).run p).2 := by
  have hSize : ((addValue f name type const hint site).run p).2.values.size = p.values.size + 1 :=
    Array.size_push _
  refine Step.of (fun {f v} hv => ?_) id (Nat.le_refl _) (Nat.le_of_eq Array.size_modify.symm)
    (fun _ => rfl) (fun {b i} hi => .inl ⟨i, hi, rfl⟩) (fun {v s} hs => ?_) Array.size_modify ?_
  · refine ⟨hSize ▸ Nat.lt_succ_of_lt hv.1, ?_⟩
    rw [value_addValue, if_neg (Nat.ne_of_lt hv.1)]
    exact hv.2
  · rw [value_addValue] at hs ⊢
    split at hs
    case isTrue hNew =>
      rw [if_pos hNew]
      exact .inr (hSite s hs)
    case isFalse hOld =>
      rw [if_neg hOld]
      exact .inl ⟨hs, rfl⟩
  · exact proj_getD_modify _ _ _ Module.functions _ fun _ => rfl

theorem step_addParam (f : FuncId) (name : String) (type : IntType) (hint : Option Hint)
    (p : Program) : Step T p ((addParam f name type hint).run p).2 :=
  (step_addValue f name type none hint none p nofun).trans (step_functions _ f _)

theorem step_setHint (v : ValueId) (hint : Option Hint) (p : Program) :
    Step T p (p.setHint v hint) := by
  have hOwner (u : ValueId) : ((p.setHint v hint).value u).owner = (p.value u).owner :=
    proj_getD_modify _ _ _ Value.owner _ fun _ => rfl
  have hSite (u : ValueId) : ((p.setHint v hint).value u).site = (p.value u).site :=
    proj_getD_modify _ _ _ Value.site _ fun _ => rfl
  refine Step.of (fun {f u} hu => ⟨?_, (hOwner u).trans hu.2⟩) id (Nat.le_refl _) (Nat.le_refl _)
    (fun _ => rfl) (fun {_ i} hi => .inl ⟨i, hi, rfl⟩)
    (fun hs => .inl ⟨(hSite _).symm.trans hs, hOwner _⟩) rfl rfl
  exact Nat.lt_of_lt_of_eq hu.1 Array.size_modify.symm

theorem step_constant (f : FuncId) (type : IntType) (n : Int) (p : Program) :
    Step T p ((constant f type n).run p).2 := by
  rw [run_constant]
  split
  · exact .refl T p
  · exact step_addValue f "" type (some n) none none p nofun

theorem block_addBlock (f : FuncId) (name : String) (p : Program) (b : BlockId) :
    ((addBlock f name).run p).2.block b =
      if b = p.blocks.size then ⟨f, (p.func f).blocks.size, name, #[], none, [], []⟩
      else p.block b := getD_push _ _ _ _

theorem houses_addBlock (f : FuncId) (name : String) (p : Program) :
    ((addBlock f name).run p).2.Houses f p.blocks.size := by
  refine ⟨Nat.lt_of_lt_of_eq (Nat.lt_succ_self _) (Array.size_push _).symm, ?_⟩
  rw [block_addBlock, if_pos rfl]

theorem step_addBlock (f : FuncId) (name : String) (p : Program) :
    Step T p ((addBlock f name).run p).2 := by
  have hSize : ((addBlock f name).run p).2.blocks.size = p.blocks.size + 1 := Array.size_push _
  refine Step.of id (fun {f b} hb => ⟨hSize ▸ Nat.lt_succ_of_lt hb.1, ?_⟩)
    (hSize ▸ Nat.le_succ _) (Nat.le_refl _) (fun b => ?_) (fun {b i} hi => ?_)
    (fun hs => .inl ⟨hs, rfl⟩) Array.size_modify rfl
  · rw [block_addBlock, if_neg (Nat.ne_of_lt hb.1)]
    exact hb.2
  · rw [block_addBlock]
    split
    case isTrue hb => rw [block_of_le (Nat.le_of_eq hb.symm)]; rfl
    case isFalse => rfl
  · rw [block_addBlock] at hi
    split at hi
    · exact absurd hi (Array.not_mem_empty i)
    · exact .inl ⟨i, hi, rfl⟩

theorem step_pushInstr (b : BlockId) {i : Instr} (p : Program)
    (hArgs : ∀ a ∈ i.args, p.Operand (p.block b).owner a) : Step T p (p.pushInstr b i) := by
  refine Step.of_instrs rfl Array.size_modify rfl rfl
    (fun _ => proj_getD_modify _ _ _ Block.owner _ fun _ => rfl) (sameEdges_pushInstr p b i).term
    fun {c x} hx => ?_
  rw [pushInstr, block, getD_modify] at hx
  split at hx
  case isTrue hc =>
    rcases Array.mem_push.mp hx with hx | rfl
    · exact .inl ⟨x, hx, rfl⟩
    · exact .inr (hc.1 ▸ hArgs)
  case isFalse => exact .inl ⟨x, hx, rfl⟩

theorem step_emit (hb : b < p.blocks.size) (op : Opcode) (name : String) (type : IntType)
    (hint : Option Hint) (callee : Option FuncId) :
    Step T p ((emit b op name type [] hint callee).run p).2 := by
  by_cases hInt : type.isInteger = true
  · rw [run_emit_of_integer hInt]
    refine (step_addValue _ _ _ _ _ _ p fun s hs => ?_).trans (step_pushInstr b _ nofun)
    cases hs
    exact ⟨hb, rfl⟩
  · rw [run_emit_of_not_integer hInt]
    exact step_pushInstr b p nofun

theorem step_modifyInstr (s : Site) {change : Instr → Instr} (p : Program)
    (hChange : ∀ i, (change i).args = i.args ∨
      ∀ a ∈ (change i).args, p.Operand (p.block s.block).owner a) :
    Step T p (p.modifyInstr s change) := by
  refine Step.of_instrs rfl Array.size_modify rfl rfl
    (fun _ => proj_getD_modify _ _ _ Block.owner _ fun _ => rfl)
    (fun _ => proj_getD_modify _ _ _ Block.term _ fun _ => rfl) fun {c x} hx => ?_
  rw [modifyInstr, block, getD_modify] at hx
  split at hx
  case isTrue hc =>
    obtain ⟨k, hk⟩ := Array.mem_iff_getElem?.mp hx
    rw [Array.getElem?_modify] at hk
    split at hk
    · obtain ⟨i, hi, rfl⟩ := Option.map_eq_some_iff.mp hk
      rcases hChange i with hSame | hNew
      · exact .inl ⟨i, Array.mem_of_getElem? hi, hSame⟩
      · exact .inr (hc.1 ▸ hNew)
    · exact .inl ⟨x, Array.mem_of_getElem? hk, rfl⟩
  case isFalse => exact .inl ⟨x, hx, rfl⟩

theorem step_addFunction (name : String) (p : Program) :
    Step T p ((addFunction 0 name).run p).2 := by
  have hSize : ((addFunction 0 name).run p).2.functions.size = p.functions.size + 1 :=
    Array.size_push _
  have hModule : ((addFunction 0 name).run p).2.moduleAt 0 =
      if 0 = 0 ∧ 0 < p.modules.size then
        { p.moduleAt 0 with functions := (p.moduleAt 0).functions.push p.functions.size }
      else p.moduleAt 0 := getD_modify _ _ _ _ _
  refine ⟨id, id, Nat.le_refl _, fun _ => rfl, fun hp =>
    ⟨Nat.lt_of_lt_of_eq hp.home Array.size_modify.symm, hp.args,
      fun ht => (hp.term ht).mono id, hp.site, fun {f} hf => ?_⟩⟩
  rw [hModule, if_pos ⟨rfl, hp.home⟩]
  rw [hSize] at hf
  rcases Nat.lt_succ_iff_lt_or_eq.mp hf with hf | rfl
  · exact Array.mem_push_of_mem _ (hp.listed hf)
  · exact Array.mem_push_self

theorem step_addEdge (source target : BlockId) (p : Program) :
    Step T p (p.addEdge source target) := by
  have hInstrs := proj_addEdge (p := p) Block.instrs (fun _ _ => rfl) (fun _ _ => rfl) source target
  refine Step.of_instrs ?_ (size_addEdge p source target) ?_ ?_
    (proj_addEdge Block.owner (fun _ _ => rfl) (fun _ _ => rfl) source target)
    (proj_addEdge Block.term (fun _ _ => rfl) (fun _ _ => rfl) source target)
    fun {d i} hi => .inl ⟨i, hInstrs d ▸ hi, rfl⟩
  all_goals
    unfold addEdge
    split <;> rfl

/-- A terminator that is ready is the only one that changes. -/
theorem step_terminate {t : Terminator} (p : Program) (ht : p.Ready (p.block b).owner t) :
    Step (· = b) p (p.terminate b t) := by
  let q : Program := { p with blocks := p.blocks.modify b fun x => { x with term := some t } }
  have hOwner (c : BlockId) : (q.block c).owner = (p.block c).owner :=
    proj_getD_modify _ _ _ Block.owner _ fun _ => rfl
  have hInstrs (c : BlockId) : (q.block c).instrs = (p.block c).instrs :=
    proj_getD_modify _ _ _ Block.instrs _ fun _ => rfl
  have hSize : q.blocks.size = p.blocks.size := Array.size_modify
  have hHouses {f : FuncId} {c : BlockId} (hc : p.Houses f c) : q.Houses f c :=
    ⟨hSize.symm ▸ hc.1, (hOwner c).trans hc.2⟩
  have hTerm : Step (· = b) p q := by
    refine ⟨id, hHouses, Nat.le_of_eq hSize.symm, fun {c} hc => ?_, fun hp =>
      ⟨hp.home, fun {c i a} hi ha => ?_, fun {c u} hu => ?_, fun hs => hHouses (hp.site hs),
        hp.listed⟩⟩
    · rw [block, getD_modify, if_neg fun h => hc h.1.symm]
      rfl
    · rw [hOwner]
      exact hp.args (hInstrs c ▸ hi) ha
    · rw [hOwner]
      rw [block, getD_modify] at hu
      split at hu
      case isTrue hc =>
        cases hu
        exact hc.1 ▸ ht.mono id
      case isFalse => exact (hp.term hu).mono id
  show Step (· = b) p (t.successors.foldl (fun p target => p.addEdge b target) q)
  revert hTerm
  generalize q = q
  intro hq
  induction t.successors generalizing q with
  | nil => exact hq
  | cons c cs ih => exact ih (q.addEdge b c) (hq.trans (step_addEdge b c q))

/-! ### Entry conditions -/

/-- The operands of instructions and terminators are values of the program. -/
def Grounded (p : Program) : Prop :=
  ∀ b < p.blocks.size,
    (∀ i ∈ (p.block b).instrs.toList, ∀ a ∈ i.args, ∀ v ∈ a, v < p.values.size) ∧
      ∀ t ∈ (p.block b).term, ∀ a ∈ t.operands, ∀ v ∈ a, v < p.values.size

instance (p : Program) : Decidable p.Grounded :=
  inferInstanceAs (Decidable (∀ b < p.blocks.size,
    (∀ i ∈ (p.block b).instrs.toList, ∀ a ∈ i.args, ∀ v ∈ a, v < p.values.size) ∧
      ∀ t ∈ (p.block b).term, ∀ a ∈ t.operands, ∀ v ∈ a, v < p.values.size))

/-- Whether it can be stated what holds on entry to a block by the terminator of its only
predecessor. What that tests or selects by has to be there, and the block that a test leads to
otherwise needs its negation. -/
def legible (p : Program) (b : BlockId) : Bool :=
  match (p.block b).preds with
  | [q] =>
    match (p.block q).term with
    | some (.test pred (some x) y yes no) =>
      !p.isInteger x || yes == no || (y.isSome && (b == yes || pred.negate.isOk))
    | some (.test _ none _ _ _) => false
    | some (.switch on _ otherwise) => b == otherwise || on.isSome
    | _ => true
  | _ => true

section Entry

variable {p : Program} {b : BlockId} {v : ValueId}

theorem Grounded.arg_lt (hp : p.Grounded) {i : Instr} (hi : i ∈ (p.block b).instrs)
    (hv : some v ∈ i.args) : v < p.values.size :=
  (hp b (lt_of_mem_instrs hi)).1 i (Array.mem_toList_iff.mpr hi) (some v) hv v rfl

theorem Grounded.operand_lt (hp : p.Grounded) {t : Terminator} (ht : (p.block b).term = some t)
    (hv : some v ∈ t.operands) : v < p.values.size :=
  (hp b (lt_of_term ht)).2 t ht (some v) hv v rfl

theorem Complete.grounded (hp : p.Complete) : p.Grounded := by
  refine fun b _ => ⟨fun i hi a ha v hv => ?_, fun t ht a ha v hv => ?_⟩
  · obtain ⟨u, rfl, hlt, -⟩ := hp.args (Array.mem_toList_iff.mp hi) ha
    cases hv
    exact hlt
  · obtain ⟨u, rfl, hlt, -⟩ := (hp.term ht).operands ha
    cases hv
    exact hlt

theorem Complete.legible (hp : p.Complete) (b : BlockId) : p.legible b = true := by
  unfold Program.legible
  split
  · split
    case h_1 pred x y yes no hTerm =>
      have hReady := hp.term hTerm
      obtain ⟨c, rfl⟩ := hReady.known rfl
      obtain ⟨y', rfl, -⟩ := hReady.operands (List.mem_cons_of_mem _ List.mem_cons_self)
      simp [Predicate.negate, Except.isOk, Except.toBool]
    case h_2 hTerm =>
      obtain ⟨x, hx, -⟩ := (hp.term hTerm).operands List.mem_cons_self
      cases hx
    case h_3 on cases otherwise hTerm =>
      obtain ⟨on', rfl, -⟩ := (hp.term hTerm).operands List.mem_cons_self
      rw [Option.isSome_some, Bool.or_true]
    · rfl
  · rfl

end Entry

/-! ### Checked programs -/

/-- A program that can be analysed: the builder made it, nothing is missing, and every function of
its first module passes the check. -/
structure Accepted (p : Program) : Prop where
  made : Made p
  complete : Complete p
  checked {f : FuncId} : f ∈ (p.moduleAt 0).functions → p.problems f = []

theorem complete_start : Complete start where
  home := Nat.one_pos
  args hi := absurd hi (Array.not_mem_empty _)
  term := nofun
  site := nofun
  listed := nofun

theorem Complete.args_present {p : Program} (hp : p.Complete) {b : BlockId} {i : Instr}
    (hi : i ∈ (p.block b).instrs) : none ∉ i.args := by
  intro hNone
  obtain ⟨_, h, -⟩ := hp.args hi hNone
  cases h

theorem mem_of_lookup {α β : Type} [BEq α] [LawfulBEq α] {l : List (α × β)} {a : α} {b : β}
    (h : l.lookup a = some b) : (a, b) ∈ l := by
  obtain ⟨l₁, l₂, rfl, -⟩ := List.lookup_eq_some_iff.mp h
  simp

theorem problems_of_check {p : Program} {f : FuncId} (h : p.check f = none) : p.problems f = [] := by
  unfold check at h
  split at h
  · assumption
  · cases h

/-- An instruction of a function that passes the check passes it too. -/
theorem instrProblems_eq_nil {p : Program} {f : FuncId} {b : BlockId} {i : Instr}
    (hf : p.problems f = []) (hb : b ∈ (p.func f).blocks) (hi : i ∈ (p.block b).instrs) :
    p.instrProblems f b i = [] := by
  unfold problems at hf
  have hBlock : p.blockProblems f b = [] :=
    List.flatMap_eq_nil_iff.mp (List.append_eq_nil_iff.mp hf).2 b (Array.mem_toList_iff.mpr hb)
  unfold blockProblems at hBlock
  exact List.flatMap_eq_nil_iff.mp (List.append_eq_nil_iff.mp (List.append_eq_nil_iff.mp hBlock).1).2
    i (Array.mem_toList_iff.mpr hi)

/-- The operands of an instruction that passes the check are values of the function. -/
theorem exists_of_instrProblems {p : Program} {f : FuncId} {b : BlockId} {i : Instr}
    {a : Option ValueId} (h : p.instrProblems f b i = []) (ha : a ∈ i.args) :
    ∃ v, a = some v ∧ (p.value v).owner = f := by
  unfold instrProblems at h
  have hNone : p.operandProblem f i a = none := List.filterMap_eq_nil_iff.mp
    (List.append_eq_nil_iff.mp (List.append_eq_nil_iff.mp h).1).1 a ha
  cases a with
  | none => cases hNone
  | some v =>
    dsimp only [operandProblem] at hNone
    split at hNone
    case isTrue hOwner => exact ⟨v, rfl, hOwner⟩
    case isFalse => cases hNone

/-- An instruction of a function that passes the check has the operands that it needs. -/
theorem supplied_of_problems {p : Program} {f : FuncId} {b : BlockId} {i : Instr}
    (hf : p.problems f = []) (hb : b ∈ (p.func f).blocks) (hi : i ∈ (p.block b).instrs) :
    i.Supplied := by
  have hInstr := instrProblems_eq_nil hf hb hi
  have hArgs : none ∉ i.args := by
    intro hNone
    obtain ⟨v, hv, -⟩ := exists_of_instrProblems hInstr hNone
    cases hv
  unfold instrProblems at hInstr
  have hArity : arityProblem i = none := Option.toList_eq_nil_iff.mp
    (List.append_eq_nil_iff.mp (List.append_eq_nil_iff.mp hInstr).1).2
  unfold arityProblem at hArity
  refine ⟨hArgs, fun hOp => ?_, fun hOp => ?_, fun hOp => ?_, fun hOp => ?_⟩
  all_goals
    rw [hOp] at hArity
    simpa using hArity

theorem Accepted.supplied {p : Program} (hp : p.Accepted) {f : FuncId} {b : BlockId} {i : Instr}
    (hf : f ∈ (p.moduleAt 0).functions) (hb : b ∈ (p.func f).blocks) (hi : i ∈ (p.block b).instrs) :
    i.Supplied :=
  supplied_of_problems (hp.checked hf) hb hi

end Program

end ValueRange
