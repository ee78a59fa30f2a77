import ValueRange.Proofs.Program.Construction

/-! The values of a function. Each value that a function lists says so itself, and parameters are
among them, each once. -/

namespace ValueRange.Program

/-- The values that the functions list are theirs, and so are their parameters, which stand once. -/
structure Owned (p : Program) : Prop where
  owner {f : FuncId} {v : ValueId} : v ∈ (p.func f).values → (p.value v).owner = f
  value_lt {f : FuncId} {v : ValueId} : v ∈ (p.func f).values → v < p.values.size
  param {f : FuncId} {v : ValueId} : v ∈ (p.func f).params → v ∈ (p.func f).values
  params (f : FuncId) : (p.func f).params.toList.Nodup

variable {p p' : Program}

/-- A step that lists nothing new. -/
theorem Owned.same (hp : Owned p) (hSize : p.values.size ≤ p'.values.size)
    (hOwner : ∀ v, v < p.values.size → (p'.value v).owner = (p.value v).owner)
    (hValues : ∀ f, (p'.func f).values = (p.func f).values)
    (hParams : ∀ f, (p'.func f).params = (p.func f).params) : Owned p' := by
  refine ⟨fun {f v} hv => ?_, fun {f v} hv => ?_, fun {f v} hv => ?_, fun f => ?_⟩
  · rw [hValues] at hv
    rw [hOwner v (hp.value_lt hv), hp.owner hv]
  · rw [hValues] at hv
    exact Nat.lt_of_lt_of_le (hp.value_lt hv) hSize
  · rw [hParams] at hv
    rw [hValues]
    exact hp.param hv
  · rw [hParams]
    exact hp.params f

/-- A step that keeps the values and the functions. -/
theorem Owned.of_eq (hp : Owned p) (hValues : p'.values = p.values)
    (hFunctions : p'.functions = p.functions) : Owned p' := by
  refine hp.same (Nat.le_of_eq (by rw [hValues])) (fun v _ => ?_) (fun f => ?_) fun f => ?_
  · rw [value, value, hValues]
  · rw [func, func, hFunctions]
  · rw [func, func, hFunctions]

section Values

variable (f : FuncId) (name : String) (type : IntType) (const : Option Int) (hint : Option Hint)
variable (site : Option Site)

theorem value_addValue (v : ValueId) : ((addValue f name type const hint site).run p).2.value v =
    if v = p.values.size then
      ⟨(p.moduleAt (p.func f).home).nextNumber, name, type, const, hint, site, f⟩
    else p.value v :=
  getD_push _ _ _ _

theorem Owned.addValue (hp : Owned p) : Owned ((addValue f name type const hint site).run p).2 := by
  have hSize : ((Program.addValue f name type const hint site).run p).2.values.size =
      p.values.size + 1 := Array.size_push _
  have hListed {f' : FuncId} {v : ValueId}
      (hv : v ∈ (((Program.addValue f name type const hint site).run p).2.func f').values) :
      v ∈ (p.func f').values ∨ v = p.values.size ∧ f = f' := by
    rw [values_addValue] at hv
    split at hv
    case isTrue hf =>
      rcases Array.mem_push.mp hv with hv | rfl
      · exact .inl hv
      · exact .inr ⟨rfl, hf.1⟩
    case isFalse => exact .inl hv
  refine ⟨fun {f' v} hv => ?_, fun {f' v} hv => ?_, fun {f' v} hv => ?_, fun f' => ?_⟩
  · rw [value_addValue]
    rcases hListed hv with hv | ⟨rfl, rfl⟩
    · rw [if_neg (Nat.ne_of_lt (hp.value_lt hv)), hp.owner hv]
    · rw [if_pos rfl]
  · rw [hSize]
    rcases hListed hv with hv | ⟨rfl, rfl⟩
    · exact Nat.lt_succ_of_lt (hp.value_lt hv)
    · exact Nat.lt_succ_self _
  · rw [params_addValue] at hv
    rw [values_addValue]
    split
    · exact Array.mem_push_of_mem _ (hp.param hv)
    · exact hp.param hv
  · rw [params_addValue]
    exact hp.params f'

end Values

theorem Owned.addParam (hp : Owned p) (f : FuncId) (name : String) (type : IntType)
    (hint : Option Hint) : Owned ((addParam f name type hint).run p).2 := by
  have hAdded := hp.addValue f name type none hint none
  have hNew : f < p.functions.size →
      p.values.size ∈ (((Program.addValue f name type none hint none).run p).2.func f).values := by
    intro hf
    rw [values_addValue, if_pos ⟨rfl, hf⟩]
    exact Array.mem_push_self
  have hOld (f' : FuncId) := params_addValue (p := p) f name type none hint none f'
  have hCount : ((Program.addValue f name type none hint none).run p).2.functions.size =
      p.functions.size := Array.size_modify
  generalize hq : (Program.addValue f name type none hint none).run p = q at *
  have hRun : ((Program.addParam f name type hint).run p).2 = { q.2 with
      functions := q.2.functions.modify f fun x => { x with params := x.params.push p.values.size } } := by
    rw [← hq]
    rfl
  rw [hRun]
  have hFunc (f' : FuncId) : func { q.2 with
      functions := q.2.functions.modify f fun x => { x with params := x.params.push p.values.size } }
      f' = if f = f' ∧ f' < q.2.functions.size then
        { q.2.func f' with params := (q.2.func f').params.push p.values.size }
      else q.2.func f' := getD_modify _ _ _ _ _
  have hValues (f' : FuncId) : (func { q.2 with
      functions := q.2.functions.modify f fun x => { x with params := x.params.push p.values.size } }
      f').values = (q.2.func f').values := by
    rw [hFunc]
    split <;> rfl
  refine ⟨fun {f' v} hv => ?_, fun {f' v} hv => ?_, fun {f' v} hv => ?_, fun f' => ?_⟩
  · rw [hValues] at hv
    exact hAdded.owner hv
  · rw [hValues] at hv
    exact hAdded.value_lt hv
  · rw [hValues]
    rw [hFunc] at hv
    split at hv
    case isTrue hf =>
      obtain ⟨rfl, hf⟩ := hf
      rcases Array.mem_push.mp hv with hv | rfl
      · exact hAdded.param hv
      · exact hNew (hCount ▸ hf)
    case isFalse => exact hAdded.param hv
  · rw [hFunc]
    split
    · refine nodup_push (hAdded.params f') fun v hv => ?_
      rw [hOld] at hv
      exact hp.value_lt (hp.param hv)
    · exact hAdded.params f'

theorem Owned.addFunction (hp : Owned p) (m : ModuleId) (name : String) :
    Owned ((addFunction m name).run p).2 := by
  have hFunc (f : FuncId) : ((Program.addFunction m name).run p).2.func f =
      if f = p.functions.size then ⟨name, #[], #[], false, #[], m⟩ else p.func f :=
    getD_push _ _ _ _
  have hValues {f : FuncId} {v : ValueId}
      (hv : v ∈ (((Program.addFunction m name).run p).2.func f).values) : v ∈ (p.func f).values := by
    rw [hFunc] at hv
    split at hv
    · exact absurd hv (Array.not_mem_empty v)
    · exact hv
  refine ⟨fun hv => hp.owner (hValues hv), fun hv => hp.value_lt (hValues hv), fun {f v} hv => ?_,
    fun f => ?_⟩
  · rw [hFunc] at hv ⊢
    split at hv
    · exact absurd hv (Array.not_mem_empty v)
    case isFalse hf =>
      rw [if_neg hf]
      exact hp.param hv
  · rw [hFunc]
    split
    · exact List.nodup_nil
    · exact hp.params f

theorem Owned.emit (hp : Owned p) (b : BlockId) (op : Opcode) (name : String) (type : IntType)
    (args : List (Option ValueId)) (hint : Option Hint) (callee : Option FuncId) :
    Owned ((emit b op name type args hint callee).run p).2 := by
  by_cases hInt : type.isInteger = true
  · rw [run_emit_of_integer hInt]
    exact (hp.addValue _ _ _ _ _ _).of_eq rfl rfl
  · rw [run_emit_of_not_integer hInt]
    exact hp.of_eq rfl rfl

theorem Owned.terminate (hp : Owned p) (b : BlockId) (t : Terminator) : Owned (p.terminate b t) := by
  unfold Program.terminate
  have hTerm : Owned { p with blocks := p.blocks.modify b fun x => { x with term := some t } } :=
    hp.of_eq rfl rfl
  revert hTerm
  generalize { p with blocks := p.blocks.modify b fun x => { x with term := some t } } = q
  intro hq
  induction t.successors generalizing q with
  | nil => exact hq
  | cons c cs ih =>
    refine ih (q.addEdge b c) (hq.of_eq ?_ ?_)
    all_goals
      unfold addEdge
      split <;> rfl

/-- The steps of the builder keep values with their functions. -/
theorem Made.owned (hp : Made p) : Owned p := by
  induction hp with
  | start => exact ⟨nofun, nofun, nofun, fun _ => List.nodup_nil⟩
  | addModule _ ih => exact ih.of_eq rfl rfl
  | addFunction _ m name ih => exact ih.addFunction m name
  | setExternal _ f flag ih =>
    exact ih.same (Nat.le_refl _) (fun _ _ => rfl)
      (fun _ => proj_getD_modify _ _ _ Func.values _ fun _ => rfl)
      fun _ => proj_getD_modify _ _ _ Func.params _ fun _ => rfl
  | addParam _ f name type hint ih => exact ih.addParam f name type hint
  | addBlock _ f name ih =>
    exact ih.same (Nat.le_refl _) (fun _ _ => rfl)
      (fun _ => proj_getD_modify _ _ _ Func.values _ fun _ => rfl)
      fun _ => proj_getD_modify _ _ _ Func.params _ fun _ => rfl
  | constant _ f type n ih =>
    rw [run_constant]
    split
    · exact ih
    · exact ih.addValue f "" type (some n) none none
  | emit _ b op name type args hint callee ih => exact ih.emit b op name type args hint callee
  | setHint _ v hint ih =>
    refine ih.same (Nat.le_of_eq Array.size_modify.symm) (fun u _ => ?_) (fun _ => rfl) fun _ => rfl
    exact proj_getD_modify _ _ _ Value.owner _ fun _ => rfl
  | modifyInstr _ s f _ ih => exact ih.of_eq rfl rfl
  | terminate _ b t ih => exact ih.terminate b t

/-- A parameter belongs to one function, where it has one position. -/
theorem Owned.param_eq (hp : Owned p) {f f' : FuncId} {i i' : Nat} {v : ValueId}
    (hv : (p.func f).params[i]? = some v) (hv' : (p.func f').params[i']? = some v) :
    f = f' ∧ i = i' := by
  have hOwner := hp.owner (hp.param (Array.mem_of_getElem? hv))
  rw [hp.owner (hp.param (Array.mem_of_getElem? hv'))] at hOwner
  subst hOwner
  rw [← Array.getElem?_toList] at hv hv'
  obtain ⟨hi, -⟩ := List.getElem?_eq_some_iff.mp hv
  exact ⟨rfl, (List.getElem?_inj hi (hp.params f')).mp (hv.trans hv'.symm)⟩

end ValueRange.Program
