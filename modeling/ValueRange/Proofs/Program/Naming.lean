import ValueRange.Proofs.Program.Decoding

/-! What the names in a body stand for. Decoding first gives names to parameters and results, and
then reads operands. A name is no integer, so that an operand which is the name of a value denotes
that value, unless the name is written like a constant with a type: then the constant is meant. In a
comparison with a named value, an integer takes the type of the value. -/

namespace ValueRange.Decode

open Program

variable {α β : Type} {p p' q : Program} {scope scope' : Scope} {f : FuncId} {n : Nat}

/-- The integer of a text without a type. -/
def untypedConstant? (s : String) : Option Int :=
  match cutColon s with
  | (literal, none) => Text.Integer.literal? literal
  | (_, some _) => none

/-- The integer and the name of the type in a text that is written like a constant with a type. -/
def typedConstant? (s : String) : Option (Int × String) :=
  match cutColon s with
  | (literal, some typeName) => (Text.Integer.literal? literal).map (·, typeName)
  | (_, none) => none

/-- The constant that an operand is written for, which needs a type. -/
def constantOf (scope : Scope) (s : String) (type : IntType) (n : Int) (q : Program) :
    Except DecodeError (ValueId × Program) :=
  if type.isInteger then .ok ((constant scope.func type n).run q)
  else .error (.untypedConstant s)

/-! ### Operands -/

theorem fst_cutColon {s literal : String} (h : cutColon s = (literal, none)) : literal = s := by
  unfold cutColon at h
  split at h
  · cases h
  · exact (congrArg Prod.fst h).symm

section Operands

variable {s : String} (scope : Scope) (q : Program)

theorem operand_untyped {m : Int} (h : untypedConstant? s = some m) (type : IntType) :
    (operand scope s type).run q = constantOf scope s type m q := by
  unfold untypedConstant? at h
  unfold operand constantOf
  split at h
  · rename_i literal hCut
    rw [hCut]
    dsimp only
    rw [h]
    change (if type.isInteger then Decode.build (constant scope.func type m)
      else throw (DecodeError.untypedConstant s) : Decoder ValueId).run q = _
    split <;> rfl
  · cases h

theorem operand_typed {m : Int} {typeName : String} (h : typedConstant? s = some (m, typeName))
    (type : IntType) : (operand scope s type).run q =
      match IntType.ofText? typeName with
      | none => .error (.invalidType typeName)
      | some t => constantOf scope s t m q := by
  unfold typedConstant? at h
  unfold operand constantOf
  split at h
  · rename_i literal typeName' hCut
    obtain ⟨m', hLiteral, hEq⟩ := Option.map_eq_some_iff.mp h
    cases hEq
    rw [hCut]
    dsimp only
    rw [hLiteral]
    dsimp only [typeNamed]
    cases IntType.ofText? typeName with
    | none => rfl
    | some t =>
      change (if t.isInteger then Decode.build (constant scope.func t m)
        else throw (DecodeError.untypedConstant s) : Decoder ValueId).run q = _
      dsimp only
      split <;> rfl
  · cases h

theorem operand_name (hUntyped : Text.Integer.literal? s = none) (hTyped : typedConstant? s = none)
    (type : IntType) : (operand scope s type).run q =
      match scope.values.lookup s with
      | some v => .ok (v, q)
      | none => .error (.undefinedValue s) := by
  have hLiteral : Text.Integer.literal? (cutColon s).1 = none := by
    unfold typedConstant? at hTyped
    split at hTyped
    · rename_i hCut
      rw [hCut]
      exact Option.map_eq_none_iff.mp hTyped
    · rename_i hCut
      rw [hCut, fst_cutColon hCut]
      exact hUntyped
  unfold operand
  dsimp only
  rw [hLiteral]
  cases scope.values.lookup s <;> rfl

end Operands

/-! ### Decoders that succeed -/

/-- If the decoder, started with `p`, does not refuse, then its result satisfies `Q`. -/
def Ensures (p : Program) (x : Decoder α) (Q : α → Program → Prop) : Prop :=
  ∀ a p', x.run p = .ok (a, p') → Q a p'

namespace Ensures

variable {x : Decoder α} {next : α → Decoder β} {Q : α → Program → Prop} {R : β → Program → Prop}

theorem bind (hx : Ensures p x Q) (hNext : ∀ a p', Q a p' → Ensures p' (next a) R) :
    Ensures p (x >>= next) R := by
  intro b p'' h
  rw [StateT.run_bind] at h
  cases hRun : x.run p with
  | error e =>
    rw [hRun] at h
    cases h
  | ok r =>
    obtain ⟨a, p'⟩ := r
    rw [hRun] at h
    exact hNext a p' (hx a p' hRun) b p'' h

theorem pure {a : α} (h : Q a p) : Ensures p (Pure.pure a) Q := by
  intro a' p' hRun
  cases hRun
  exact h

theorem throw_bind (e : DecodeError) : Ensures p (MonadExcept.throw e >>= next) R := nofun

theorem lift (e : Except DecodeError α) :
    Ensures p (liftM e) fun a p' => p' = p ∧ e = .ok a := by
  intro a p' hRun
  cases e with
  | error r => cases hRun
  | ok b =>
    cases hRun
    exact ⟨rfl, rfl⟩

theorem orRefuse (answer : Option α) (e : DecodeError) :
    Ensures p (Decode.orRefuse answer e) fun _ p' => p' = p := by
  intro a p' hRun
  cases answer with
  | none => cases hRun
  | some b =>
    cases hRun
    rfl

theorem build (step : Builder α) :
    Ensures p (Decode.build step) fun a p' => a = (step.run p).1 ∧ p' = (step.run p).2 := by
  intro a p' hRun
  have hEq := Except.ok.inj hRun
  exact ⟨(congrArg Prod.fst hEq).symm, (congrArg Prod.snd hEq).symm⟩

theorem modify (step : Program → Program) :
    Ensures p (modify step : Decoder Unit) fun _ p' => p' = step p := by
  intro a p' hRun
  cases hRun
  rfl

/-- A loop keeps an invariant of its state and the program. -/
theorem foldlM {γ : Type} {xs : List α} {next : γ → α → Decoder γ} {c : γ}
    {I : γ → Program → Prop} (hStart : I c p)
    (hStep : ∀ c x p', I c p' → Ensures p' (next c x) I) : Ensures p (xs.foldlM next c) I := by
  induction xs generalizing c p with
  | nil => exact pure hStart
  | cons x xs ih =>
    rw [List.foldlM_cons]
    exact bind (hStep c x p hStart) fun c' p' hNext => ih hNext

end Ensures

/-! ### The names of a body -/

/-- The scope has the names of the values from `n` on that have one, and no name is an integer. -/
structure Scope.Names (scope : Scope) (n : Nat) (f : FuncId) (p : Program) : Prop where
  func : scope.func = f
  size : n ≤ p.values.size
  lookup_iff {name : String} {v : ValueId} : scope.values.lookup name = some v ↔
    name ≠ "" ∧ n ≤ v ∧ v < p.values.size ∧ (p.value v).name = name
  literal {name : String} {v : ValueId} : scope.values.lookup name = some v →
    Text.Integer.literal? name = none

/-- The programs have the same values, with the same names. -/
structure SameNames (p p' : Program) : Prop where
  size : p'.values.size = p.values.size
  name (v : ValueId) : (p'.value v).name = (p.value v).name

/-- One more value, with a name. -/
structure Adds (name : String) (p p' : Program) : Prop where
  size : p'.values.size = p.values.size + 1
  new : (p'.value p.values.size).name = name
  old {v : ValueId} : v < p.values.size → (p'.value v).name = (p.value v).name

theorem Scope.Names.same (h : scope.Names n f p) (hSame : SameNames p p') : scope.Names n f p' where
  func := h.func
  size := hSame.size ▸ h.size
  lookup_iff {name v} := by
    rw [h.lookup_iff, hSame.size, hSame.name]
  literal := h.literal

theorem Adds.same {name : String} (h : Adds name p p') (hSame : SameNames p' q) : Adds name p q where
  size := hSame.size.trans h.size
  new := (hSame.name _).trans h.new
  old hv := (hSame.name _).trans (h.old hv)

theorem SameNames.of_values (h : p'.values = p.values) : SameNames p p' := by
  refine ⟨congrArg Array.size h, fun v => ?_⟩
  rw [value, h]
  rfl

theorem sameNames_setHint (p : Program) (v : ValueId) (hint : Option Hint) :
    SameNames p (p.setHint v hint) :=
  ⟨Array.size_modify, fun _ => proj_getD_modify _ _ _ Value.name _ fun _ => rfl⟩

theorem adds_addValue (p : Program) (f : FuncId) (name : String) (type : IntType)
    (const : Option Int) (hint : Option Hint) (site : Option Site) :
    Adds name p ((addValue f name type const hint site).run p).2 := by
  refine ⟨Array.size_push _, ?_, fun {v} hv => ?_⟩
  · rw [value_addValue, if_pos rfl]
  · rw [value_addValue, if_neg (Nat.ne_of_lt hv)]

theorem fst_emit (p : Program) (b : BlockId) (op : Opcode) (name : String) (type : IntType)
    (args : List (Option ValueId)) (hint : Option Hint) (callee : Option FuncId) :
    ((emit b op name type args hint callee).run p).1 =
      if type.isInteger then some p.values.size else none := by
  cases hInt : type.isInteger <;> simp only [emit, hInt] <;> rfl

/-- A value whose name is accepted is what that name stands for. -/
theorem Scope.Names.define {name : String} (h : scope.Names n f p) (hAdds : Adds name p p')
    (hDefine : scope.define name p.values.size = .ok scope') : scope'.Names n f p' := by
  -- a value of the longer list is one of before or the new one
  have hCases {v : ValueId} : v < p'.values.size ↔ v < p.values.size ∨ v = p.values.size := by
    rw [hAdds.size, Nat.lt_succ_iff_lt_or_eq]
  have hOther {x : String} {v : ValueId} (hx : x ≠ name) : scope.values.lookup x = some v ↔
      x ≠ "" ∧ n ≤ v ∧ v < p'.values.size ∧ (p'.value v).name = x := by
    rw [h.lookup_iff, hCases]
    refine and_congr_right fun _ => and_congr_right fun _ => ?_
    constructor
    · rintro ⟨hv, hName⟩
      exact ⟨.inl hv, (hAdds.old hv).trans hName⟩
    · rintro ⟨hv | rfl, hName⟩
      · exact ⟨hv, (hAdds.old hv).symm.trans hName⟩
      · exact absurd (hName.symm.trans hAdds.new) hx
  have hSize : n ≤ p'.values.size := hAdds.size ▸ Nat.le_succ_of_le h.size
  unfold Scope.define at hDefine
  split_ifs at hDefine with hEmpty hTwice hInteger
  · cases hDefine
    refine ⟨h.func, hSize, fun {x v} => ?_, h.literal⟩
    by_cases hx : x = name
    · rw [h.lookup_iff, hx]
      exact iff_of_false (fun hv => hv.1 hEmpty) fun hv => hv.1 hEmpty
    · exact hOther hx
  · cases hDefine
    rw [Bool.not_eq_true, Option.isSome_eq_false_iff, Option.isNone_iff_eq_none] at hTwice hInteger
    have hLookup (x : String) : ((name, p.values.size) :: scope.values).lookup x =
        if x = name then some p.values.size else scope.values.lookup x := by
      rw [List.lookup_cons]
      by_cases hx : x = name
      · rw [if_pos hx, beq_iff_eq.mpr hx]
      · rw [if_neg hx, beq_eq_false_iff_ne.mpr hx]
    refine ⟨h.func, hSize, fun {x v} => ?_, fun {x v} hx => ?_⟩
    · rw [hLookup]
      by_cases hx : x = name
      · subst hx
        rw [if_pos rfl, hCases]
        constructor
        · intro hv
          cases hv
          exact ⟨hEmpty, h.size, .inr rfl, hAdds.new⟩
        · rintro ⟨-, hn, hv | rfl, hName⟩
          · have hFound := h.lookup_iff.mpr ⟨hEmpty, hn, hv, (hAdds.old hv).symm.trans hName⟩
            cases hTwice.symm.trans hFound
          · rfl
      · rw [if_neg hx]
        exact hOther hx
    · rw [hLookup] at hx
      split_ifs at hx with hName
      · rw [hName]
        exact hInteger
      · exact h.literal hx

/-! ### The steps of a body -/

theorem describe_ensures {name : String} (h : scope.Names n f p) (hAdds : Adds name p p')
    (lower upper : Option String) :
    Ensures p' (describe scope name lower upper p.values.size) fun scope' => scope'.Names n f := by
  unfold describe
  refine Ensures.bind (Ensures.lift _) ?_
  rintro hint p1 ⟨rfl, -⟩
  refine Ensures.bind (Ensures.modify _) ?_
  rintro - p2 rfl
  intro scope' p3 hRun
  obtain ⟨rfl, hDefine⟩ := Ensures.lift _ scope' p3 hRun
  exact h.define (hAdds.same (sameNames_setHint p1 _ hint)) hDefine

theorem param_ensures (h : scope.Names n f p) (d : Document.Param) :
    Ensures p (param scope d) fun scope' => scope'.Names n f := by
  unfold param
  refine Ensures.bind (Ensures.lift _) ?_
  rintro type p1 ⟨rfl, -⟩
  refine Ensures.bind (Ensures.build _) ?_
  rintro v p2 ⟨rfl, rfl⟩
  have hAdds : Adds d.name p1 ((addParam scope.func d.name type none).run p1).2 :=
    (adds_addValue p1 scope.func d.name type none none none).same (SameNames.of_values rfl)
  exact describe_ensures h hAdds d.lower d.upper

theorem block_ensures (h : scope.Names n f p) (d : Document.Block) :
    Ensures p (block scope d) fun scope' => scope'.Names n f := by
  unfold block
  dsimp only
  split
  · exact Ensures.throw_bind _
  · refine Ensures.bind (Ensures.build _) ?_
    rintro b p1 ⟨-, rfl⟩
    have hSame : scope.Names n f ((addBlock scope.func d.name).run p).2 :=
      h.same (SameNames.of_values rfl)
    exact Ensures.pure ⟨hSame.func, hSame.size, hSame.lookup_iff, hSame.literal⟩

theorem instr_ensures (h : scope.Names n f p) (funcs : List (String × FuncId)) (blockName : String)
    (b : BlockId) (d : Document.Instr) :
    Ensures p (instr funcs blockName b scope d) fun r => r.1.Names n f := by
  unfold instr
  refine Ensures.bind (Ensures.orRefuse _ _) ?_
  rintro op p1 rfl
  refine Ensures.bind (Ensures.orRefuse _ _) ?_
  rintro type p2 rfl
  refine Ensures.bind (Q := fun q p' => q = p2 ∧ p' = p2) (fun q p' hRun => ?_) ?_
  · cases hRun
    exact ⟨rfl, rfl⟩
  rintro program p3 ⟨rfl, rfl⟩
  extract_lets site
  refine Ensures.bind (Ensures.build _) ?_
  rintro result p4 ⟨hResult, rfl⟩
  extract_lets rest
  have hRest {scope' : Scope} {p4 : Program} (hs : scope'.Names n f p4) :
      Ensures p4 (rest scope') fun r => r.1.Names n f := by
    dsimp only [rest]
    split
    · refine Ensures.bind (Ensures.orRefuse _ _) ?_
      rintro callee p5 rfl
      refine Ensures.bind (Ensures.modify _) ?_
      rintro - p6 rfl
      exact Ensures.pure (hs.same (SameNames.of_values rfl))
    · exact Ensures.pure hs
  rw [fst_emit] at hResult
  by_cases hInt : type.isInteger = true
  · rw [if_pos hInt] at hResult
    subst hResult
    refine Ensures.bind (describe_ensures h ?_ d.lower d.upper) fun scope' p5 hs => hRest hs
    rw [run_emit_of_integer hInt]
    exact (adds_addValue p3 (p3.block b).owner d.result type none none _).same (.of_values rfl)
  · rw [if_neg hInt] at hResult
    subst hResult
    refine hRest (h.same ?_)
    rw [run_emit_of_not_integer hInt]
    exact .of_values rfl

theorem instrs_ensures (h : scope.Names n f p) (funcs : List (String × FuncId))
    (d : Document.Block) : Ensures p (instrs funcs scope d) fun r => r.1.Names n f := by
  unfold instrs known
  refine Ensures.bind (Ensures.orRefuse _ _) ?_
  rintro b p1 rfl
  refine Ensures.foldlM h ?_
  rintro ⟨scope', pending⟩ i p2 hs
  refine Ensures.bind (instr_ensures hs funcs d.name b i) ?_
  rintro ⟨scope'', one⟩ p3 hs'
  exact Ensures.pure hs'

/-- The first pass over a body: it gives the names, and answers the instructions whose operands are
still to be read. -/
def names (funcs : List (String × FuncId)) (f : FuncId) (d : Document.Func) :
    Decoder (Scope × List Pending) := do
  modify (Program.setExternal f d.external)
  let scope ← d.params.foldlM param ⟨f, [], []⟩
  let scope ← d.blocks.foldlM block scope
  d.blocks.foldlM (fun (scope, pending) b => do
    let (scope, more) ← instrs funcs scope b
    return (scope, pending ++ more)) (scope, ([] : List Pending))

/-- The second pass over a body, which reads operands and terminators. -/
def operands (d : Document.Func) (scope : Scope) (pending : List Pending) : Decoder Unit := do
  pending.forM (resolve scope)
  d.blocks.forM (blockTerm scope)

theorem body_eq (funcs : List (String × FuncId)) (f : FuncId) (d : Document.Func) :
    body funcs f d = names funcs f d >>= fun r => operands d r.1 r.2 := by
  simp only [body, names, operands, bind_assoc]

theorem names_ensures (p : Program) (funcs : List (String × FuncId)) (f : FuncId)
    (d : Document.Func) : Ensures p (names funcs f d) fun r => r.1.Names p.values.size f := by
  unfold names
  refine Ensures.bind (Ensures.modify _) ?_
  rintro - p1 rfl
  have hStart : (⟨f, [], []⟩ : Scope).Names p.values.size f (p.setExternal f d.external) := by
    refine ⟨rfl, Nat.le_refl _, fun {name v} => ?_, nofun⟩
    constructor
    · nofun
    · rintro ⟨-, hv, hlt, -⟩
      exact absurd hlt (Nat.not_lt.mpr hv)
  refine Ensures.bind (Ensures.foldlM hStart fun scope param p' hs => param_ensures hs param) ?_
  intro scope p2 hs
  refine Ensures.bind (Ensures.foldlM hs fun scope b p' hs => block_ensures hs b) ?_
  intro scope' p3 hs'
  refine Ensures.foldlM hs' ?_
  rintro ⟨scope'', pending⟩ b p4 hs''
  refine Ensures.bind (instrs_ensures hs'' funcs b) ?_
  rintro ⟨scope3, more⟩ p5 hs3
  exact Ensures.pure hs3

/-! ### Comparisons -/

theorem run_typeOfName (scope : Scope) (s : String) (q : Program) :
    (typeOfName scope s).run q =
      .ok (((scope.values.lookup s).map q.typeOf).getD .void, q) := by
  unfold typeOfName
  cases scope.values.lookup s <;> rfl

/-- A comparison reads its first operand with the type that the name of the second has, and its
second with the type of the first. -/
theorem run_comparands (scope : Scope) (xs ys : String) (q : Program) :
    (comparands scope xs ys).run q = do
      let (x, q) ← (operand scope xs (((scope.values.lookup ys).map q.typeOf).getD .void)).run q
      let (y, q) ← (operand scope ys (q.typeOf x)).run q
      return ((x, y), q) := by
  unfold comparands
  -- how an operand is read does not matter here
  generalize operand scope = read
  rw [StateT.run_bind, run_typeOfName]
  rfl

theorem comparands_constant_name {xs ys : String} {m : Int} {v : ValueId}
    (hx : untypedConstant? xs = some m) (hLookup : scope.values.lookup ys = some v)
    (hy : ∀ type q, (operand scope ys type).run q = .ok (v, q)) (q : Program) :
    (comparands scope xs ys).run q =
      (constantOf scope xs (q.typeOf v) m q).map fun r => ((r.1, v), r.2) := by
  have hConstant := operand_untyped scope q hx (q.typeOf v)
  rw [run_comparands, hLookup, Option.map_some, Option.getD_some]
  generalize operand scope = read at hy hConstant ⊢
  rw [hConstant]
  cases constantOf scope xs (q.typeOf v) m q with
  | error e => rfl
  | ok r =>
    change (do
      let (y, q) ← (read ys (r.2.typeOf r.1)).run r.2
      return ((r.1, y), q) : Except DecodeError ((ValueId × ValueId) × Program)) = _
    rw [hy]
    rfl

theorem comparands_name_constant {xs ys : String} {m : Int} {v : ValueId}
    (hx : ∀ type q, (operand scope xs type).run q = .ok (v, q))
    (hy : untypedConstant? ys = some m) (q : Program) :
    (comparands scope xs ys).run q =
      (constantOf scope ys (q.typeOf v) m q).map fun r => ((v, r.1), r.2) := by
  have hConstant := operand_untyped scope q hy (q.typeOf v)
  rw [run_comparands]
  generalize operand scope = read at hx hConstant ⊢
  rw [hx]
  change (do
    let (y, q) ← (read ys (q.typeOf v)).run q
    return ((v, y), q) : Except DecodeError ((ValueId × ValueId) × Program)) = _
  rw [hConstant]
  cases constantOf scope ys (q.typeOf v) m q <;> rfl

/-- An integer that is compared with what is no name: as the first operand it has no type, and as the
second it takes the type of the first. -/
theorem comparands_constant_other {s other : String} {m : Int} (hs : untypedConstant? s = some m)
    (hName : scope.values.lookup s = none) (hOther : scope.values.lookup other = none)
    (q : Program) :
    (comparands scope s other).run q = .error (.untypedConstant s) ∧
      (comparands scope other s).run q = do
        let (x, q) ← (operand scope other .void).run q
        let (y, q) ← constantOf scope s (q.typeOf x) m q
        return ((x, y), q) := by
  have hConstant (q : Program) (type : IntType) := operand_untyped scope q hs type
  rw [run_comparands, run_comparands, hName, hOther]
  generalize operand scope = read at hConstant ⊢
  constructor
  · rw [hConstant]
    rfl
  · simp only [hConstant]
    rfl

theorem literal?_of_untypedConstant? {s : String} {m : Int} (h : untypedConstant? s = some m) :
    Text.Integer.literal? s = some m := by
  unfold untypedConstant? at h
  split at h
  · rename_i hCut
    rw [← fst_cutColon hCut]
    exact h
  · cases h

/-- While a body is decoded, its names are those of the values that it adds. As an operand of any type
a name denotes its value, unless it is written like a constant with a type, which it then denotes, or
for whose type it is refused. An integer without a type takes the type of the value whose name it is
compared with; compared with anything else, it takes the type of the first operand or, being the
first, is refused. -/
theorem names_resolve {funcs : List (String × FuncId)} {d : Document.Func} {pending : List Pending}
    (h : (names funcs f d).run p = .ok ((scope, pending), p')) :
    (body funcs f d).run p = (operands d scope pending).run p' ∧
    (∀ name v, scope.values.lookup name = some v ↔ name ≠ "" ∧ p.values.size ≤ v ∧
      v < p'.values.size ∧ (p'.value v).name = name) ∧
    (∀ name v, scope.values.lookup name = some v →
      match typedConstant? name with
      | none =>
        (∀ type q, (operand scope name type).run q = .ok (v, q)) ∧
        ∀ s m, untypedConstant? s = some m → ∀ q,
          (comparands scope s name).run q =
            (constantOf scope s (q.typeOf v) m q).map (fun r => ((r.1, v), r.2)) ∧
          (comparands scope name s).run q =
            (constantOf scope s (q.typeOf v) m q).map fun r => ((v, r.1), r.2)
      | some (m, typeName) => ∀ type q, (operand scope name type).run q =
          match IntType.ofText? typeName with
          | none => .error (.invalidType typeName)
          | some t => constantOf scope name t m q) ∧
    ∀ s m other, untypedConstant? s = some m → scope.values.lookup other = none → ∀ q,
      (comparands scope s other).run q = .error (.untypedConstant s) ∧
      (comparands scope other s).run q = do
        let (x, q) ← (operand scope other .void).run q
        let (y, q) ← constantOf scope s (q.typeOf x) m q
        return ((x, y), q) := by
  have hNames : scope.Names p.values.size f p' := names_ensures p funcs f d _ p' h
  refine ⟨?_, fun name v => hNames.lookup_iff, fun name v hLookup => ?_, fun s m other hs hOther => ?_⟩
  · rw [body_eq, StateT.run_bind, h]
    rfl
  · split
    case h_1 hTyped =>
      have hOperand (type : IntType) (q : Program) :
          (operand scope name type).run q = .ok (v, q) := by
        rw [operand_name scope q (hNames.literal hLookup) hTyped, hLookup]
      refine ⟨hOperand, fun s m hs q => ⟨?_, ?_⟩⟩
      · exact comparands_constant_name hs hLookup hOperand q
      · exact comparands_name_constant hOperand hs q
    case h_2 m typeName hTyped => exact fun type q => operand_typed scope q hTyped type
  · -- an integer is no name
    have hName : scope.values.lookup s = none := by
      cases hLookup : scope.values.lookup s with
      | none => rfl
      | some v => cases (hNames.literal hLookup).symm.trans (literal?_of_untypedConstant? hs)
    exact comparands_constant_other hs hName hOther

/-- A function that returns its second parameter, whose name is written like a constant. -/
def mislabeled : Document.Func :=
  ⟨"f", false, [⟨"x", "i16", none, none⟩, ⟨"7:u8", "u8", none, none⟩],
    [⟨"entry", [], ⟨"", none, "", "", "", [], "", none, some ["7:u8"]⟩⟩]⟩

/-- The names of the function in a program that has only the function, and that program with its
parameters and blocks. -/
def mislabeledNames : (Scope × List Pending) × Program :=
  (((names [] 0 mislabeled).run ((addFunction 0 "f").run start).2).toOption).getD default

/-- The first parameter is found by its name, and the name of the second denotes the constant. -/
theorem mislabeled_resolve :
    (names [] 0 mislabeled).run ((addFunction 0 "f").run start).2 = .ok mislabeledNames ∧
      (∀ type q, (operand mislabeledNames.1.1 "x" type).run q = .ok (0, q)) ∧
      ∀ type q, (operand mislabeledNames.1.1 "7:u8" type).run q =
        constantOf mislabeledNames.1.1 "7:u8" ⟨8, true⟩ 7 q := by
  have hRun : (names [] 0 mislabeled).run ((addFunction 0 "f").run start).2 =
      .ok mislabeledNames := by
    have hSome : ((names [] 0 mislabeled).run ((addFunction 0 "f").run start).2).toOption.isSome =
        true := by decide +kernel
    unfold mislabeledNames
    revert hSome
    cases (names [] 0 mislabeled).run ((addFunction 0 "f").run start).2 with
    | error e => nofun
    | ok r => exact fun _ => rfl
  obtain ⟨-, -, hResolve, -⟩ := names_resolve hRun
  have hFirst := hResolve "x" 0 (by decide +kernel)
  have hSecond := hResolve "7:u8" 1 (by decide +kernel)
  rw [show typedConstant? "x" = none by decide +kernel] at hFirst
  rw [show typedConstant? "7:u8" = some (7, "u8") by decide +kernel] at hSecond
  dsimp only at hFirst hSecond
  rw [show IntType.ofText? "u8" = some ⟨8, true⟩ by decide +kernel] at hSecond
  exact ⟨hRun, hFirst.1, hSecond⟩

/-- The name of the second parameter is accepted, but as an operand it is not the parameter, value 1:
it is a new constant, value 2, which the decoded function returns. -/
theorem mislabeled_misread :
    mislabeledNames.1.1.values.lookup "7:u8" = some 1 ∧
      ((operand mislabeledNames.1.1 "7:u8" .void).run mislabeledNames.2).toOption.map
        (fun r => (r.1, (r.2.value r.1).const)) = some (2, some 7) ∧
      (decode [mislabeled]).toOption.map (fun p => p.returns 0 0) = some [some 2] := by
  decide +kernel

end ValueRange.Decode
