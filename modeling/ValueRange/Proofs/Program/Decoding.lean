import Mathlib.Data.List.Nodup
import ValueRange.Program.Decode
import ValueRange.Proofs.Program.Completeness

/-! Decoding never faults, and what it accepts can be analysed: nothing is missing, and every
function passes the check. -/

namespace ValueRange

/-- The error is a refusal. -/
def DecodeError.Refuses (e : DecodeError) : Prop := ∀ f, e ≠ .fault f

theorem DecodeError.refuses_locate {place : DecodeError → DecodeError}
    (hPlace : ∀ e, (place e).Refuses) {e : DecodeError} (he : e.Refuses) :
    (e.locate place).Refuses := by
  cases e with
  | fault f => exact absurd rfl (he f)
  | _ => exact hPlace _

namespace Decode

open Program

theorem run_locate {α : Type} (place : DecodeError → DecodeError) (x : Decoder α) (p : Program) :
    (tryCatch x fun e => MonadExcept.throw (e.locate place)).run p =
      match x.run p with
      | .ok r => .ok r
      | .error e => .error (e.locate place) := by
  change tryCatch (x.run p) (fun e => .error (e.locate place)) = _
  cases x.run p <;> rfl

/-- Started with `p`, the decoder refuses, or it takes steps and its result satisfies `Q`. -/
def Yields {α : Type} (T : BlockId → Prop) (p : Program) (x : Decoder α)
    (Q : α → Program → Prop) : Prop :=
  match x.run p with
  | .ok (a, p') => Made p' ∧ Step T p p' ∧ Q a p'
  | .error e => e.Refuses

namespace Yields

variable {α β : Type} {T : BlockId → Prop} {p : Program} {x : Decoder α} {f : α → Decoder β}
variable {Q : α → Program → Prop} {R : β → Program → Prop}

theorem throw {e : DecodeError} (h : e.Refuses) : Yields T p (MonadExcept.throw e) Q := h

theorem mono {Q' : α → Program → Prop} (h : Yields T p x Q)
    (hQ : ∀ a p', Step T p p' → Q a p' → Q' a p') : Yields T p x Q' := by
  unfold Yields at h ⊢
  split at h
  · exact ⟨h.1, h.2.1, hQ _ _ h.2.1 h.2.2⟩
  · exact h

theorem weaken {T' : BlockId → Prop} (h : Yields T p x Q) (hT : ∀ b, T b → T' b) :
    Yields T' p x Q := by
  unfold Yields at h ⊢
  split at h
  · exact ⟨h.1, h.2.1.mono hT, h.2.2⟩
  · exact h

theorem bind (hx : Yields T p x Q)
    (hf : ∀ a p', Made p' → Step T p p' → Q a p' → Yields T p' (f a) R) :
    Yields T p (x >>= f) R := by
  unfold Yields at hx
  unfold Yields
  rw [StateT.run_bind]
  cases hRun : x.run p with
  | error e =>
    rw [hRun] at hx
    exact hx
  | ok r =>
    obtain ⟨a, p'⟩ := r
    rw [hRun] at hx
    obtain ⟨hMade, hStep, hQ⟩ := hx
    have hNext := hf a p' hMade hStep hQ
    unfold Yields at hNext
    change match (f a).run p' with
      | .ok (a, p'') => Made p'' ∧ Step T p p'' ∧ R a p''
      | .error e => e.Refuses
    split at hNext
    · exact ⟨hNext.1, hStep.trans hNext.2.1, hNext.2.2⟩
    · exact hNext

/-- An error is reported with its place. -/
theorem locate (place : DecodeError → DecodeError) (hPlace : ∀ e, (place e).Refuses)
    (h : Yields T p x Q) :
    Yields T p (tryCatch x fun e => MonadExcept.throw (e.locate place)) Q := by
  unfold Yields at h ⊢
  rw [run_locate]
  cases hx : x.run p with
  | ok r =>
    rw [hx] at h
    exact h
  | error e =>
    rw [hx] at h
    exact DecodeError.refuses_locate hPlace h

theorem get_bind {f : Program → Decoder β} (h : Yields T p (f p) R) : Yields T p (get >>= f) R :=
  h

theorem modify {step : Program → Program} (hMade : Made (step p)) (h : Step T p (step p)) :
    Yields T p (modify step : Decoder Unit) fun _ p' => p' = step p :=
  ⟨hMade, h, rfl⟩

theorem build {step : Builder α} (hMade : Made (step.run p).2) (h : Step T p (step.run p).2) :
    Yields T p (Decode.build step) fun a p' => a = (step.run p).1 ∧ p' = (step.run p).2 :=
  ⟨hMade, h, rfl, rfl⟩

/-- Where no block gets a terminator, all blocks keep what they have. -/
theorem quiet (h : Yields (fun _ => False) p x Q) : Yields T p x fun a p' => Q a p' ∧
    ∀ b, (p'.block b).term = (p.block b).term :=
  (h.mono fun _ _ hStep hQ => ⟨hQ, fun _ => hStep.term not_false⟩).weaken fun _ => False.elim

section Leaves

variable (hp : Made p)
include hp

theorem pure {a : α} (h : Q a p) : Yields T p (Pure.pure a) Q := ⟨hp, .refl T p, h⟩

theorem lift {e : Except DecodeError α} (hError : ∀ r, e = .error r → r.Refuses) :
    Yields T p (liftM e) fun a p' => p' = p ∧ e = .ok a := by
  cases e with
  | ok a => exact ⟨hp, .refl T p, rfl, rfl⟩
  | error r => exact hError r rfl

theorem orRefuse {answer : Option α} {e : DecodeError} (he : answer = none → e.Refuses) :
    Yields T p (Decode.orRefuse answer e) fun a p' => p' = p ∧ answer = some a := by
  cases answer with
  | some a => exact ⟨hp, .refl T p, rfl, rfl⟩
  | none => exact he rfl

/-- A loop keeps an invariant of its state and the program. -/
theorem foldlM {γ : Type} {xs : List α} {f : γ → α → Decoder γ} {c : γ}
    {I : List α → γ → Program → Prop} (hStart : I xs c p)
    (hStep : ∀ x xs c p', Made p' → Step T p p' → I (x :: xs) c p' →
      Yields T p' (f c x) (I xs)) : Yields T p (xs.foldlM f c) (I []) := by
  induction xs generalizing c p with
  | nil => exact pure hp hStart
  | cons x xs ih =>
    rw [List.foldlM_cons]
    refine bind (hStep x xs c p hp (.refl T p) hStart) fun c' p' hMade hTo hNext => ?_
    exact ih hMade hNext fun y ys c'' p'' hMade' hTo' => hStep y ys c'' p'' hMade' (hTo.trans hTo')

theorem forM {xs : List α} {f : α → Decoder PUnit} {I : List α → Program → Prop} (hStart : I xs p)
    (hStep : ∀ x xs p', Made p' → Step T p p' → I (x :: xs) p' →
      Yields T p' (f x) fun _ p'' => I xs p'') : Yields T p (xs.forM f) fun _ p' => I [] p' := by
  induction xs generalizing p with
  | nil => exact pure hp hStart
  | cons x xs ih =>
    refine bind (hStep x xs p hp (.refl T p) hStart) fun _ p' hMade hTo hNext => ?_
    exact ih hMade hNext fun y ys p'' hMade' hTo' => hStep y ys p'' hMade' (hTo.trans hTo')

/-- All results of a traversal satisfy what later steps keep. -/
theorem mapM {xs : List α} {f : α → Decoder β} {P : β → Program → Prop}
    (hStep : ∀ x ∈ xs, ∀ p', Made p' → Step T p p' → Yields T p' (f x) P)
    (hKeep : ∀ b p' p'', Step T p' p'' → P b p' → P b p'') :
    Yields T p (xs.mapM f) fun bs p' => ∀ b ∈ bs, P b p' := by
  induction xs generalizing p with
  | nil =>
    rw [List.mapM_nil]
    exact pure hp nofun
  | cons x xs ih =>
    rw [List.mapM_cons]
    refine bind (hStep x List.mem_cons_self p hp (.refl T p)) fun b p' hMade hTo hb => ?_
    refine bind (ih hMade fun y hy p'' hMade' hTo' =>
      hStep y (List.mem_cons_of_mem x hy) p'' hMade' (hTo.trans hTo')) fun bs p'' hMade' hTo' hbs => ?_
    refine pure hMade' fun c hc => ?_
    rcases List.mem_cons.mp hc with rfl | hc
    · exact hKeep c p' p'' hTo' hb
    · exact hbs c hc

end Leaves

end Yields

/-! ### Names and operands -/

variable {T : BlockId → Prop} {p p' : Program} {scope : Scope} {f : FuncId}

/-- The scope is that of the function, and its names stand for values of the function. -/
structure Scope.Within (scope : Scope) (f : FuncId) (p : Program) : Prop where
  func : scope.func = f
  holds {e : String × ValueId} : e ∈ scope.values → p.Holds f e.2

theorem Scope.Within.mono (h : scope.Within f p) (hStep : Step T p p') : scope.Within f p' :=
  ⟨h.func, fun he => hStep.holds (h.holds he)⟩

theorem refuses_typeNamed {name : String} {e : DecodeError} (h : typeNamed name = .error e) :
    e.Refuses := by
  unfold typeNamed at h
  split at h
  · cases h
  · cases h
    exact fun _ => nofun

theorem refuses_hint {lower upper : Option String} {e : DecodeError}
    (h : hint lower upper = .error e) : e.Refuses := by
  unfold hint at h
  extract_lets bound at h
  have hBound (text : Option String) (h : bound text = .error e) : e.Refuses := by
    dsimp only [bound] at h
    split at h
    · cases h
    · split at h
      · cases h
      · cases h
        exact fun _ => nofun
  split at h
  · cases h
  · cases hLower : bound lower with
    | error r =>
      rw [hLower] at h
      cases h
      exact hBound lower hLower
    | ok l =>
      cases hUpper : bound upper with
      | error r =>
        rw [hLower, hUpper] at h
        cases h
        exact hBound upper hUpper
      | ok u =>
        rw [hLower, hUpper] at h
        cases h

theorem refuses_define {name : String} {v : ValueId} {e : DecodeError}
    (h : scope.define name v = .error e) : e.Refuses := by
  unfold Scope.define at h
  split_ifs at h
  all_goals
    cases h
    exact fun _ => nofun

/-- A name that is given to a value leaves the blocks as they are. -/
theorem define_spec {scope' : Scope} {name : String} {v : ValueId}
    (h : scope.define name v = .ok scope') : scope'.func = scope.func ∧
      scope'.blocks = scope.blocks ∧ ∀ e ∈ scope'.values, e ∈ scope.values ∨ e.2 = v := by
  unfold Scope.define at h
  split_ifs at h
  · cases h
    exact ⟨rfl, rfl, fun e he => .inl he⟩
  · cases h
    refine ⟨rfl, rfl, fun e he => ?_⟩
    rcases List.mem_cons.mp he with rfl | he
    · exact .inr rfl
    · exact .inl he

/-! ### Operands and terminators -/

section Body

variable (hp : Made p)
include hp

theorem holds_constant (f : FuncId) (type : IntType) (n : Int) :
    ((constant f type n).run p).2.Holds f ((constant f type n).run p).1 := by
  unfold constant
  simp only [StateT.run_bind, StateT.run_get, pure_bind]
  split
  case h_1 v hv =>
    have hMem := Array.mem_of_find?_eq_some hv
    exact ⟨hp.numbered.value_lt hMem, hp.owned.owner hMem⟩
  case h_2 => exact holds_addValue f "" type (some n) none none p

theorem constant_yields (f : FuncId) (type : IntType) (n : Int) :
    Yields T p (Decode.build (constant f type n)) fun v p' => p'.Holds f v := by
  refine (Yields.build (.constant hp f type n) (step_constant f type n p)).mono ?_
  rintro v p' - ⟨rfl, rfl⟩
  exact holds_constant hp f type n

theorem operand_yields (hs : scope.Within f p) (s : String) (type : IntType) :
    Yields T p (operand scope s type) fun v p' => p'.Holds f v := by
  have hConst {p' : Program} (hp' : Made p') (type : IntType) (n : Int) : Yields T p'
      (if type.isInteger then Decode.build (constant scope.func type n)
        else MonadExcept.throw (DecodeError.untypedConstant s)) fun v p'' => p''.Holds f v := by
    split
    · rw [hs.func]
      exact constant_yields hp' f type n
    · exact Yields.throw fun _ => nofun
  unfold operand
  dsimp only
  split
  case h_1 n _ =>
    split
    · refine Yields.bind (Yields.lift hp fun r => refuses_typeNamed) ?_
      intro type p' hp' _ _
      exact hConst hp' type n
    · exact hConst hp type n
  case h_2 =>
    refine (Yields.orRefuse hp ?_).mono ?_
    · exact fun _ _ => nofun
    · rintro v p' - ⟨rfl, hv⟩
      exact hs.holds (mem_of_lookup hv)

theorem typeOfName_yields (s : String) : Yields T p (typeOfName scope s) fun _ p' => p' = p := by
  unfold typeOfName
  split
  · exact Yields.get_bind (Yields.pure hp rfl)
  · exact Yields.pure hp rfl

theorem comparands_yields (hs : scope.Within f p) (xs ys : String) :
    Yields T p (comparands scope xs ys) fun r p' => p'.Holds f r.1 ∧ p'.Holds f r.2 := by
  have hOperand {p' : Program} (hp' : Made p') (hs' : scope.Within f p') (s : String)
      (type : IntType) : Yields T p' (operand scope s type) fun v p'' => p''.Holds f v :=
    operand_yields hp' hs' s type
  unfold comparands
  -- how an operand is read does not matter here
  generalize operand scope = read at hOperand ⊢
  refine Yields.bind (typeOfName_yields hp ys) ?_
  rintro type p1 - - rfl
  refine Yields.bind (hOperand hp hs xs type) fun x p2 hp2 hTo hx => ?_
  refine Yields.get_bind (Yields.bind (hOperand hp2 (hs.mono hTo) ys _) ?_)
  intro y p3 hp3 hTo' hy
  exact Yields.pure hp3 ⟨hTo'.holds hx, hy⟩

theorem target_yields (name : String) : Yields T p (scope.block name) fun _ p' => p' = p :=
  (Yields.orRefuse hp fun _ => (fun _ => nofun : (DecodeError.undefinedBlock name).Refuses)).mono
    fun _ _ _ h => h.1

theorem operands_yield (hs : scope.Within f p) (args : List String) (type : IntType) :
    Yields T p (args.mapM fun arg => operand scope arg type) fun vs p' =>
      ∀ a ∈ vs.map some, p'.Operand f a := by
  refine (Yields.mapM (P := fun v p' => p'.Holds f v) hp
    (fun arg _ p' hp' hTo => operand_yields hp' (hs.mono hTo) arg type)
    fun v p' p'' hStep hv => hStep.holds hv).mono fun vs p' _ hvs a ha => ?_
  obtain ⟨v, hv, rfl⟩ := List.mem_map.mp ha
  exact ⟨v, rfl, hvs v hv⟩

theorem terminator_yields (hs : scope.Within f p) (d : Document.Term) :
    Yields T p (terminator scope d) fun t p' => p'.Ready f t := by
  have hAll {α β : Type} {xs : List α} {f : α → Decoder β} {p' : Program} (hp' : Made p')
      (h : ∀ x p'', Made p'' → Yields T p'' (f x) fun _ _ => True) :
      Yields T p' (xs.mapM f) fun _ _ => True :=
    (Yields.mapM (P := fun _ _ => True) hp' (fun x _ p'' hp'' _ => h x p'' hp'')
      fun _ _ _ _ => id).mono fun _ _ _ _ => trivial
  have hBlock (name : String) (p' : Program) (hp' : Made p') :
      Yields T p' (scope.block name) fun _ _ => True :=
    (target_yields hp' name).mono fun _ _ _ _ => trivial
  unfold terminator
  extract_lets rest
  have hRest : Yields T p (rest ()) fun t p' => p'.Ready f t := by
    dsimp only [rest]
    split
    · refine Yields.bind (operand_yields hp hs d.switch .void) fun on p1 hp1 _ hOn => ?_
      refine Yields.bind (hBlock d.otherwise p1 hp1) fun otherwise p2 hp2 hTo2 _ => ?_
      refine Yields.bind (hAll hp2 fun c p' hp' => ?_) fun cases p3 hp3 hTo3 _ => ?_
      · refine Yields.bind (Yields.orRefuse hp' ?_) fun n p'' hp'' _ _ => ?_
        · exact fun _ _ => nofun
        · exact Yields.bind (hBlock c.target p'' hp'') fun _ _ hp3 _ _ => Yields.pure hp3 trivial
      · refine Yields.pure hp3 ⟨fun ha => ?_, nofun⟩
        rw [List.mem_singleton.mp ha]
        exact ⟨on, rfl, (hTo2.trans hTo3).holds hOn⟩
    · split
      · refine Yields.bind (hAll hp hBlock) fun targets p1 hp1 _ _ => ?_
        exact Yields.pure hp1 ⟨nofun, nofun⟩
      · split
        · refine Yields.bind (operands_yield hp hs _ .void) fun values p1 hp1 _ hValues => ?_
          exact Yields.pure hp1 ⟨hValues _, nofun⟩
        · exact Yields.throw fun _ => nofun
  split
  · refine Yields.bind (hBlock d.jump p hp) fun target p1 hp1 _ _ => ?_
    exact Yields.pure hp1 ⟨nofun, nofun⟩
  · split
    · split
      · rename_i xs name ys _
        refine Yields.bind (Yields.orRefuse hp ?_) ?_
        · exact fun _ _ => nofun
        rintro c p1 hp1 - ⟨rfl, -⟩
        refine Yields.bind (comparands_yields hp hs xs ys) fun r p2 hp2 _ hr => ?_
        obtain ⟨hx, hy⟩ := hr
        refine Yields.bind (hBlock d.yes p2 hp2) fun yes p3 hp3 hTo3 _ => ?_
        refine Yields.bind (hBlock d.no p3 hp3) fun no p4 hp4 hTo4 _ => ?_
        have hTo := hTo3.trans hTo4
        refine Yields.pure hp4 ⟨fun ha => ?_, fun h => ?_⟩
        · rcases List.mem_cons.mp ha with rfl | ha
          · exact ⟨r.1, rfl, hTo.holds hx⟩
          · rw [List.mem_singleton.mp ha]
            exact ⟨r.2, rfl, hTo.holds hy⟩
        · cases h
          exact ⟨c, rfl⟩
      · exact Yields.throw fun _ => nofun
    · exact hRest

/-! ### Bodies -/

theorem describe_yields {v : ValueId} (hs : scope.Within f p) (hv : p.Holds f v)
    (name : String) (lower upper : Option String) :
    Yields T p (describe scope name lower upper v) fun scope' p' =>
      scope'.blocks = scope.blocks ∧ scope'.Within f p' := by
  unfold describe
  refine Yields.bind (Yields.lift hp fun r => refuses_hint) ?_
  rintro h p1 - - ⟨rfl, -⟩
  refine Yields.bind (Yields.modify (.setHint hp v h) (step_setHint v h p1)) ?_
  rintro - p2 hp2 hTo2 -
  refine (Yields.lift hp2 fun r => refuses_define).mono ?_
  rintro scope' p3 - ⟨rfl, hDefine⟩
  obtain ⟨hFunc, hBlocks, hValues⟩ := define_spec hDefine
  refine ⟨hBlocks, hFunc.trans hs.func, fun {e} he => ?_⟩
  rcases hValues e he with he | he
  · exact hTo2.holds (hs.holds he)
  · exact he ▸ hTo2.holds hv

theorem param_yields (hs : scope.Within f p) (d : Document.Param) :
    Yields T p (param scope d) fun scope' p' =>
      scope'.blocks = scope.blocks ∧ scope'.Within f p' := by
  unfold param
  refine Yields.bind (Yields.lift hp fun r => refuses_typeNamed) ?_
  rintro type p1 - - ⟨rfl, -⟩
  refine Yields.bind (Yields.build (.addParam hp scope.func d.name type none)
    (step_addParam scope.func d.name type none p1)) ?_
  rintro v p2 hp2 hTo2 ⟨rfl, rfl⟩
  refine describe_yields hp2 (hs.mono hTo2) ?_ d.name d.lower d.upper
  rw [← hs.func]
  exact holds_addValue scope.func d.name type none none none p1

omit hp in
theorem holds_emit {b : BlockId} {op : Opcode} {name : String} {type : IntType} {v : ValueId}
    (h : ((Program.emit b op name type [] none none).run p).1 = some v) :
    ((Program.emit b op name type [] none none).run p).2.Holds (p.block b).owner v := by
  by_cases hInt : type.isInteger = true
  · rw [run_emit_of_integer hInt]
    have hv : v = p.values.size := by
      simp only [Program.emit, hInt] at h
      exact (Option.some.inj h).symm
    rw [hv]
    exact holds_addValue (p.block b).owner name type none none (some ⟨b, (p.block b).instrs.size⟩) p
  · simp only [Program.emit, hInt] at h
    cases h

theorem instr_yields (hs : scope.Within f p) (funcs : List (String × FuncId)) (blockName : String)
    {b : BlockId} (hb : p.Houses f b) (d : Document.Instr) :
    Yields T p (instr funcs blockName b scope d) fun r p' =>
      r.1.blocks = scope.blocks ∧ r.1.Within f p' ∧ r.2.site.block = b := by
  unfold instr
  refine Yields.bind (Yields.orRefuse hp ?_) ?_
  · exact fun _ _ => nofun
  rintro op p1 - - ⟨rfl, -⟩
  refine Yields.bind (Yields.orRefuse hp ?_) ?_
  · exact fun _ _ => nofun
  rintro type p2 - - ⟨rfl, -⟩
  refine Yields.get_bind ?_
  extract_lets site
  refine Yields.bind (Yields.build (.emit hp b op d.result type [] none none)
    (step_emit hb.1 op d.result type none none)) ?_
  rintro result p3 hp3 hTo3 ⟨hResult, rfl⟩
  extract_lets rest
  have hRest (scope' : Scope) (p4 : Program) (hp4 : Made p4) (hBlocks : scope'.blocks = scope.blocks)
      (hs' : scope'.Within f p4) : Yields T p4 (rest scope') fun r p' =>
        r.1.blocks = scope.blocks ∧ r.1.Within f p' ∧ r.2.site.block = b := by
    dsimp only [rest]
    split
    · refine Yields.bind (Yields.orRefuse hp4 ?_) ?_
      · exact fun _ _ => nofun
      rintro callee p5 - - ⟨rfl, -⟩
      refine Yields.bind (Yields.modify (.modifyInstr hp4 site _ fun _ => rfl)
        (step_modifyInstr site p5 fun _ => .inl rfl)) ?_
      rintro - p6 hp6 hTo6 -
      exact Yields.pure hp6 ⟨hBlocks, hs'.mono hTo6, rfl⟩
    · exact Yields.pure hp4 ⟨hBlocks, hs', rfl⟩
  split
  · exact hRest scope _ hp3 rfl (hs.mono hTo3)
  · refine Yields.bind (describe_yields hp3 (hs.mono hTo3) (hb.2 ▸ holds_emit hResult.symm) d.result
      d.lower d.upper) ?_
    rintro scope' p4 hp4 - ⟨hBlocks, hs'⟩
    exact hRest scope' p4 hp4 hBlocks hs'

/-- The block of a name that was added is known. -/
theorem known_yields {α : Type} {names : List (String × α)} {name : String} {a : α}
    (h : names.lookup name = some a) : Yields T p (known names name) fun a' p' => p' = p ∧ a' = a :=
  (Yields.orRefuse hp fun hNone => by rw [h] at hNone; cases hNone).mono fun a' p' _ h' =>
    ⟨h'.1, Option.some.inj (h'.2.symm.trans h)⟩

/-- The instructions are in blocks of the function. -/
def Awaited (f : FuncId) (pending : List Pending) (p : Program) : Prop :=
  ∀ one ∈ pending, p.Houses f one.site.block

omit hp in
theorem Awaited.mono {pending : List Pending} (h : Awaited f pending p) (hStep : Step T p p') :
    Awaited f pending p' :=
  fun one hOne => hStep.houses (h one hOne)

omit hp in
theorem Awaited.append {pending more : List Pending} (h : Awaited f pending p)
    (hMore : Awaited f more p) : Awaited f (pending ++ more) p :=
  fun one hOne => (List.mem_append.mp hOne).elim (h one) (hMore one)

theorem instrs_yields (hs : scope.Within f p) (funcs : List (String × FuncId)) {d : Document.Block}
    {b : BlockId} (hName : scope.blocks.lookup d.name = some b) (hb : p.Houses f b) :
    Yields T p (instrs funcs scope d) fun r p' =>
      r.1.blocks = scope.blocks ∧ r.1.Within f p' ∧ Awaited f r.2 p' := by
  unfold instrs
  refine Yields.bind (known_yields hp hName) ?_
  rintro b' p1 - - ⟨rfl, rfl⟩
  refine Yields.foldlM (I := fun _ (r : Scope × List Pending) p' => r.1.blocks = scope.blocks ∧
    r.1.Within f p' ∧ Awaited f r.2 p') hp ⟨rfl, hs, nofun⟩ ?_
  rintro i is ⟨scope', pending⟩ p2 hp2 hTo2 ⟨hBlocks, hs', hPending⟩
  refine Yields.bind (instr_yields hp2 hs' funcs d.name (hTo2.houses hb) i) ?_
  rintro ⟨scope'', one⟩ p3 hp3 hTo3 ⟨hBlocks', hs'', hSite⟩
  refine Yields.pure hp3 ⟨hBlocks'.trans hBlocks, hs'', (hPending.mono hTo3).append ?_⟩
  intro one' hOne'
  rw [List.mem_singleton.mp hOne', hSite]
  exact (hTo2.trans hTo3).houses hb

theorem resolve_yields (hs : scope.Within f p) {pending : Pending}
    (hPending : p.Houses f pending.site.block) :
    Yields T p (resolve scope pending) fun _ p' => scope.Within f p' := by
  unfold resolve
  refine Yields.bind (operands_yield hp hs pending.args pending.type) fun args p1 hp1 hTo hArgs => ?_
  refine (Yields.modify (.modifyInstr hp1 pending.site _ ?_)
    (step_modifyInstr pending.site p1 fun i => ?_)).mono fun _ p2 hTo' _ => ?_
  · exact fun _ => rfl
  · refine .inr ?_
    rw [(hTo.houses hPending).2]
    exact hArgs
  exact hs.mono (hTo.trans hTo')

theorem blockTerm_yields (hs : scope.Within f p) {d : Document.Block} {b : BlockId}
    (hName : scope.blocks.lookup d.name = some b) (hb : p.Houses f b)
    (hOpen : (p.block b).term = none) :
    Yields (· = b) p (blockTerm scope d) fun _ p' => scope.Within f p' := by
  unfold blockTerm
  refine Yields.bind (known_yields hp hName) ?_
  rintro b' p1 - - ⟨rfl, rfl⟩
  refine Yields.bind (Yields.quiet (Yields.locate (.inBlock d.name) (fun _ _ => nofun)
    (terminator_yields hp hs d.term))) ?_
  rintro t p2 hp2 hTo ⟨ht, hTerm⟩
  have hSet : Program.setTerminator b' t p2 = .ok (p2.terminate b' t) := by
    unfold Program.setTerminator
    rw [hTerm, hOpen]
  have hRun : (attempt (Program.setTerminator b' t)).run p2 = .ok ((), p2.terminate b' t) := by
    unfold attempt
    simp only [StateT.run_bind, StateT.run_get, pure_bind, hSet]
    rfl
  unfold Yields
  rw [hRun]
  have hStep := step_terminate p2 ((hTo.houses hb).2.symm ▸ ht)
  exact ⟨.terminate hp2 b' t, hStep, hs.mono (hTo.trans hStep)⟩

end Body

/-- The blocks of a scope have the names of a list. They are blocks of the function, distinct, do not
come before `n`, and have no terminators. -/
structure Scope.Opens (scope : Scope) (f : FuncId) (p : Program) (n : Nat) (names : List String) :
    Prop where
  named : scope.blocks.map (·.1) = names.reverse
  nodup : names.Nodup
  distinct : (scope.blocks.map (·.2)).Nodup
  late {e : String × BlockId} : e ∈ scope.blocks → n ≤ e.2
  houses {e : String × BlockId} : e ∈ scope.blocks → p.Houses f e.2
  term {e : String × BlockId} : e ∈ scope.blocks → (p.block e.2).term = none

namespace Scope.Opens

variable {n : Nat} {names : List String} (h : scope.Opens f p n names)
include h

theorem mono {scope' : Scope} (hBlocks : scope'.blocks = scope.blocks) (hStep : Step T p p')
    (hTerm : ∀ b, (p'.block b).term = (p.block b).term) : scope'.Opens f p' n names :=
  ⟨hBlocks ▸ h.named, h.nodup, hBlocks ▸ h.distinct, fun he => h.late (hBlocks ▸ he),
    fun he => hStep.houses (h.houses (hBlocks ▸ he)),
    fun he => (hTerm _).trans (h.term (hBlocks ▸ he))⟩

theorem lookup {name : String} (hName : name ∈ names) : ∃ b, scope.blocks.lookup name = some b := by
  have hMem : name ∈ scope.blocks.map (·.1) := by
    rw [h.named]
    exact List.mem_reverse.mpr hName
  obtain ⟨e, he, rfl⟩ := List.mem_map.mp hMem
  cases hLookup : scope.blocks.lookup e.1 with
  | some b => exact ⟨b, rfl⟩
  | none => exact absurd rfl (bne_iff_ne.mp (List.lookup_eq_none_iff.mp hLookup e he))

/-- One more block, which has no terminator yet. -/
theorem addBlock {name : String} (hn : n ≤ p.blocks.size)
    (hName : scope.blocks.lookup name = none) :
    { scope with blocks := (name, p.blocks.size) :: scope.blocks }.Opens f
      ((Program.addBlock f name).run p).2 n (names ++ [name]) := by
  have hStep : Step (fun _ => False) p ((Program.addBlock f name).run p).2 := step_addBlock f name p
  refine ⟨?_, ?_, ?_, fun {e} he => ?_, fun {e} he => ?_, fun {e} he => ?_⟩
  · rw [List.map_cons, h.named, List.reverse_append]
    rfl
  · refine List.nodup_append.mpr ⟨h.nodup, List.nodup_singleton _, fun a ha b hb hEq => ?_⟩
    obtain ⟨b', hb'⟩ := h.lookup ha
    rw [hEq, List.mem_singleton.mp hb, hName] at hb'
    cases hb'
  · refine List.nodup_cons.mpr ⟨fun hMem => ?_, h.distinct⟩
    obtain ⟨e, he, hEq⟩ := List.mem_map.mp hMem
    exact Nat.ne_of_lt (h.houses he).1 hEq
  · rcases List.mem_cons.mp he with rfl | he
    · exact hn
    · exact h.late he
  · rcases List.mem_cons.mp he with rfl | he
    · exact houses_addBlock f name p
    · exact hStep.houses (h.houses he)
  · rw [hStep.term not_false]
    rcases List.mem_cons.mp he with rfl | he
    · rw [block_of_le (Nat.le_refl _)]
      rfl
    · exact h.term he

/-- Blocks of different names are different. -/
theorem name_eq {a a' : String} {b : BlockId} (ha : scope.blocks.lookup a = some b)
    (ha' : scope.blocks.lookup a' = some b) : a = a' :=
  congrArg Prod.fst (List.inj_on_of_nodup_map h.distinct (mem_of_lookup ha) (mem_of_lookup ha') rfl)

end Scope.Opens

section Body

variable (hp : Made p)
include hp

theorem block_yields {n : Nat} {names : List String} (hs : scope.Within f p)
    (h : scope.Opens f p n names) (hn : n ≤ p.blocks.size) (d : Document.Block) :
    Yields T p (block scope d) fun scope' p' =>
      scope'.Within f p' ∧ scope'.Opens f p' n (names ++ [d.name]) := by
  unfold block
  dsimp only
  split
  · exact Yields.throw fun _ => nofun
  case isFalse hNew =>
    refine Yields.bind (Yields.build (.addBlock hp scope.func d.name)
      (step_addBlock scope.func d.name p)) ?_
    rintro b p' hp' hTo ⟨rfl, rfl⟩
    obtain rfl := hs.func
    have hScope := hs.mono hTo
    exact Yields.pure hp' ⟨⟨rfl, hScope.holds⟩,
      h.addBlock hn (Option.not_isSome_iff_eq_none.mp hNew)⟩

/-- The terminators of blocks with different names. -/
theorem blockTerms_yield {n : Nat} {names : List String} (hs : scope.Within f p)
    (h : scope.Opens f p n names) (ds : List Document.Block) (hDs : ds.map (·.name) = names) :
    Yields (n ≤ ·) p (ds.forM (blockTerm scope)) fun _ _ => True := by
  have hStart : ∀ d ∈ ds, ∃ b, scope.blocks.lookup d.name = some b ∧ (p.block b).term = none := by
    intro d hd
    obtain ⟨b, hb⟩ := h.lookup (hDs ▸ List.mem_map_of_mem hd)
    exact ⟨b, hb, h.term (mem_of_lookup hb)⟩
  refine (Yields.forM (I := fun ds p' => scope.Within f p' ∧ (ds.map (·.name)).Nodup ∧ ∀ d ∈ ds, ∃ b,
    scope.blocks.lookup d.name = some b ∧ (p'.block b).term = none) hp
    ⟨hs, hDs ▸ h.nodup, hStart⟩ ?_).mono fun _ _ _ _ => trivial
  rintro d ds p' hp' hTo ⟨hs', hNodup, hOpen⟩
  obtain ⟨hNot, hRest⟩ := List.nodup_cons.mp hNodup
  obtain ⟨b, hb, hTerm⟩ := hOpen d List.mem_cons_self
  have hHouses := hTo.houses (h.houses (mem_of_lookup hb))
  refine Yields.weaken (T := (· = b)) ?_ fun c hc => hc ▸ h.late (mem_of_lookup hb)
  refine (blockTerm_yields hp' hs' hb hHouses hTerm).mono fun _ p'' hStep hs'' => ⟨hs'', hRest, ?_⟩
  intro d' hd'
  obtain ⟨b', hb', hTerm'⟩ := hOpen d' (List.mem_cons_of_mem d hd')
  refine ⟨b', hb', (hStep.term fun hEq => hNot ?_).trans hTerm'⟩
  exact List.mem_map.mpr ⟨d', hd', (h.name_eq hb (hEq ▸ hb')).symm⟩

theorem body_yields (funcs : List (String × FuncId)) (f : FuncId) (d : Document.Func) :
    Yields (p.blocks.size ≤ ·) p (body funcs f d) fun _ _ => True := by
  unfold body
  refine Yields.bind (Yields.modify (.setExternal hp f d.external) (step_functions p f _)) ?_
  rintro - p1 hp1 hTo1 -
  refine Yields.bind (Yields.foldlM (I := fun _ (scope : Scope) p' => scope.blocks = [] ∧
    scope.Within f p') hp1 ⟨rfl, rfl, nofun⟩ ?_) ?_
  · rintro param params scope p' hp' - ⟨hBlocks, hs⟩
    exact (param_yields hp' hs param).mono fun _ _ _ h => ⟨h.1.trans hBlocks, h.2⟩
  rintro scope p2 hp2 hTo2 ⟨hBlocks, hs⟩
  have hFresh : scope.Opens f p2 p.blocks.size [] :=
    ⟨hBlocks ▸ rfl, List.nodup_nil, hBlocks ▸ List.nodup_nil, hBlocks ▸ nofun, hBlocks ▸ nofun,
      hBlocks ▸ nofun⟩
  refine Yields.bind (Yields.foldlM (I := fun ds (scope : Scope) p' => scope.Within f p' ∧
    ∃ done, done ++ ds = d.blocks ∧ scope.Opens f p' p.blocks.size (done.map (·.name))) hp2
    ⟨hs, [], rfl, hFresh⟩ ?_) ?_
  · rintro b bs scope p' hp' hTo' ⟨hs, done, hDone, hOpens⟩
    refine (block_yields hp' hs hOpens ((hTo1.trans hTo2).trans hTo').blocks b).mono fun _ _ _ h => ?_
    refine ⟨h.1, done ++ [b], by rw [List.append_assoc]; exact hDone, ?_⟩
    rw [List.map_append]
    exact h.2
  rintro scope p3 hp3 hTo3 ⟨hs, done, hDone, hOpens⟩
  rw [List.append_nil] at hDone
  subst hDone
  -- From here on the blocks stay, and none gets a terminator before the last loop.
  refine Yields.bind (Yields.foldlM (I := fun ds (r : Scope × List Pending) p' =>
    (∀ b ∈ ds, b ∈ d.blocks) ∧ r.1.Within f p' ∧ Awaited f r.2 p' ∧
      r.1.Opens f p' p.blocks.size (d.blocks.map (·.name))) hp3
    ⟨fun _ => id, hs, nofun, hOpens⟩ ?_) ?_
  · rintro b bs ⟨scope, pending⟩ p' hp' - ⟨hBs, hs, hPending, hOpens⟩
    obtain ⟨c, hc⟩ := hOpens.lookup (List.mem_map_of_mem (hBs b List.mem_cons_self))
    have hHouses := hOpens.houses (mem_of_lookup hc)
    refine Yields.bind (Yields.quiet (instrs_yields hp' hs funcs hc hHouses)) ?_
    rintro ⟨scope', more⟩ p'' hp'' hTo'' ⟨⟨hBlocks, hs', hMore⟩, hTerm⟩
    exact Yields.pure hp'' ⟨fun x hx => hBs x (List.mem_cons_of_mem b hx), hs',
      (hPending.mono hTo'').append hMore, hOpens.mono hBlocks hTo'' hTerm⟩
  rintro ⟨scope, pending⟩ p4 hp4 - ⟨-, hs, hPending, hOpens⟩
  refine Yields.bind (Yields.forM (I := fun pending p' => scope.Within f p' ∧ Awaited f pending p' ∧
    scope.Opens f p' p.blocks.size (d.blocks.map (·.name))) hp4 ⟨hs, hPending, hOpens⟩ ?_) ?_
  · rintro one rest p' hp' - ⟨hs, hPending, hOpens⟩
    refine (Yields.quiet (resolve_yields hp' hs (hPending one List.mem_cons_self))).mono
      fun _ p'' hTo h => ⟨h.1, ?_, hOpens.mono rfl hTo h.2⟩
    exact fun other hOther => hTo.houses (hPending other (List.mem_cons_of_mem one hOther))
  rintro - p5 hp5 - ⟨hs, -, hOpens⟩
  exact blockTerms_yield hp5 hs hOpens d.blocks rfl

/-! ### Modules -/

theorem declare_yields (d : List Document.Func) : Yields T p (declare d) fun funcs _ =>
    ∀ fn ∈ d, ∃ f, funcs.lookup fn.name = some f := by
  unfold declare
  refine (Yields.foldlM (I := fun ds (funcs : List (String × FuncId)) _ => ∃ done, done ++ ds = d ∧
    ∀ fn ∈ done, ∃ f, funcs.lookup fn.name = some f) hp ⟨[], rfl, nofun⟩ ?_).mono ?_
  · rintro fn fns funcs p' hp' - ⟨done, hDone, hFuncs⟩
    dsimp only
    split
    · exact Yields.throw fun _ => nofun
    · refine Yields.bind (Yields.build (.addFunction hp' 0 fn.name) (step_addFunction fn.name p')) ?_
      rintro f p'' hp'' - -
      refine Yields.pure hp'' ⟨done ++ [fn], by rw [List.append_assoc]; exact hDone, ?_⟩
      intro fn' hfn'
      rw [List.lookup_cons]
      split
      · exact ⟨f, rfl⟩
      case h_2 hNe =>
        rcases List.mem_append.mp hfn' with h | h
        · exact hFuncs fn' h
        · rw [List.mem_singleton.mp h, beq_self_eq_true] at hNe
          cases hNe
  · rintro funcs p' - ⟨done, hDone, hFuncs⟩
    rw [List.append_nil] at hDone
    exact hDone ▸ hFuncs

theorem functions_yields (d : List Document.Func) :
    Yields (fun _ => True) p (functions d) fun _ _ => True := by
  unfold functions
  refine Yields.bind (declare_yields hp d) fun funcs p1 hp1 _ hFuncs => ?_
  refine (Yields.forM (I := fun ds _ => ∀ fn ∈ ds, ∃ f, funcs.lookup fn.name = some f) hp1 hFuncs
    ?_).mono fun _ _ _ _ => trivial
  intro fn fns p2 hp2 _ hFuncs
  obtain ⟨f, hf⟩ := hFuncs fn List.mem_cons_self
  refine Yields.bind (known_yields hp2 hf) ?_
  rintro f' p3 hp3 - -
  refine (Yields.locate (.inFunction fn.name) (fun _ _ => nofun)
    ((body_yields hp3 funcs f' fn).weaken fun _ _ => trivial)).mono fun _ _ _ _ => ?_
  exact fun fn' hfn' => hFuncs fn' (List.mem_cons_of_mem fn hfn')

end Body

end Decode

/-- Decoding refuses a written module or accepts it; it never faults. -/
theorem decode_accepts (d : List Document.Func) :
    match decode d with
    | .ok p => p.Accepted
    | .error e => e.Refuses := by
  have hFunctions := Decode.functions_yields .start d
  unfold Decode.Yields at hFunctions
  unfold decode
  cases hRun : (Decode.functions d).run Program.start with
  | error e =>
    rw [hRun] at hFunctions
    exact hFunctions
  | ok r =>
    obtain ⟨_, p⟩ := r
    rw [hRun] at hFunctions
    obtain ⟨hMade, hStep, -⟩ := hFunctions
    change match Decode.checked p with
      | .ok p => p.Accepted
      | .error e => e.Refuses
    unfold Decode.checked
    cases hNone : (p.moduleAt 0).functions.toList.findSome? p.check with
    | some report => exact fun _ => nofun
    | none =>
      refine ⟨hMade, hStep.complete Program.complete_start, fun {f} hf => ?_⟩
      have hCheck := List.findSome?_eq_none_iff.mp hNone f (Array.mem_toList_iff.mpr hf)
      unfold Program.check at hCheck
      split at hCheck
      case h_1 h => exact h
      · cases hCheck

end ValueRange
