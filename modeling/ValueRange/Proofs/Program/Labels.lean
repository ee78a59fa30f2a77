import ValueRange.Proofs.Program.Layout
import ValueRange.Proofs.Program.Naming

/-! Decoded programs keep values apart. Decoding adds the values of one function after the other,
and refuses a name that the function already has or that reads as an integer. So the values of a
function that have names have different ones, and terminators lead to blocks of their own function.
-/

namespace ValueRange

namespace Program

variable {p p' p'' : Program} {f : FuncId} {b : BlockId} {v w : ValueId}

/-- What tells a value from the others of its function in texts, apart from its number. -/
structure Label where
  name : String
  const : Option Int
  owner : FuncId

/-- The label of a value. -/
def label (p : Program) (v : ValueId) : Label :=
  ⟨(p.value v).name, (p.value v).const, (p.value v).owner⟩

/-- Terminators lead to blocks of their own function. -/
def Enclosed (p : Program) : Prop :=
  ∀ b t, (p.block b).term = some t → ∀ c ∈ t.successors, p.Houses (p.block b).owner c

/-- The second program has all that the first has, and values whose labels satisfy `P`. -/
structure Grown (P : Label → Prop) (p p' : Program) : Prop where
  layout : Layout p → Layout p'
  enclosed : Enclosed p → Enclosed p'
  functions : p.functions.size ≤ p'.functions.size
  houses {f : FuncId} {b : BlockId} : p.Houses f b → p'.Houses f b
  size : p.values.size ≤ p'.values.size
  old {v : ValueId} : v < p.values.size → p'.label v = p.label v
  new {v : ValueId} : p.values.size ≤ v → v < p'.values.size → P (p'.label v)

section Grown

variable {P P' : Label → Prop}

theorem Grown.refl (P : Label → Prop) (p : Program) : Grown P p p :=
  ⟨id, id, Nat.le_refl _, id, Nat.le_refl _, fun _ => rfl,
    fun hv hlt => absurd hlt (Nat.not_lt.mpr hv)⟩

theorem Grown.trans (h : Grown P p p') (h' : Grown P p' p'') : Grown P p p'' where
  layout := h'.layout ∘ h.layout
  enclosed := h'.enclosed ∘ h.enclosed
  functions := Nat.le_trans h.functions h'.functions
  houses := h'.houses ∘ h.houses
  size := Nat.le_trans h.size h'.size
  old hv := (h'.old (Nat.lt_of_lt_of_le hv h.size)).trans (h.old hv)
  new {v} hv hlt := by
    by_cases hMid : v < p'.values.size
    · rw [h'.old hMid]
      exact h.new hv hMid
    · exact h'.new (Nat.not_lt.mp hMid) hlt

theorem Grown.mono (h : Grown P p p') (hP : ∀ l, P l → P' l) : Grown P' p p' :=
  ⟨h.layout, h.enclosed, h.functions, h.houses, h.size, h.old, fun hv hlt => hP _ (h.new hv hlt)⟩

/-- A step that ends no block. -/
theorem Grown.of_step (h : Step (fun _ => False) p p')
    (hChanges : Layout p → Relation.ReflTransGen Change p p')
    (hFunctions : p.functions.size ≤ p'.functions.size) (hSize : p.values.size ≤ p'.values.size)
    (hOld : ∀ v < p.values.size, p'.label v = p.label v)
    (hNew : ∀ v, p.values.size ≤ v → v < p'.values.size → P (p'.label v)) : Grown P p p' where
  layout hp := hp.changes (hChanges hp)
  enclosed hp b t ht c hc := by
    rw [h.term not_false] at ht
    rw [(h.houses ⟨lt_of_term ht, rfl⟩).2]
    exact h.houses (hp b t ht c hc)
  functions := hFunctions
  houses := h.houses
  size := hSize
  old := hOld _
  new := hNew _

/-- A step that keeps the outline and the names. -/
theorem Grown.touch (h : SameOutline p p') (hName : ∀ v, (p'.value v).name = (p.value v).name) :
    Grown P p p' := by
  have hHouses (f : FuncId) (b : BlockId) : p'.Houses f b ↔ p.Houses f b := by
    rw [Houses, Houses, h.blocks, h.blockOwner]
  refine ⟨fun hp => hp.change (.touch h), fun hp b t ht c hc => ?_, Nat.le_of_eq h.functions.symm,
    (hHouses _ _).mpr, Nat.le_of_eq h.values.symm, fun {v} _ => ?_, fun {v} hv hlt => ?_⟩
  · rw [h.term] at ht
    rw [hHouses, h.blockOwner]
    exact hp b t ht c hc
  · rw [label, hName, h.const, h.valueOwner]
    rfl
  · rw [h.values] at hlt
    exact absurd hlt (Nat.not_lt.mpr hv)

theorem grown_addValue (hf : f < p.functions.size) (name : String) (type : IntType)
    (const : Option Int) (hint : Option Hint) (site : Option Site)
    (hSite : ∀ s ∈ site, p.Houses f s.block) (hNew : ∀ n ∈ const, p.constant? f type n = none)
    (hP : P ⟨name, const, f⟩) : Grown P p ((addValue f name type const hint site).run p).2 := by
  refine .of_step (step_addValue f name type const hint site p hSite)
    (fun _ => .single (.addValue hf name type const hint site hNew))
    (Nat.le_of_eq Array.size_modify.symm) (size_values_addValue .. ▸ Nat.le_succ _)
    (fun v hv => ?_) fun v hv hlt => ?_
  · rw [label, value_addValue, if_neg (Nat.ne_of_lt hv)]
    rfl
  · rw [size_values_addValue] at hlt
    rw [label, value_addValue, if_pos (Nat.le_antisymm (Nat.le_of_lt_succ hlt) hv)]
    exact hP

theorem grown_setHint (p : Program) (v : ValueId) (hint : Option Hint) :
    Grown P p (p.setHint v hint) :=
  .touch (sameOutline_setHint p v hint) (Decode.sameNames_setHint p v hint).name

theorem grown_modifyFunction (p : Program) (f : FuncId) {change : Func → Func}
    (hHome : ∀ x, (change x).home = x.home) (hBlocks : ∀ x, (change x).blocks = x.blocks)
    (hValues : ∀ x, (change x).values = x.values) :
    Grown P p { p with functions := p.functions.modify f change } :=
  .touch (sameOutline_modifyFunction p f hHome hBlocks hValues) fun _ => rfl

theorem grown_addParam (hf : f < p.functions.size) (name : String) (type : IntType)
    (hint : Option Hint) (hP : P ⟨name, none, f⟩) :
    Grown P p ((addParam f name type hint).run p).2 :=
  (grown_addValue hf name type none hint none nofun nofun hP).trans
    (grown_modifyFunction _ f (fun _ => rfl) (fun _ => rfl) fun _ => rfl)

theorem grown_constant (hf : f < p.functions.size) (type : IntType) (n : Int)
    (hP : P ⟨"", some n, f⟩) : Grown P p ((constant f type n).run p).2 := by
  rw [run_constant]
  cases hConst : p.constant? f type n with
  | some v => exact .refl P p
  | none =>
    refine grown_addValue hf "" type (some n) none none nofun (fun m hm => ?_) hP
    rw [← Option.some.inj hm]
    exact hConst

theorem grown_addBlock (hf : f < p.functions.size) (name : String) :
    Grown P p ((addBlock f name).run p).2 :=
  .of_step (step_addBlock f name p) (fun _ => .single (.addBlock hf name))
    (Nat.le_of_eq Array.size_modify.symm) (Nat.le_refl _) (fun _ _ => rfl)
    fun _ hv hlt => absurd hlt (Nat.not_lt.mpr hv)

theorem grown_modifyInstrs (p : Program) (b : BlockId) (change : Array Instr → Array Instr) :
    Grown P p
      { p with blocks := p.blocks.modify b fun x => { x with instrs := change x.instrs } } :=
  .touch (sameOutline_modifyInstrs p b change) fun _ => rfl

theorem grown_emit (hb : p.Houses f b) (hf : f < p.functions.size) (op : Opcode) (name : String)
    (type : IntType) (hint : Option Hint) (hP : P ⟨name, none, f⟩) :
    Grown P p ((emit b op name type [] hint none).run p).2 := by
  by_cases hInt : type.isInteger = true
  · rw [run_emit_of_integer hInt, hb.2]
    refine (grown_addValue hf name type none hint _ (fun s hs => ?_) nofun hP).trans
      (grown_modifyInstrs _ b (·.push _))
    cases hs
    exact hb
  · rw [run_emit_of_not_integer hInt]
    exact grown_modifyInstrs p b (·.push _)

theorem grown_addFunction (hp : 0 < p.modules.size) (name : String) :
    Grown P p ((addFunction 0 name).run p).2 :=
  .of_step (step_addFunction name p) (fun _ => .single (.addFunction hp name))
    (Nat.le_of_lt (Nat.lt_of_lt_of_eq (Nat.lt_succ_self _) (Array.size_push _).symm))
    (Nat.le_refl _) (fun _ _ => rfl) fun _ hv hlt => absurd hlt (Nat.not_lt.mpr hv)

theorem term_terminate (p : Program) (b : BlockId) (t : Terminator) (c : BlockId) :
    ((p.terminate b t).block c).term =
      if b = c ∧ c < p.blocks.size then some t else (p.block c).term := by
  have hEdges (cs : List BlockId) (q : Program) :
      ((cs.foldl (fun p target => p.addEdge b target) q).block c).term = (q.block c).term := by
    induction cs generalizing q with
    | nil => rfl
    | cons d cs ih =>
      exact (ih _).trans (proj_addEdge Block.term (fun _ _ => rfl) (fun _ _ => rfl) b d c)
  refine (hEdges _ _).trans ?_
  rw [block, getD_modify]
  split <;> rfl

theorem grown_terminate {t : Terminator} (hb : p.Houses f b)
    (hTargets : ∀ c ∈ t.successors, p.Houses f c) (hOpen : (p.block b).term = none) :
    Grown P p (p.terminate b t) := by
  obtain ⟨blocks, hSize, hEq⟩ := exists_terminate p b t
  have hOwner (c : BlockId) : ((p.terminate b t).block c).owner = (p.block c).owner :=
    proj_terminate Block.owner (fun _ _ => rfl) (fun _ _ => rfl) (fun _ _ => rfl) p b t c
  have hHouses (f : FuncId) (c : BlockId) : (p.terminate b t).Houses f c ↔ p.Houses f c := by
    rw [Houses, Houses, hOwner, hEq, hSize]
  refine ⟨fun hp => hp.change (.terminate hb.1 (fun c hc => (hTargets c hc).1) hOpen),
    fun hp c u hu d hd => ?_, ?_, (hHouses _ _).mpr, ?_, fun _ => ?_, fun hv hlt => ?_⟩
  · rw [hHouses, hOwner]
    rw [term_terminate] at hu
    split at hu
    case isTrue hc =>
      cases hu
      rw [← hc.1, hb.2]
      exact hTargets d hd
    case isFalse => exact hp c u hu d hd
  · exact Nat.le_of_eq (by rw [hEq])
  · exact Nat.le_of_eq (by rw [hEq])
  · rw [hEq]
    rfl
  · rw [hEq] at hlt
    exact absurd hlt (Nat.not_lt.mpr hv)

end Grown

end Program

namespace Decode

open Program

/-! ### Decoders -/

namespace Ensures

variable {α : Type} {p : Program} {x : Decoder α} {Q Q' : α → Program → Prop}

theorem mono (h : Ensures p x Q) (hQ : ∀ a p', Q a p' → Q' a p') : Ensures p x Q' :=
  fun a p' hRun => hQ a p' (h a p' hRun)

theorem and (h : Ensures p x Q) (h' : Ensures p x Q') :
    Ensures p x fun a p' => Q a p' ∧ Q' a p' :=
  fun a p' hRun => ⟨h a p' hRun, h' a p' hRun⟩

theorem attempt (step : Program → Except Fault Program) :
    Ensures p (Decode.attempt step) fun _ p' => step p = .ok p' := by
  intro a p' hRun
  unfold Decode.attempt at hRun
  cases hStep : step p with
  | error e =>
    simp only [StateT.run_bind, StateT.run_get, pure_bind, hStep] at hRun
    cases hRun
  | ok q =>
    simp only [StateT.run_bind, StateT.run_get, pure_bind, hStep] at hRun
    cases hRun
    rfl

/-- A refusal with its place is still a refusal. -/
theorem locate (place : DecodeError → DecodeError) (h : Ensures p x Q) :
    Ensures p (tryCatch x fun e => MonadExcept.throw (e.locate place)) Q := by
  intro a p' hRun
  rw [run_locate] at hRun
  cases hx : x.run p with
  | error e =>
    rw [hx] at hRun
    cases hRun
  | ok r =>
    rw [hx] at hRun
    exact h a p' (hx.trans hRun)

end Ensures

/-- If the decoder does not refuse, the program grows by values whose labels satisfy `P`, and the
result satisfies `Q`. -/
def Grows {α : Type} (P : Label → Prop) (p : Program) (x : Decoder α) (Q : α → Program → Prop) :
    Prop :=
  Ensures p x fun a p' => Grown P p p' ∧ Q a p'

namespace Grows

variable {α β : Type} {P : Label → Prop} {p : Program} {x : Decoder α} {next : α → Decoder β}
variable {Q : α → Program → Prop} {R : β → Program → Prop}

theorem bind (hx : Grows P p x Q)
    (hNext : ∀ a p', Grown P p p' → Q a p' → Grows P p' (next a) R) : Grows P p (x >>= next) R := by
  refine Ensures.bind hx fun a p' hp' b p'' hRun => ?_
  obtain ⟨hGrown, hb⟩ := hNext a p' hp'.1 hp'.2 b p'' hRun
  exact ⟨hp'.1.trans hGrown, hb⟩

theorem mono {Q' : α → Program → Prop} (h : Grows P p x Q)
    (hQ : ∀ a p', Grown P p p' → Q a p' → Q' a p') : Grows P p x Q' := by
  intro a p' hRun
  obtain ⟨hGrown, ha⟩ := h a p' hRun
  exact ⟨hGrown, hQ a p' hGrown ha⟩

theorem pure {a : α} (h : Q a p) : Grows P p (Pure.pure a) Q := Ensures.pure ⟨.refl P p, h⟩

theorem throw (e : DecodeError) : Grows P p (MonadExcept.throw e) Q := nofun

theorem lift (e : Except DecodeError α) : Grows P p (liftM e) fun a p' => p' = p ∧ e = .ok a := by
  intro a p' hRun
  obtain ⟨rfl, he⟩ := Ensures.lift e a p' hRun
  exact ⟨.refl P p', rfl, he⟩

theorem orRefuse (answer : Option α) (e : DecodeError) :
    Grows P p (Decode.orRefuse answer e) fun a p' => p' = p ∧ answer = some a := by
  intro a p' hRun
  cases answer with
  | none => cases hRun
  | some b =>
    cases hRun
    exact ⟨.refl P p, rfl, rfl⟩

theorem build {step : Builder α} (h : Grown P p (step.run p).2) :
    Grows P p (Decode.build step) fun a p' => a = (step.run p).1 ∧ p' = (step.run p).2 := by
  intro a p' hRun
  obtain ⟨rfl, rfl⟩ := Ensures.build step a p' hRun
  exact ⟨h, rfl, rfl⟩

theorem modify {step : Program → Program} (h : Grown P p (step p)) :
    Grows P p (modify step : Decoder Unit) fun _ p' => p' = step p := by
  intro a p' hRun
  obtain rfl := Ensures.modify step a p' hRun
  exact ⟨h, rfl⟩

theorem get_bind {f : Program → Decoder β} (h : Grows P p (f p) R) : Grows P p (get >>= f) R := h

/-- A loop keeps an invariant that growth keeps. -/
theorem foldlM {γ : Type} {xs : List α} {f : γ → α → Decoder γ} {c : γ} {I : γ → Program → Prop}
    (hStart : I c p) (hStep : ∀ c x p', Grown P p p' → I c p' → Grows P p' (f c x) I) :
    Grows P p (xs.foldlM f c) I := by
  refine Ensures.foldlM (I := fun c p' => Grown P p p' ∧ I c p') ⟨.refl P p, hStart⟩ ?_
  rintro c x p' ⟨hGrown, hc⟩ c' p'' hRun
  obtain ⟨hGrown', hc'⟩ := hStep c x p' hGrown hc c' p'' hRun
  exact ⟨hGrown.trans hGrown', hc'⟩

theorem forM {xs : List α} {f : α → Decoder PUnit}
    (hStep : ∀ x ∈ xs, ∀ p', Grown P p p' → Grows P p' (f x) fun _ _ => True) :
    Grows P p (xs.forM f) fun _ _ => True := by
  induction xs generalizing p with
  | nil => exact pure trivial
  | cons x xs ih =>
    refine bind (hStep x List.mem_cons_self p (.refl P p)) fun _ p' hGrown _ =>
      ih fun y hy p'' h => ?_
    exact hStep y (List.mem_cons_of_mem x hy) p'' (hGrown.trans h)

theorem mapM {xs : List α} {R : β → Program → Prop}
    (hKeep : ∀ b p' p'', Grown P p' p'' → R b p' → R b p'')
    (hStep : ∀ x p', Grown P p p' → Grows P p' (next x) R) :
    Grows P p (xs.mapM next) fun bs p' => ∀ b ∈ bs, R b p' := by
  induction xs generalizing p with
  | nil =>
    rw [List.mapM_nil]
    exact pure nofun
  | cons x xs ih =>
    rw [List.mapM_cons]
    refine bind (hStep x p (.refl P p)) fun b p' hGrown hb => ?_
    refine bind (ih fun y p'' h => hStep y p'' (hGrown.trans h)) fun bs p'' hGrown' hbs => ?_
    exact pure (List.forall_mem_cons.mpr ⟨hKeep b p' p'' hGrown' hb, hbs⟩)

theorem locate (place : DecodeError → DecodeError) (h : Grows P p x Q) :
    Grows P p (tryCatch x fun e => MonadExcept.throw (e.locate place)) Q :=
  Ensures.locate place h

end Grows

variable {P : Label → Prop} {p p' : Program} {scope : Scope} {f : FuncId} {b : BlockId}

/-- The scope is that of the function, which is there, and has blocks of the function. -/
structure Scope.Inside (scope : Scope) (f : FuncId) (p : Program) : Prop where
  func : scope.func = f
  there : f < p.functions.size
  houses {e : String × BlockId} : e ∈ scope.blocks → p.Houses f e.2

theorem Scope.Inside.grown (hs : scope.Inside f p) (h : Grown P p p') : scope.Inside f p' :=
  ⟨hs.func, Nat.lt_of_lt_of_le hs.there h.functions, fun he => h.houses (hs.houses he)⟩

/-! ### The first pass -/

/-- The label of a parameter or a result of the function. -/
def IsResult (f : FuncId) (l : Label) : Prop := l.owner = f ∧ l.const = none

theorem describe_grows (hs : scope.Inside f p) (name : String) (lower upper : Option String)
    (v : ValueId) :
    Grows P p (describe scope name lower upper v) fun scope' => scope'.Inside f := by
  unfold describe
  refine Grows.bind (Grows.lift _) ?_
  rintro hint p1 - ⟨rfl, -⟩
  refine Grows.bind (Grows.modify (grown_setHint p1 v hint)) fun _ p2 hGrown _ => ?_
  refine (Grows.lift _).mono ?_
  rintro scope' p3 - ⟨rfl, hDefine⟩
  obtain ⟨hFunc, hBlocks, -⟩ := define_spec hDefine
  have hs := hs.grown hGrown
  exact ⟨hFunc.trans hs.func, hs.there, fun he => hs.houses (hBlocks ▸ he)⟩

theorem param_grows (hs : scope.Inside f p) (d : Document.Param) :
    Grows (IsResult f) p (param scope d) fun scope' => scope'.Inside f := by
  unfold param
  refine Grows.bind (Grows.lift _) ?_
  rintro type p1 - ⟨rfl, -⟩
  obtain rfl := hs.func
  refine Grows.bind (Grows.build (grown_addParam hs.there d.name type none ⟨rfl, rfl⟩))
    fun v p2 hGrown _ => ?_
  exact describe_grows (hs.grown hGrown) d.name d.lower d.upper v

theorem block_grows (hs : scope.Inside f p) (d : Document.Block) :
    Grows P p (block scope d) fun scope' => scope'.Inside f := by
  unfold block
  dsimp only
  split
  · exact Grows.bind (Grows.throw _) fun _ _ _ h => h
  · obtain rfl := hs.func
    refine Grows.bind (Grows.build (grown_addBlock hs.there d.name)) ?_
    rintro b p1 hGrown ⟨rfl, rfl⟩
    have hs := hs.grown hGrown
    refine Grows.pure ⟨rfl, hs.there, fun {e} he => ?_⟩
    rcases List.mem_cons.mp he with rfl | he
    · exact houses_addBlock _ d.name p
    · exact hs.houses he

theorem instr_grows (hs : scope.Inside f p) (funcs : List (String × FuncId)) (blockName : String)
    (hb : p.Houses f b) (d : Document.Instr) :
    Grows (IsResult f) p (instr funcs blockName b scope d) fun r => r.1.Inside f := by
  unfold instr
  refine Grows.bind (Grows.orRefuse _ _) ?_
  rintro op p1 - ⟨rfl, -⟩
  refine Grows.bind (Grows.orRefuse _ _) ?_
  rintro type p2 - ⟨rfl, -⟩
  refine Grows.get_bind ?_
  extract_lets site
  refine Grows.bind (Grows.build (grown_emit hb hs.there op d.result type none ⟨rfl, rfl⟩))
    fun result p3 hGrown _ => ?_
  extract_lets rest
  have hRest {scope' : Scope} {p4 : Program} (hs : scope'.Inside f p4) :
      Grows (IsResult f) p4 (rest scope') fun r => r.1.Inside f := by
    dsimp only [rest]
    split
    · refine Grows.bind (Grows.orRefuse _ _) ?_
      rintro callee p5 - ⟨rfl, -⟩
      refine Grows.bind (Grows.modify (grown_modifyInstrs p5 site.block (·.modify site.index _)))
        fun _ p6 hGrown _ => ?_
      exact Grows.pure (hs.grown hGrown)
    · exact Grows.pure hs
  split
  · exact hRest (hs.grown hGrown)
  · exact Grows.bind (describe_grows (hs.grown hGrown) _ _ _ _) fun scope' p4 _ hs' => hRest hs'

theorem instrs_grows (hs : scope.Inside f p) (funcs : List (String × FuncId)) (d : Document.Block) :
    Grows (IsResult f) p (instrs funcs scope d) fun r => r.1.Inside f := by
  unfold instrs known
  refine Grows.bind (Grows.orRefuse _ _) ?_
  rintro b p1 - ⟨rfl, hb⟩
  have hb := hs.houses (mem_of_lookup hb)
  refine Grows.foldlM hs ?_
  rintro ⟨scope', pending⟩ i p2 hGrown hs'
  refine Grows.bind (instr_grows hs' funcs d.name (hGrown.houses hb) i) ?_
  rintro ⟨scope'', one⟩ p3 - hs''
  exact Grows.pure hs''

theorem names_grows (hf : f < p.functions.size) (funcs : List (String × FuncId))
    (d : Document.Func) : Grows (IsResult f) p (names funcs f d) fun r => r.1.Inside f := by
  unfold names
  refine Grows.bind (Grows.modify (grown_modifyFunction p f (fun _ => rfl) (fun _ => rfl)
    fun _ => rfl)) fun _ p1 hGrown _ => ?_
  have hStart : (⟨f, [], []⟩ : Scope).Inside f p1 :=
    ⟨rfl, Nat.lt_of_lt_of_le hf hGrown.functions, nofun⟩
  refine Grows.bind (Grows.foldlM hStart fun _ d _ _ hs => param_grows hs d) fun scope p2 _ hs => ?_
  refine Grows.bind (Grows.foldlM hs fun _ d _ _ hs => block_grows hs d) fun scope' p3 _ hs' => ?_
  refine Grows.foldlM hs' ?_
  rintro ⟨scope'', pending⟩ d p4 - hs''
  refine Grows.bind (instrs_grows hs'' funcs d) ?_
  rintro ⟨scope3, more⟩ p5 - hs3
  exact Grows.pure hs3

/-! ### The second pass -/

/-- The label of a constant of the function. -/
def IsUnnamed (f : FuncId) (l : Label) : Prop := l.owner = f ∧ l.name = ""

theorem operand_grows (hs : scope.Inside f p) (s : String) (type : IntType) :
    Grows (IsUnnamed f) p (operand scope s type) fun _ _ => True := by
  have hConst {p' : Program} (hs : scope.Inside f p') (type : IntType) (n : Int) :
      Grows (IsUnnamed f) p' (if type.isInteger then Decode.build (constant scope.func type n)
        else MonadExcept.throw (DecodeError.untypedConstant s)) fun _ _ => True := by
    split
    · obtain rfl := hs.func
      exact (Grows.build (grown_constant hs.there type n ⟨rfl, rfl⟩)).mono fun _ _ _ _ => trivial
    · exact Grows.throw _
  unfold operand
  dsimp only
  split
  case h_1 n _ =>
    split
    · refine Grows.bind (Grows.lift _) ?_
      rintro type p1 - ⟨rfl, -⟩
      exact hConst hs type n
    · exact hConst hs type n
  case h_2 => exact (Grows.orRefuse _ _).mono fun _ _ _ _ => trivial

theorem comparands_grows (hs : scope.Inside f p) (xs ys : String) :
    Grows (IsUnnamed f) p (comparands scope xs ys) fun _ _ => True := by
  unfold comparands
  refine Grows.bind (Q := fun _ _ => True) ?_ fun type p1 hGrown _ => ?_
  · unfold typeOfName
    split
    · exact Grows.get_bind (Grows.pure trivial)
    · exact Grows.pure trivial
  refine Grows.bind (operand_grows (hs.grown hGrown) xs type) fun x p2 hGrown' _ => ?_
  refine Grows.get_bind ?_
  exact Grows.bind (operand_grows ((hs.grown hGrown).grown hGrown') ys _) fun _ _ _ _ =>
    Grows.pure trivial

theorem target_grows (hs : scope.Inside f p) (name : String) :
    Grows P p (scope.block name) fun b p' => p'.Houses f b := by
  unfold Scope.block
  refine (Grows.orRefuse _ _).mono ?_
  rintro b p' - ⟨rfl, hb⟩
  exact hs.houses (mem_of_lookup hb)

theorem targets_grow {α β : Type} {xs : List α} {next : α → Decoder β} (target : β → BlockId)
    (hs : scope.Inside f p) (h : ∀ x p', scope.Inside f p' →
      Grows P p' (next x) fun c p'' => p''.Houses f (target c)) :
    Grows P p (xs.mapM next) fun cs p' => ∀ c ∈ cs.map target, p'.Houses f c := by
  refine (Grows.mapM (R := fun c p' => p'.Houses f (target c))
    (fun c p' p'' hGrown => hGrown.houses) fun x p' hGrown => h x p' (hs.grown hGrown)).mono
      fun cs p' _ hcs c hc => ?_
  obtain ⟨x, hx, rfl⟩ := List.mem_map.mp hc
  exact hcs x hx

theorem terminator_grows (hs : scope.Inside f p) (d : Document.Term) :
    Grows (IsUnnamed f) p (terminator scope d) fun t p' =>
      ∀ c ∈ t.successors, p'.Houses f c := by
  unfold terminator
  extract_lets rest
  have hRest : Grows (IsUnnamed f) p (rest ()) fun t p' => ∀ c ∈ t.successors, p'.Houses f c := by
    dsimp only [rest]
    split
    · refine Grows.bind (operand_grows hs d.switch .void) fun on p1 hGrown1 _ => ?_
      have hs1 := hs.grown hGrown1
      refine Grows.bind (target_grows hs1 d.otherwise) fun otherwise p2 hGrown2 hOtherwise => ?_
      refine Grows.bind (targets_grow (·.2) (hs1.grown hGrown2) fun c p' hs' => ?_)
        fun cases p3 hGrown3 hCases => Grows.pure ?_
      · refine Grows.bind (Grows.orRefuse _ _) ?_
        rintro n p'' - ⟨rfl, -⟩
        exact Grows.bind (target_grows hs' c.target) fun _ _ _ hc => Grows.pure hc
      · intro c hc
        rcases List.mem_append.mp hc with hc | hc
        · exact hCases c hc
        · rw [List.mem_singleton.mp hc]
          exact hGrown3.houses hOtherwise
    · split
      · refine Grows.bind (targets_grow id hs fun name p' hs' => target_grows hs' name)
          fun targets p1 _ hTargets => Grows.pure ?_
        rw [List.map_id] at hTargets
        exact hTargets
      · split
        · refine Grows.bind (Grows.mapM (R := fun _ _ => True) (fun _ _ _ _ => id)
            fun s p' hGrown => operand_grows (hs.grown hGrown) s .void) fun values p1 _ _ => ?_
          exact Grows.pure nofun
        · exact Grows.throw _
  split
  · refine Grows.bind (target_grows hs d.jump) fun target p1 _ hTarget => Grows.pure ?_
    exact List.forall_mem_singleton.mpr hTarget
  · split
    · split
      · refine Grows.bind (Grows.orRefuse _ _) ?_
        rintro c p1 - ⟨rfl, -⟩
        refine Grows.bind (comparands_grows hs _ _) fun r p2 hGrown2 _ => ?_
        have hs2 := hs.grown hGrown2
        refine Grows.bind (target_grows hs2 d.yes) fun yes p3 hGrown3 hYes => ?_
        refine Grows.bind (target_grows (hs2.grown hGrown3) d.no) fun no p4 hGrown4 hNo => ?_
        exact Grows.pure (List.forall_mem_cons.mpr ⟨hGrown4.houses hYes,
          List.forall_mem_singleton.mpr hNo⟩)
      · exact Grows.throw _
    · exact hRest

theorem resolve_grows (hs : scope.Inside f p) (pending : Pending) :
    Grows (IsUnnamed f) p (resolve scope pending) fun _ _ => True := by
  unfold resolve
  refine Grows.bind (Grows.mapM (R := fun _ _ => True) (fun _ _ _ _ => id)
    fun s p' hGrown => operand_grows (hs.grown hGrown) s pending.type) fun args p1 _ _ => ?_
  exact (Grows.modify (grown_modifyInstrs p1 pending.site.block
    (·.modify pending.site.index _))).mono fun _ _ _ _ => trivial

theorem blockTerm_grows (hs : scope.Inside f p) (d : Document.Block) :
    Grows (IsUnnamed f) p (blockTerm scope d) fun _ _ => True := by
  unfold blockTerm known
  refine Grows.bind (Grows.orRefuse _ _) ?_
  rintro b p1 - ⟨rfl, hb⟩
  have hb := hs.houses (mem_of_lookup hb)
  refine Grows.bind (Grows.locate (.inBlock d.name) (terminator_grows hs d.term))
    fun t p2 hGrown hTargets => ?_
  refine (Ensures.attempt (Program.setTerminator b t)).mono fun _ p3 hSet => ⟨?_, trivial⟩
  have hOpen : (p2.block b).term = none := by
    unfold Program.setTerminator at hSet
    split at hSet
    case h_1 => cases hSet
    case h_2 hNone => exact hNone
  rw [eq_of_setTerminator hSet]
  exact grown_terminate (hGrown.houses hb) hTargets hOpen

theorem operands_grow (hs : scope.Inside f p) (d : Document.Func) (pending : List Pending) :
    Grows (IsUnnamed f) p (operands d scope pending) fun _ _ => True := by
  unfold operands
  refine Grows.bind (Grows.forM fun one _ p' hGrown => resolve_grows (hs.grown hGrown) one)
    fun _ p1 hGrown _ => ?_
  exact Grows.forM fun d _ p' hGrown' => blockTerm_grows ((hs.grown hGrown).grown hGrown') d

/-! ### Bodies -/

/-- The values of a function that have names have different ones, which are no integers; constants
have none; and terminators stay within their functions. -/
structure Labelled (p : Program) : Prop where
  layout : Layout p
  enclosed : Enclosed p
  distinct {v w : ValueId} : v < p.values.size → w < p.values.size →
    (p.value v).owner = (p.value w).owner → (p.value v).name ≠ "" →
    (p.value v).name = (p.value w).name → v = w
  literal {v : ValueId} : v < p.values.size → Text.Integer.literal? (p.value v).name = none
  const {v : ValueId} : v < p.values.size → (p.value v).const = none ∨ (p.value v).name = ""

theorem body_labels (hp : Labelled p) (hf : f < p.functions.size)
    (hNew : ∀ v < p.values.size, (p.value v).owner ≠ f) (funcs : List (String × FuncId))
    (d : Document.Func) : Ensures p (body funcs f d) fun _ p' => Labelled p' ∧
      p.functions.size ≤ p'.functions.size ∧ ∀ v < p'.values.size,
        (p'.value v).owner = f ∨ v < p.values.size ∧ (p'.value v).owner = (p.value v).owner := by
  rw [body_eq]
  refine Ensures.bind ((names_ensures p funcs f d).and (names_grows hf funcs d)) ?_
  rintro ⟨scope, pending⟩ p1 ⟨hNames, hGrown1, hs⟩
  refine Ensures.mono (operands_grow hs d pending) fun _ p2 h2 => ?_
  have hGrown2 := h2.1
  have hGrown : Grown (fun l => l.owner = f ∧ (l.const = none ∨ l.name = "")) p p2 :=
    (hGrown1.mono fun l hl => ⟨hl.1, .inl hl.2⟩).trans
      (hGrown2.mono fun l hl => ⟨hl.1, .inr hl.2⟩)
  have hOwner {v : ValueId} (hv : v < p.values.size) :
      (p2.value v).owner = (p.value v).owner := congrArg Label.owner (hGrown.old hv)
  have hName {v : ValueId} (hv : v < p.values.size) : (p2.value v).name = (p.value v).name :=
    congrArg Label.name (hGrown.old hv)
  -- what has a name among the new values got it in the first pass
  have hLookup {v : ValueId} (hv : p.values.size ≤ v) (hlt : v < p2.values.size)
      (hNamed : (p2.value v).name ≠ "") : scope.values.lookup (p2.value v).name = some v := by
    have hlt1 : v < p1.values.size :=
      Nat.lt_of_not_le fun hLate => hNamed (hGrown2.new hLate hlt).2
    have hSame : (p2.value v).name = (p1.value v).name := congrArg Label.name (hGrown2.old hlt1)
    exact hNames.lookup_iff.mpr ⟨hNamed, hv, hlt1, hSame.symm⟩
  have hNone : Text.Integer.literal? "" = none := by decide
  refine ⟨⟨hGrown.layout hp.layout, hGrown.enclosed hp.enclosed,
    fun {v w} hv hw hSame hNamed hEq => ?_, fun {v} hv => ?_, fun {v} hv => ?_⟩, hGrown.functions,
    fun v hv => ?_⟩
  · by_cases hOld : v < p.values.size <;> by_cases hOld' : w < p.values.size
    · rw [hName hOld] at hNamed hEq
      rw [hOwner hOld, hOwner hOld'] at hSame
      exact hp.distinct hOld hOld' hSame hNamed (hEq.trans (hName hOld'))
    · rw [hOwner hOld] at hSame
      exact absurd (hSame.trans (hGrown.new (Nat.not_lt.mp hOld') hw).1) (hNew v hOld)
    · rw [hOwner hOld'] at hSame
      exact absurd (hSame.symm.trans (hGrown.new (Nat.not_lt.mp hOld) hv).1) (hNew w hOld')
    · have hFirst := hLookup (Nat.not_lt.mp hOld) hv hNamed
      have hSecond := hLookup (Nat.not_lt.mp hOld') hw (hEq ▸ hNamed)
      rw [← hEq] at hSecond
      exact Option.some.inj (hFirst.symm.trans hSecond)
  · by_cases hOld : v < p.values.size
    · rw [hName hOld]
      exact hp.literal hOld
    · by_cases hNamed : (p2.value v).name = ""
      · rw [hNamed]
        exact hNone
      · exact hNames.literal (hLookup (Nat.not_lt.mp hOld) hv hNamed)
  · by_cases hOld : v < p.values.size
    · rw [hName hOld, show (p2.value v).const = (p.value v).const from
        congrArg Label.const (hGrown.old hOld)]
      exact hp.const hOld
    · exact (hGrown.new (Nat.not_lt.mp hOld) hv).2
  · by_cases hOld : v < p.values.size
    · exact .inr ⟨hOld, hOwner hOld⟩
    · exact .inl (hGrown.new (Nat.not_lt.mp hOld) hv).1

/-! ### Modules -/

/-- The names of functions are different and stand for different functions that are there. -/
structure Index (funcs : List (String × FuncId)) (p : Program) : Prop where
  names : (funcs.map (·.1)).Nodup
  ids : (funcs.map (·.2)).Nodup
  there {e : String × FuncId} : e ∈ funcs → e.2 < p.functions.size

theorem declare_labels (d : List Document.Func) {funcs : List (String × FuncId)}
    (hp : 0 < p.modules.size) (hFuncs : Index funcs p) :
    Ensures p (d.foldlM (fun funcs fn => do
      if (funcs.lookup fn.name).isSome then throw (.functionTwice fn.name)
      return (fn.name, ← build (Program.addFunction 0 fn.name)) :: funcs) funcs) fun funcs' p' =>
      Grown (fun _ => False) p p' ∧ Index funcs' p' ∧
        funcs'.map (·.1) = (d.map (·.name)).reverse ++ funcs.map (·.1) := by
  induction d generalizing p funcs with
  | nil => exact Ensures.pure ⟨.refl _ p, hFuncs, rfl⟩
  | cons fn d ih =>
    rw [List.foldlM_cons]
    refine Ensures.bind (Q := fun funcs' p' => funcs.lookup fn.name = none ∧
      funcs' = (fn.name, p.functions.size) :: funcs ∧
      p' = ((Program.addFunction 0 fn.name).run p).2) ?_ ?_
    · dsimp only
      split
      · exact Ensures.throw_bind _
      case isFalse hNone =>
        refine Ensures.bind (Ensures.build _) ?_
        rintro f p' ⟨rfl, rfl⟩
        exact Ensures.pure ⟨Option.not_isSome_iff_eq_none.mp hNone, rfl, rfl⟩
    rintro _ _ ⟨hNone, rfl, rfl⟩
    have hGrown : Grown (fun _ => False) p ((Program.addFunction 0 fn.name).run p).2 :=
      grown_addFunction hp fn.name
    have hSize : ((Program.addFunction 0 fn.name).run p).2.functions.size = p.functions.size + 1 :=
      Array.size_push _
    have hIndex : Index ((fn.name, p.functions.size) :: funcs)
        ((Program.addFunction 0 fn.name).run p).2 := by
      refine ⟨List.nodup_cons.mpr ⟨fun hMem => ?_, hFuncs.names⟩,
        List.nodup_cons.mpr ⟨fun hMem => ?_, hFuncs.ids⟩, fun {e} he => ?_⟩
      · obtain ⟨e, he, hEq⟩ := List.mem_map.mp hMem
        have hOther := List.lookup_eq_none_iff.mp hNone e he
        rw [hEq, bne_self_eq_false] at hOther
        cases hOther
      · obtain ⟨e, he, hEq⟩ := List.mem_map.mp hMem
        exact Nat.ne_of_lt (hFuncs.there he) hEq
      · rw [hSize]
        rcases List.mem_cons.mp he with rfl | he
        · exact Nat.lt_succ_self _
        · exact Nat.lt_succ_of_lt (hFuncs.there he)
    refine Ensures.mono (ih (Nat.lt_of_lt_of_eq hp Array.size_modify.symm) hIndex) ?_
    rintro funcs' p' ⟨hGrown', hIndex', hNames⟩
    refine ⟨hGrown.trans hGrown', hIndex', ?_⟩
    rw [hNames, List.map_cons, List.map_cons, List.reverse_cons, List.append_assoc]
    rfl

theorem functions_labels (d : List Document.Func) :
    Ensures start (functions d) fun _ => Labelled := by
  unfold functions declare
  refine Ensures.bind (declare_labels d Nat.one_pos ⟨List.nodup_nil, List.nodup_nil, nofun⟩) ?_
  rintro funcs p ⟨hGrown, hIndex, hNames⟩
  have hEmpty : ∀ v < p.values.size, False := fun v hv => hGrown.new (Nat.zero_le v) hv
  have hp : Labelled p :=
    ⟨hGrown.layout .start, hGrown.enclosed nofun, fun hv => (hEmpty _ hv).elim,
      fun hv => (hEmpty _ hv).elim, fun hv => (hEmpty _ hv).elim⟩
  have hNodup : (d.map (·.name)).Nodup := by
    have hNodup := hIndex.names
    rw [hNames, List.map_nil, List.append_nil, List.nodup_reverse] at hNodup
    exact hNodup
  -- functions whose bodies are still to be read have no values
  have hOpen : ∀ fn ∈ d, ∀ f, funcs.lookup fn.name = some f →
      ∀ v < p.values.size, (p.value v).owner ≠ f := fun _ _ _ _ v hv => (hEmpty v hv).elim
  clear hGrown hNames hEmpty
  induction d generalizing p with
  | nil => exact Ensures.pure hp
  | cons fn d ih =>
    obtain ⟨hFirst, hRest⟩ := List.nodup_cons.mp hNodup
    refine Ensures.bind (Q := fun _ p' => Labelled p' ∧ p.functions.size ≤ p'.functions.size ∧
      ∃ f, funcs.lookup fn.name = some f ∧ ∀ v < p'.values.size, (p'.value v).owner = f ∨
        v < p.values.size ∧ (p'.value v).owner = (p.value v).owner) ?_ ?_
    · unfold known
      refine Ensures.bind (Grows.orRefuse (P := fun _ => False) _ _) ?_
      rintro f _ ⟨-, rfl, hf⟩
      refine Ensures.mono (Ensures.locate (.inFunction fn.name)
        (body_labels hp (hIndex.there (mem_of_lookup hf)) (hOpen fn List.mem_cons_self f hf)
          funcs fn))
        fun _ p' h => ?_
      exact ⟨h.1, h.2.1, f, hf, h.2.2⟩
    · rintro - p' ⟨hp', hFunctions, f, hf, hOwner⟩
      refine ih p' ⟨hIndex.names, hIndex.ids, fun he => Nat.lt_of_lt_of_le (hIndex.there he)
        hFunctions⟩ hp' hRest fun fn' hfn' f' hf' v hv hEq => ?_
      rcases hOwner v hv with hNew | ⟨hOld, hSame⟩
      · -- two names stand for one function only if they are the same
        have hPair := List.inj_on_of_nodup_map hIndex.ids (mem_of_lookup hf) (mem_of_lookup hf')
          (hNew.symm.trans hEq)
        exact hFirst (List.mem_map.mpr ⟨fn', hfn', (Prod.mk.inj hPair).1.symm⟩)
      · exact hOpen fn' (List.mem_cons_of_mem fn hfn') f' hf' v hOld (hSame.symm.trans hEq)

end Decode

/-- A decoded program keeps its values apart. -/
theorem decode_labelled {d : List Document.Func} {p : Program} (h : decode d = .ok p) :
    Decode.Labelled p := by
  unfold decode at h
  cases hRun : (Decode.functions d).run Program.start with
  | error e =>
    rw [hRun] at h
    cases h
  | ok r =>
    obtain ⟨u, q⟩ := r
    rw [hRun] at h
    change Decode.checked q = .ok p at h
    unfold Decode.checked at h
    split at h
    · cases h
    · cases h
      exact Decode.functions_labels d u p hRun

end ValueRange
