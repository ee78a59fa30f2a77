import ValueRange.Analysis
import ValueRange.Proofs.Graph.Assembly
import ValueRange.Proofs.Graph.Retention
import ValueRange.Proofs.Program.Decoding
import ValueRange.Proofs.Program.Ownership

/-! Calls between the functions of a module. A parameter that is bound to arguments covers each of
them, and the result of a call covers what the callee returns, also where functions call each other in
circles: the unions that bind them are widened to hold their sources, and narrowing keeps them there.
All other parameters and results of calls have the ranges of their hints. -/

namespace ValueRange

namespace Graph

open Range

variable {g : Graph}

/-- In the solution of a graph a union covers what it unites. -/
theorem Unsolved.solve_unites (hg : Unsolved g) (hOpen : Extensible g)
    (hNarrowing : g.narrowing = .cousot ∨ g.narrowing = .crop) :
    ∃ g', solve.run.run g = (.ok (), g') ∧ Answers g g' ∧
      ∀ v u, Unites g v u → g'.rangeOf u ⊆ g'.rangeOf v := by
  obtain ⟨m, hMeet, hm⟩ := exists_tight hNarrowing
  obtain ⟨cs, g', hStage, hProgress, hRun⟩ := hg.solve_run hm.toLawful hMeet
  have hLast := hProgress.stage hStage
  have hAnswers := (hg.answers hLast).finish
  refine ⟨_, hRun, hAnswers, ?_⟩
  rintro v u ⟨op, hMem, hv, sources, hKind, n, hn, hu⟩
  rw [hAnswers.rangeOf hOpen hu, hAnswers.rangeOf hOpen hv]
  obtain ⟨o, ho⟩ := Array.mem_iff_getElem?.mp hMem
  have hBegun : (g.begun cs).ops[o]? = some op := ops_seed hg.started ▸ ho
  have hSame : g'.ops[o]? = some op := by
    obtain ⟨op', ho', -, hKind'⟩ := op_of_shape hLast.shape.symm hBegun
    cases hBegun.symm.trans (hLast.pristine ho' fun n c h => by
      rw [hKind', hKind] at h
      cases h)
    exact ho'
  have hRetains := hProgress.retains hStage hm hg.whole_begun
  have hEval : g'.eval op = g'.evalKind op.sink op.kind :=
    eval_of_max (hRetains.whole hSame (by simp [hKind]))
  refine subset_of_forall_mem (hLast.regular.range n) fun x hx => ?_
  refine hRetains.mem hSame (hLast.layout.number_lt (hLast.layout.wired.sink_lt hSame)) ?_
  unfold Yields
  rw [hKind]
  show x ∈ g'.eval op
  rw [hEval, hKind]
  exact mem_of_subset (hLast.regular.subset_phi op.sink hn) hx

end Graph

namespace Program

variable {p : Program} {f : FuncId} {i : Nat} {v : ValueId} {call : Instr}

/-- The range of a value that nothing is known of but its hint. -/
def hinted (p : Program) (s : Sentinels) (v : ValueId) : Range :=
  match (p.value v).hint with
  | some h => s.ofHint h
  | none => s.max

/-- The function can be called only from the module, which does call it, and all of the calls pass a
tracked argument at the position. -/
def Passed (p : Program) (m : ModuleId) (f : FuncId) (i : Nat) : Prop :=
  (p.func f).external = false ∧ p.calls m f ≠ [] ∧ ∀ call ∈ p.calls m f, (call.actual? p i).isSome

/-- A function of the module returns the tracked value to the call. -/
def Returned (p : Program) (m : ModuleId) (call : Instr) (u : ValueId) : Prop :=
  ∃ f ∈ (p.moduleAt m).functions, call.callee = some f ∧ some u ∈ p.returns f 0 ∧
    p.isInteger u = true

instance (m : ModuleId) : Decidable (p.Passed m f i) := inferInstanceAs (Decidable (_ ∧ _ ∧ _))

instance (m : ModuleId) (u : ValueId) : Decidable (p.Returned m call u) :=
  inferInstanceAs (Decidable (∃ _ ∈ _, _ ∧ _ ∧ _))

theorem Passed.binds {m : ModuleId} (h : p.Passed m f i) (hv : (p.func f).params[i]? = some v)
    (hInt : p.isInteger v = true) (hCall : call ∈ p.calls m f) :
    ∃ a, call.args[i]? = some (some a) ∧ p.Binds m f v a := by
  obtain ⟨a, ha⟩ := Option.isSome_iff_exists.mp (h.2.2 call hCall)
  obtain ⟨hArg, -⟩ := Option.filter_eq_some_iff.mp ha
  exact ⟨a, Option.join_eq_some_iff.mp hArg, .param h.1 hv hInt h.2.2 hCall ha⟩

theorem not_binds_param {m : ModuleId} (hp : p.Made) (h : ¬ p.Passed m f i)
    (hv : (p.func f).params[i]? = some v) (f' : FuncId) (u : ValueId) : ¬ p.Binds m f' v u := by
  intro hBinds
  cases hBinds with
  | param hExternal hv' _ hAll hCall _ =>
    obtain ⟨rfl, rfl⟩ := hp.owned.param_eq hv hv'
    exact h ⟨hExternal, List.ne_nil_of_mem hCall, hAll⟩
  | result hCall hv' _ _ _ =>
    obtain ⟨⟨f', -, hi⟩, -, -⟩ := mem_calls.mp hCall
    obtain ⟨b, -, hi⟩ := mem_instrs.mp hi
    exact hp.tidy.param_ne_result (Array.mem_of_getElem? hv) hi hv'

theorem not_binds_result {m : ModuleId} (hp : p.Made) (hCall : call ∈ p.instrs f)
    (hv : call.result = some v) (h : ∀ u, ¬ p.Returned m call u) (f' : FuncId)
    (hf' : f' ∈ (p.moduleAt m).functions) (u : ValueId) : ¬ p.Binds m f' v u := by
  obtain ⟨b, -, hi⟩ := mem_instrs.mp hCall
  intro hBinds
  cases hBinds with
  | param _ hv' _ _ _ _ => exact hp.tidy.param_ne_result (Array.mem_of_getElem? hv') hi hv
  | result hCall' hv' _ hu hTracked =>
    obtain ⟨⟨f'', -, hi'⟩, -, hCallee⟩ := mem_calls.mp hCall'
    obtain ⟨b', -, hi'⟩ := mem_instrs.mp hi'
    obtain ⟨k, hk⟩ := Array.mem_iff_getElem?.mp hi
    obtain ⟨k', hk'⟩ := Array.mem_iff_getElem?.mp hi'
    cases hp.tidy.site_eq hk hk' hv hv'
    cases hk.symm.trans hk'
    exact h u ⟨f', hf', hCallee, hu, hTracked⟩

theorem Receives.const_eq (hp : p.Tidy) (h : p.Receives v) : (p.value v).const = none := by
  rcases h with ⟨f, hv⟩ | ⟨b, i, hi, hv, -⟩
  · exact (hp.param hv).const_eq
  · obtain ⟨k, hk⟩ := Array.mem_iff_getElem?.mp hi
    exact (hp.result hk hv).const_eq

end Program

open ValueRange.Graph

/-- The bindings of a module that is accepted, in its solution. A parameter covers the arguments of
all calls, if all of them pass one, and the result of a call covers all that the callee returns, also
if functions call themselves or each other. All other parameters and results have the ranges of their
hints. -/
theorem analyzeModule_bindings {d : List Document.Func} {p : Program} (hDecode : decode d = .ok p)
    (o : Options) (hNarrowing : o.narrowing = .cousot ∨ o.narrowing = .crop) :
    ∃ g, analyzeModule p 0 o = .ok g ∧
      (∀ f ∈ (p.moduleAt 0).functions, ∀ (i : Nat) v, (p.func f).params[i]? = some v →
        p.isInteger v = true →
          (p.Passed 0 f i → ∀ call ∈ p.calls 0 f, ∃ a, call.args[i]? = some (some a) ∧
            g.rangeOf a ⊆ g.rangeOf v) ∧
          (¬ p.Passed 0 f i → g.rangeOf v = p.hinted g.sentinels v)) ∧
      ∀ f ∈ (p.moduleAt 0).functions, ∀ call ∈ p.instrs f, call.op = .call →
        ∀ v, call.result = some v → p.isInteger v = true →
          (∀ u, p.Returned 0 call u → g.rangeOf u ⊆ g.rangeOf v) ∧
          ((∀ u, ¬ p.Returned 0 call u) → g.rangeOf v = p.hinted g.sentinels v) := by
  have hp : p.Accepted := by
    have hAccepts := decode_accepts d
    rw [hDecode] at hAccepts
    exact hAccepts
  obtain ⟨_, g, hBuild, hTo, hBound, hKnows⟩ := addModule_succeeds hp
    (sentinelsFor p o (p.moduleAt 0).functions.toList) o
  have hBuild : buildModule p 0 o = (.ok (), g) := hBuild
  have hOpen := hTo.extensible (extensible_empty _ _)
  have hMirrors := (hTo.growth.ready (ready_empty ..)).mirrors
  have hUnsolved : Unsolved g :=
    Built.unsolved hp.made ⟨o, .inr ⟨0, congrArg Prod.snd hBuild⟩⟩
  obtain ⟨g', hRun, hAnswers, hCovers⟩ := hUnsolved.solve_unites hOpen
    (hTo.growth.sameFrame.narrowing ▸ hNarrowing)
  have hHinted {v : ValueId} {n : NodeId} (hn : g.valueAt? n = some v) (hv : p.Receives v)
      (hFree : Undefined g v) : g'.rangeOf v = p.hinted g'.sentinels v := by
    obtain ⟨x, hx, rfl⟩ := Option.map_eq_some_iff.mp hn
    have hDefinition : x.definition = none := by
      have hNone := hFree n hn
      rwa [definition, hx] at hNone
    obtain ⟨-, hConst, hHint⟩ := hMirrors.node hx
    rw [hAnswers.rangeOf hOpen hn, hAnswers.fixed hx hDefinition, hAnswers.sentinels, startRange,
      hConst, hv.const_eq hp.made.tidy, hDefinition, hHint, Program.hinted]
    cases (p.value x.value).hint <;> rfl
  refine ⟨g', by rw [analyzeModule, hBuild, solveBuilt, hRun]; rfl, fun f hf i v hv hInt => ⟨?_, ?_⟩,
    fun f hf call hCall hOp v hv hInt => ⟨?_, ?_⟩⟩
  · intro hPassed call hCall
    obtain ⟨a, ha, hBinds⟩ := hPassed.binds hv hInt hCall
    exact ⟨a, ha, hCovers v a (hBound.unites hf hBinds)⟩
  · intro hNot
    have hMem := Array.mem_of_getElem? hv
    obtain ⟨n, hn⟩ := (hKnows f hf).param hMem hInt
    have hReceives : p.Receives v := .inl ⟨f, hMem⟩
    exact hHinted hn hReceives
      (hBound.undefined hReceives fun f' _ u => p.not_binds_param hp.made hNot hv f' u)
  · rintro u ⟨f', hf', hCallee, hu, hTracked⟩
    have hCalls : call ∈ p.calls 0 f' := Program.mem_calls.mpr ⟨⟨f, hf, hCall⟩, hOp, hCallee⟩
    exact hCovers v u (hBound.unites hf' (.result hCalls hv hInt hu hTracked))
  · intro hNot
    obtain ⟨b, hb, hi⟩ := Program.mem_instrs.mp hCall
    obtain ⟨n, hn⟩ := ((hKnows f hf).models hb hi).node hv hInt
    have hReceives : p.Receives v := .inr ⟨b, call, hi, hv, hOp⟩
    exact hHinted hn hReceives
      (hBound.undefined hReceives (Program.not_binds_result hp.made hCall hv hNot))

/-- Two functions that call each other until their arguments are used up. The first one can be called
from elsewhere. -/
def parity : List Document.Func :=
  let turn (name next base : String) (external : Bool) : Document.Func :=
    ⟨name, external, [⟨"n", "i8", none, none⟩],
      [⟨"entry", [⟨"m", "sub", "i8", ["n", "1"], "", none, none⟩],
        ⟨"", some ["n", "sgt", "0"], "more", "done", "", [], "", none, none⟩⟩,
        ⟨"more", [⟨"r", "call", "i8", ["m"], next, none, none⟩],
          { (default : Document.Term) with ret := some ["r"] }⟩,
        ⟨"done", [⟨"z", "copy", "i8", [base], "", none, none⟩],
          { (default : Document.Term) with ret := some ["z"] }⟩]⟩
  [turn "even" "odd" "1" true, turn "odd" "even" "0" false]

/-- The parameter of the second function covers what the first one passes, the parameter of the first
one is unbounded, and the result of its call covers what the second one returns. -/
theorem parity_bindings : ∃ p g, decode parity = .ok p ∧
    analyzeModule p 0 ⟨.cousot, 0, false⟩ = .ok g ∧ g.rangeOf 1 ⊆ g.rangeOf 6 ∧
    g.rangeOf 0 = g.sentinels.max ∧ g.rangeOf 8 ⊆ g.rangeOf 2 ∧ g.rangeOf 9 ⊆ g.rangeOf 2 := by
  let call : Instr := ⟨.call, some 2, [some 1], some 1⟩
  let facts (p : Program) : Prop := (p.moduleAt 0).functions = #[0, 1] ∧
    ((p.func 0).params[0]? = some 0 ∧ p.isInteger 0 = true ∧ ¬ p.Passed 0 0 0 ∧
      (p.value 0).hint = none) ∧
    ((p.func 1).params[0]? = some 6 ∧ p.isInteger 6 = true ∧ p.Passed 0 1 0 ∧ call ∈ p.calls 0 1) ∧
    (call ∈ p.instrs 0 ∧ p.isInteger 2 = true ∧ p.Returned 0 call 8 ∧ p.Returned 0 call 9)
  have hFacts : ((decode parity).toOption.any fun p => decide (facts p)) = true := by
    decide +kernel
  cases hp : decode parity with
  | error e =>
    rw [hp] at hFacts
    cases hFacts
  | ok p =>
    rw [hp] at hFacts
    obtain ⟨hFunctions, ⟨h0, hInt0, hNot, hHint⟩, ⟨h6, hInt6, hPassed, hMem⟩, hCall, hInt2, h8, h9⟩ :
      facts p := of_decide_eq_true hFacts
    obtain ⟨g, hg, hParams, hResults⟩ :=
      analyzeModule_bindings hp ⟨.cousot, 0, false⟩ (.inl rfl)
    have hFirst : 0 ∈ (p.moduleAt 0).functions := by simp [hFunctions]
    have hSecond : 1 ∈ (p.moduleAt 0).functions := by simp [hFunctions]
    obtain ⟨a, ha, hArg⟩ := (hParams 1 hSecond 0 6 h6 hInt6).1 hPassed call hMem
    cases ha
    have hFree := (hParams 0 hFirst 0 0 h0 hInt0).2 hNot
    rw [Program.hinted, hHint] at hFree
    have hReturned := (hResults 0 hFirst call hCall rfl 2 rfl hInt2).1
    exact ⟨p, g, rfl, hg, hArg, hFree, hReturned 8 h8, hReturned 9 h9⟩

end ValueRange
