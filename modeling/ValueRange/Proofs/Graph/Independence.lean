import ValueRange.Analysis
import ValueRange.Proofs.Graph.Acyclic
import ValueRange.Proofs.Graph.Alignment
import ValueRange.Proofs.Graph.Assembly
import ValueRange.Proofs.Graph.Grafting
import ValueRange.Proofs.Program.Decoding

/-! Functions that are not called. The graph of a module whose calls know no callee consists of the
graphs of its functions, one behind another. Each of them is solved there as it is on its own, so that
a function has the same ranges in every such module. -/

namespace ValueRange

namespace Program

variable {p : Program}

/-- All that an accepted function mentions is its own. -/
theorem Accepted.mentions (hp : p.Accepted) (f : FuncId) :
    p.Mentions f fun v => (p.value v).owner = f := by
  have hOwner {b : BlockId} (hb : b ∈ (p.func f).blocks) : (p.block b).owner = f :=
    (hp.made.housed.owner hb).2
  refine ⟨fun hv => ?_, fun hb hi hv => ?_, fun hb hi hv => ?_, fun hb ht hv => ?_,
    fun {v u i} hv hi hu => ?_⟩
  · exact hp.made.owned.owner (hp.made.owned.param hv)
  · obtain ⟨k, hk⟩ := Array.mem_iff_getElem?.mp hi
    exact hp.made.owned.owner (hp.made.housed.values hb hk hv)
  · obtain ⟨v, hSome, -, hv⟩ := hp.complete.args hi hv
    cases hSome
    exact hv.trans (hOwner hb)
  · obtain ⟨v, hSome, -, hv⟩ := (hp.complete.term ht).operands hv
    cases hSome
    exact hv.trans (hOwner hb)
  · obtain ⟨s, hs, hi⟩ := Option.bind_eq_some_iff.mp hi
    have hMem : i ∈ (p.block s.block).instrs := Array.mem_of_getElem? hi
    obtain ⟨u, hSome, -, hu⟩ := hp.complete.args hMem hu
    cases hSome
    exact (hu.trans (hp.complete.site hs).2).trans hv

/-- The program with other functions in its first module. -/
def withFunctions (p : Program) (fs : Array FuncId) : Program :=
  { p with modules := p.modules.modify 0 fun m => { m with functions := fs } }

theorem functions_withFunctions (hp : 0 < p.modules.size) (fs : Array FuncId) :
    ((p.withFunctions fs).moduleAt 0).functions = fs := by
  have hModule : (p.withFunctions fs).moduleAt 0 =
      if 0 = 0 ∧ 0 < p.modules.size then { p.moduleAt 0 with functions := fs } else p.moduleAt 0 :=
    getD_modify _ _ _ _ _
  rw [hModule, if_pos ⟨rfl, hp⟩]

theorem withFunctions_self (p : Program) : p.withFunctions (p.moduleAt 0).functions = p := by
  have hModules : (p.modules.modify 0 fun m => { m with functions := (p.moduleAt 0).functions }) =
      p.modules := by
    refine Array.ext_getElem? fun m => ?_
    rw [Array.getElem?_modify]
    split
    case isTrue hm =>
      subst hm
      rw [moduleAt, Array.getD_eq_getD_getElem?]
      cases p.modules[0]? <;> rfl
    case isFalse => rfl
  exact congrArg (fun modules => { p with modules }) hModules

/-- No call of the first module knows its callee. -/
def CalleeFree (p : Program) : Prop :=
  ∀ f ∈ (p.moduleAt 0).functions, ∀ i ∈ p.instrs f, i.op = .call → i.callee = none

instance : Decidable p.CalleeFree :=
  inferInstanceAs (Decidable (∀ f ∈ _, ∀ i ∈ _, _ → _))

theorem CalleeFree.calls_withFunctions (h : p.CalleeFree) (hp : 0 < p.modules.size) {fs : Array FuncId}
    (hfs : ∀ f ∈ fs, f ∈ (p.moduleAt 0).functions) (f : FuncId) :
    (p.withFunctions fs).calls 0 f = [] := by
  refine List.eq_nil_iff_forall_not_mem.mpr fun i hi => ?_
  obtain ⟨⟨f', hf', hi⟩, hOp, hCallee⟩ := mem_calls.mp hi
  rw [functions_withFunctions hp] at hf'
  rw [h f' (hfs f' hf') i hi hOp] at hCallee
  cases hCallee

end Program

namespace Graph

variable {p : Program} {o : Options} {G g g' h h' : Graph} {v : ValueId}

/-! ### Modules without calls -/

theorem sentinelsFor_width (p : Program) (ho : 0 < o.width) (fs : List FuncId) :
    sentinelsFor p o fs = .ofWidth o.width := by
  rw [sentinelsFor, if_neg (Int.ne_of_gt ho)]

/-- The graphs of functions one behind another. -/
def row (p : Program) (o : Options) (fs : List FuncId) (G : Graph) : Graph :=
  fs.foldl (fun G f => G.append (build p f o).2) G

/-- Functions that are added to a graph come behind each other. -/
theorem addFunctions_run (hp : p.Accepted) (ho : 0 < o.width) {fs : List FuncId}
    (hNodup : fs.Nodup) (hfs : ∀ f ∈ fs, f ∈ (p.moduleAt 0).functions)
    (hFrame : SameFrame G (empty (.ofWidth o.width) o))
    (hG : Confined (fun v => (p.value v).owner ∉ fs) G) :
    (forIn fs PUnit.unit fun f _ => do
      addFunction p f
      pure (.yield ⟨⟩) : GraphM PUnit).run.run G = (.ok (), row p o fs G) := by
  induction fs generalizing G with
  | nil => rfl
  | cons f fs ih =>
    obtain ⟨hf, hNodup⟩ := List.nodup_cons.mp hNodup
    obtain ⟨g, hBuild, -⟩ := build_succeeds hp.made
      (buildable_of_accepted hp (hfs f List.mem_cons_self)) o
    have hBeside : Beside (fun v => (p.value v).owner = f) G (empty (.ofWidth o.width) o) :=
      ⟨hFrame, hG.mono fun v hv hOwner => hv (hOwner ▸ List.mem_cons_self), confined_empty _ _ _⟩
    have hAlone : (addFunction p f).run.run (empty (.ofWidth o.width) o) = (.ok (), g) := by
      rw [← sentinelsFor_width p ho [f]]
      exact hBuild
    obtain ⟨⟨-, -, hNew⟩, _, rfl, hRun⟩ := addFunction_grafts (hp.mentions f) hBeside () g hAlone
    rw [append_empty] at hRun
    have hRest := ih hNodup (fun f' hf' => hfs f' (List.mem_cons_of_mem f hf'))
      (G := G.append g) ⟨hFrame.sentinels, hFrame.narrowing, hFrame.started, hFrame.solved⟩
      ((hG.mono fun v hv hMem => hv (List.mem_cons_of_mem f hMem)).append
        (hNew.mono fun v hv => hv ▸ hf))
    rw [List.forIn_cons, run_bind, run_bind, hRun]
    refine hRest.trans ?_
    rw [row, row, List.foldl_cons, hBuild]

theorem growth_row (hp : p.Accepted) (ho : 0 < o.width) {fs : List FuncId} (hNodup : fs.Nodup)
    (hfs : ∀ f ∈ fs, f ∈ (p.moduleAt 0).functions) :
    Growth p (fun v => (p.value v).const = none ∧ p.isInteger v = true)
      (empty (.ofWidth o.width) o) (row p o fs (empty (.ofWidth o.width) o)) := by
  have hLoop : Extends p _ (empty (.ofWidth o.width) o) (forIn fs PUnit.unit fun f _ => do
      addFunction p f
      pure (.yield ⟨⟩)) fun _ _ => True :=
    Extends.forIn fun f _ _ _ => ((definable_of_made hp.made).addFunction f).andThen
  have hGrow := hLoop.1
  rw [addFunctions_run hp ho hNodup hfs ⟨rfl, rfl, rfl, rfl⟩ (confined_empty _ _ _)] at hGrow
  exact hGrow

/-- Without calls there is nothing to bind. -/
theorem bindCalls_run {m : ModuleId} {f : FuncId} (hReturns : none ∉ p.returns f 0)
    (hCalls : p.calls m f = []) (g : Graph) : (bindCalls p m f).run.run g = (.ok (), g) := by
  unfold bindCalls bindResults
  simp only [hCalls, List.isEmpty_nil, Bool.not_true, Bool.and_false, Bool.false_eq_true, if_false]
  rw [run_bind, run_lift, present_eq hReturns]
  dsimp only
  split <;> rfl

section Store

variable (p : Program) (fs : Array FuncId)

theorem addValue_withFunctions : addValue (p.withFunctions fs) = addValue p := rfl

theorem addOperation_withFunctions : addOperation (p.withFunctions fs) = addOperation p := by
  funext v kind r
  unfold addOperation
  rw [addValue_withFunctions]
  rfl

theorem addSigma_withFunctions : addSigma (p.withFunctions fs) = addSigma p := by
  funext b v source
  unfold addSigma
  rw [addValue_withFunctions, addOperation_withFunctions]

theorem hasUntracked_withFunctions : hasUntracked (p.withFunctions fs) = hasUntracked p := by
  funext args
  induction args with
  | nil => rfl
  | cons a args ih =>
    cases a with
    | none => rfl
    | some v =>
      unfold hasUntracked
      rw [ih]
      rfl

theorem addInstr_withFunctions : addInstr (p.withFunctions fs) = addInstr p := by
  funext b i
  unfold addInstr
  rw [addValue_withFunctions, addOperation_withFunctions, addSigma_withFunctions,
    hasUntracked_withFunctions]
  rfl

theorem addFact_withFunctions : addFact (p.withFunctions fs) = addFact p := rfl

theorem addTest_withFunctions : addTest (p.withFunctions fs) = addTest p := by
  funext pred x y yes no
  unfold addTest
  rw [addFact_withFunctions]
  rfl

theorem addBranch_withFunctions : addBranch (p.withFunctions fs) = addBranch p := by
  funext b
  unfold addBranch
  rw [addTest_withFunctions]
  rfl

theorem addFunction_withFunctions : addFunction (p.withFunctions fs) = addFunction p := by
  funext f
  unfold addFunction
  rw [addValue_withFunctions, addBranch_withFunctions, addInstr_withFunctions]
  rfl

end Store

theorem buildModule_withFunctions (hp : p.Accepted) (hCalls : p.CalleeFree) (ho : 0 < o.width)
    {fs : Array FuncId} (hNodup : fs.toList.Nodup)
    (hfs : ∀ f ∈ fs, f ∈ (p.moduleAt 0).functions) : buildModule (p.withFunctions fs) 0 o =
      (.ok (), row p o fs.toList (empty (.ofWidth o.width) o)) := by
  have hFunctions := addFunctions_run hp ho hNodup (fun f hf => hfs f (Array.mem_toList_iff.mp hf))
    ⟨rfl, rfl, rfl, rfl⟩ (confined_empty _ (.ofWidth o.width) o)
  have hBind (fs' : List FuncId) (G : Graph) : (forIn fs' PUnit.unit fun f _ => do
      bindCalls (p.withFunctions fs) 0 f
      pure (.yield ⟨⟩) : GraphM PUnit).run.run G = (.ok (), G) := by
    induction fs' with
    | nil => rfl
    | cons f fs' ih =>
      have hRun := bindCalls_run (p := p.withFunctions fs) (returns_present hp.complete f)
        (hCalls.calls_withFunctions hp.complete.home hfs f) G
      rw [List.forIn_cons, run_bind, run_bind, hRun]
      exact ih
  unfold buildModule addModule
  rw [sentinelsFor_width _ ho, Program.functions_withFunctions hp.complete.home, addFunction_withFunctions,
    ← Array.forIn_toList, ← Array.forIn_toList, run_bind, hFunctions]
  dsimp only
  rw [run_bind, hBind]
  rfl

/-! ### Rows of graphs -/

theorem build_confined (hp : p.Accepted) {f : FuncId} (hf : f ∈ (p.moduleAt 0).functions)
    (o : Options) : Confined (fun v => (p.value v).owner = f) (build p f o).2 := by
  obtain ⟨g, hBuild, -⟩ := build_succeeds hp.made (buildable_of_accepted hp hf) o
  have hBeside : Beside (fun v => (p.value v).owner = f) (empty (sentinelsFor p o [f]) o)
      (empty (sentinelsFor p o [f]) o) :=
    ⟨⟨rfl, rfl, rfl, rfl⟩, confined_empty _ _ _, confined_empty _ _ _⟩
  have hNew := (addFunction_grafts (hp.mentions f) hBeside () g hBuild).1.new
  rw [hBuild]
  exact hNew

theorem Embeds.row {a b : Nat} (hEmbeds : Embeds a b g G) (p : Program) (o : Options)
    (fs : List FuncId) : Embeds a b g (row p o fs G) := by
  induction fs generalizing G with
  | nil => exact hEmbeds
  | cons f fs ih => exact ih (hEmbeds.append _)

theorem size_le_row (p : Program) (o : Options) (fs : List FuncId) (G : Graph) :
    G.nodes.size ≤ (row p o fs G).nodes.size := by
  induction fs generalizing G with
  | nil => exact Nat.le_refl _
  | cons f fs ih =>
    refine Nat.le_trans ?_ (ih (G.append (build p f o).2))
    rw [size_append]
    exact Nat.le_add_right _ _

/-- Each graph of a row stands in it. -/
theorem embeds_row (hp : p.Made) (ho : 0 < o.width) {fs : List FuncId} {f : FuncId} (hf : f ∈ fs)
    (hFrame : SameFrame G (empty (.ofWidth o.width) o)) :
    ∃ a b, Embeds a b (build p f o).2 (row p o fs G) ∧
      a + (build p f o).2.nodes.size ≤ (row p o fs G).nodes.size := by
  induction fs generalizing G with
  | nil => cases hf
  | cons f' fs ih =>
    rcases List.mem_cons.mp hf with rfl | hf
    · have hAlone : SameFrame (empty (sentinelsFor p o [f]) o) (build p f o).2 :=
        ((definable_of_made hp).addFunction f).1.sameFrame
      rw [sentinelsFor_width p ho] at hAlone
      refine ⟨_, _, (hFrame.trans hAlone).embeds.row p o fs, ?_⟩
      rw [← size_append]
      exact size_le_row p o fs _
    · exact ih hf ⟨hFrame.sentinels, hFrame.narrowing, hFrame.started, hFrame.solved⟩

/-- A value that a row of graphs knows is known to one of them. -/
theorem exists_of_row {fs : List FuncId} {x : Node} (hx : x ∈ (row p o fs G).nodes) :
    (∃ y ∈ G.nodes, y.value = x.value) ∨
      ∃ f ∈ fs, ∃ y ∈ (build p f o).2.nodes, y.value = x.value := by
  induction fs generalizing G with
  | nil => exact .inl ⟨x, hx, rfl⟩
  | cons f fs ih =>
    rcases ih hx with ⟨y, hy, hValue⟩ | ⟨f', hf', hLater⟩
    · rcases Array.mem_append.mp hy with hy | hy
      · exact .inl ⟨y, hy, hValue⟩
      · obtain ⟨z, hz, rfl⟩ := Array.mem_map.mp hy
        exact .inr ⟨f, List.mem_cons_self, z, hz, hValue⟩
    · exact .inr ⟨f', List.mem_cons_of_mem f hf', hLater⟩

/-! ### Ranges -/

theorem Answers.rangeOf_of_unknown (h : Answers g g') (hv : ∀ n, g.valueAt? n ≠ some v) :
    g'.rangeOf v = g.sentinels.max := by
  have hNone : g'.nodeOf? v = none := by
    refine Option.eq_none_iff_forall_ne_some.mpr fun n hn => hv n ?_
    rw [← h.valueAt?]
    exact valueAt?_of_nodeOf? hn
  rw [Graph.rangeOf, hNone, h.sentinels]

/-- A graph that is part of another one gives the values that only it knows the same ranges. -/
theorem Embeds.rangeOf {a b : Nat} (hEmbeds : Embeds a b g h) (hSolved : Embeds a b g' h')
    (hg : Answers g g') (hh : Answers h h') (hgOpen : Extensible g) (hhOpen : Extensible h)
    (hKnown : ∀ n, h.valueAt? n = some v → ∃ m, g.valueAt? m = some v) :
    h'.rangeOf v = g'.rangeOf v := by
  by_cases hv : ∃ m, g.valueAt? m = some v
  · obtain ⟨m, hm⟩ := hv
    have hm' : h.valueAt? (m + a) = some v := by
      rw [Graph.valueAt?, hEmbeds.getElem? (lt_of_valueAt? hm), Option.map_map]
      exact hm
    have hLt : m < g'.nodes.size := lt_of_valueAt? ((hg.valueAt? m).trans hm)
    rw [hg.rangeOf hgOpen hm, hh.rangeOf hhOpen hm', hSolved.range hLt]
  · have hNone (n : NodeId) : h.valueAt? n ≠ some v := fun hn => hv (hKnown n hn)
    rw [hg.rangeOf_of_unknown fun m hm => hv ⟨m, hm⟩, hh.rangeOf_of_unknown hNone,
      hEmbeds.sentinels]

/-- Functions of a module that knows no callees are solved together as they are on their own. -/
theorem analyzeModule_withFunctions (hp : p.Accepted) (hCalls : p.CalleeFree) (ho : 0 < o.width)
    (hNarrowing : o.narrowing = .cousot ∨ o.narrowing = .crop) {fs : Array FuncId}
    (hNodup : fs.toList.Nodup) (hfs : ∀ f ∈ fs, f ∈ (p.moduleAt 0).functions) :
    ∃ G, analyzeModule (p.withFunctions fs) 0 o = .ok G ∧ ∀ f ∈ fs, ∃ g, analyze p f o = .ok g ∧
      ∀ v ∈ (p.func f).values, G.rangeOf v = g.rangeOf v := by
  have hMem {f : FuncId} (hf : f ∈ fs.toList) := hfs f (Array.mem_toList_iff.mp hf)
  have hGrow := growth_row hp ho hNodup fun f => hMem
  have hUnsolved := (hGrow.ready (ready_empty ..)).unsolved fun _ hv => hv.1
  have hOpen := hGrow.extensible (extensible_empty ..)
  obtain ⟨G, hRun, hAnswers⟩ := hUnsolved.solve_answers
    (hGrow.sameFrame.narrowing.symm ▸ hNarrowing)
  have hBuild := buildModule_withFunctions hp hCalls ho hNodup hfs
  refine ⟨G, by rw [analyzeModule, hBuild, solveBuilt, hRun]; rfl, fun f hf => ?_⟩
  obtain ⟨g, hAlone, hTo, -⟩ := build_succeeds hp.made (buildable_of_accepted hp (hfs f hf)) o
  have hUnsolved' : Unsolved g := Built.unsolved hp.made ⟨o, .inl ⟨f, congrArg Prod.snd hAlone⟩⟩
  have hNarrowing' : g.narrowing = .cousot ∨ g.narrowing = .crop :=
    hTo.growth.sameFrame.narrowing.symm ▸ hNarrowing
  obtain ⟨a, b, hEmbeds, hSize⟩ := embeds_row hp.made ho (Array.mem_toList_iff.mpr hf)
    (G := empty (.ofWidth o.width) o) ⟨rfl, rfl, rfl, rfl⟩
  rw [hAlone] at hEmbeds hSize
  obtain ⟨g', G', hRun', hRunRow, hSolved⟩ := hEmbeds.solve hUnsolved' hUnsolved hSize hNarrowing'
  obtain ⟨_, hSame, hAnswers'⟩ := hUnsolved'.solve_answers hNarrowing'
  cases hRunRow.symm.trans hRun
  cases hSame.symm.trans hRun'
  refine ⟨g', by rw [analyze, hAlone, solveBuilt, hRun']; rfl, fun v hv => ?_⟩
  refine hEmbeds.rangeOf hSolved hAnswers' hAnswers (hTo.extensible (extensible_empty ..)) hOpen
    fun n hn => ?_
  obtain ⟨x, hx, rfl⟩ := Option.map_eq_some_iff.mp hn
  rcases exists_of_row (Array.mem_of_getElem? hx) with ⟨y, hy, -⟩ | ⟨f', hf', y, hy, hValue⟩
  · exact absurd hy (Array.not_mem_empty y)
  · have hOwner := (build_confined hp (hMem hf') o).node hy
    rw [hValue, hp.made.owned.owner hv] at hOwner
    subst hOwner
    rw [hAlone] at hy
    obtain ⟨m, hm⟩ := Array.mem_iff_getElem?.mp hy
    exact ⟨m, by rw [Graph.valueAt?, hm, ← hValue]; rfl⟩

end Graph

/-- The analysis of a module none of whose calls knows its callee agrees with the analyses of its
functions. So other functions of the module, and their order, do not matter. -/
theorem analyzeModule_independent {d : List Document.Func} {p : Program} (hDecode : decode d = .ok p)
    (hCalls : p.CalleeFree) (o : Options) (hWidth : 0 < o.width)
    (hNarrowing : o.narrowing = .cousot ∨ o.narrowing = .crop) :
    ∃ G, analyzeModule p 0 o = .ok G ∧
      (∀ f ∈ (p.moduleAt 0).functions, ∃ g, analyze p f o = .ok g ∧
        ∀ v ∈ (p.func f).values, G.rangeOf v = g.rangeOf v) ∧
      ∀ fs : Array FuncId, fs.toList.Nodup → (∀ f ∈ fs, f ∈ (p.moduleAt 0).functions) →
        ∃ G', analyzeModule (p.withFunctions fs) 0 o = .ok G' ∧
          ∀ f ∈ fs, ∀ v ∈ (p.func f).values, G'.rangeOf v = G.rangeOf v := by
  have hp : p.Accepted := by
    have hAccepts := decode_accepts d
    rw [hDecode] at hAccepts
    exact hAccepts
  obtain ⟨G, hG, hAll⟩ := Graph.analyzeModule_withFunctions hp hCalls hWidth hNarrowing
    (hp.made.numbered.functions 0) fun _ => id
  rw [p.withFunctions_self] at hG
  refine ⟨G, hG, hAll, fun fs hNodup hfs => ?_⟩
  obtain ⟨G', hG', hSome⟩ :=
    Graph.analyzeModule_withFunctions hp hCalls hWidth hNarrowing hNodup hfs
  refine ⟨G', hG', fun f hf v hv => ?_⟩
  obtain ⟨g, hg, hRange⟩ := hAll f (hfs f hf)
  obtain ⟨g', hg', hRange'⟩ := hSome f hf
  cases hg.symm.trans hg'
  rw [hRange v hv, hRange' v hv]

/-- A function that counts up to its parameter and hands the count to an unknown function, and one
that masks its parameter. -/
def chores : List Document.Func :=
  let term : Document.Term := default
  let instr (result op : String) (type : String) (args : List String) : Document.Instr :=
    ⟨result, op, type, args, "", none, none⟩
  [⟨"count", true, [⟨"n", "i8", none, none⟩],
      [⟨"entry", [], { term with jump := "head" }⟩,
        ⟨"head", [instr "i" "phi" "i8" ["0", "j"]],
          { term with test := some ["i", "slt", "n"], yes := "body", no := "done" }⟩,
        ⟨"body", [instr "s" "sigma" "i8" ["i"], instr "j" "add" "i8" ["s", "1"]],
          { term with jump := "head" }⟩,
        ⟨"done", [instr "r" "call" "i8" ["i"]], { term with ret := some ["r"] }⟩]⟩,
    ⟨"mask", false, [⟨"x", "u8", none, none⟩],
      [⟨"entry", [instr "m" "and" "u8" ["x", "7"]], { term with ret := some ["m"] }⟩]⟩]

/-- The count has the range that it has on its own, also if the functions change places. -/
theorem chores_independent : ∃ p G g G', decode chores = .ok p ∧
    analyzeModule p 0 ⟨.crop, 9, false⟩ = .ok G ∧ analyze p 0 ⟨.crop, 9, false⟩ = .ok g ∧
    analyzeModule (p.withFunctions #[1, 0]) 0 ⟨.crop, 9, false⟩ = .ok G' ∧
    G.rangeOf 3 = g.rangeOf 3 ∧ G'.rangeOf 3 = G.rangeOf 3 := by
  let facts (p : Program) : Prop := (p.moduleAt 0).functions = #[0, 1] ∧ p.CalleeFree ∧
    3 ∈ (p.func 0).values
  have hFacts : ((decode chores).toOption.any fun p => decide (facts p)) = true := by
    decide +kernel
  cases hp : decode chores with
  | error e =>
    rw [hp] at hFacts
    cases hFacts
  | ok p =>
    rw [hp] at hFacts
    obtain ⟨hFunctions, hCalls, hv⟩ : facts p := of_decide_eq_true hFacts
    obtain ⟨G, hG, hAlone, hOthers⟩ :=
      analyzeModule_independent hp hCalls ⟨.crop, 9, false⟩ (by decide) (.inr rfl)
    obtain ⟨g, hg, hRange⟩ := hAlone 0 (by simp [hFunctions])
    obtain ⟨G', hG', hRange'⟩ := hOthers #[1, 0] (by decide) (by simp [hFunctions])
    exact ⟨p, G, g, G', rfl, hG, hg, hG', hRange 3 hv, hRange' 0 (by simp) 3 hv⟩

end ValueRange
