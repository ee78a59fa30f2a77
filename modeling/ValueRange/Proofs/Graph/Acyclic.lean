import ValueRange.Proofs.Graph.Definitions
import ValueRange.Proofs.Graph.Solution

/-! Operations outside of loops. If all that an operation reads is solved before its sink, the sink
gets the evaluation of the operation as its first range, and neither widening nor narrowing changes
it. -/

namespace ValueRange.Graph

open Range

variable {g g' h h' b : Graph} {cs : Components} {k : Nat} {comp : List NodeId} {m : Meet}
variable {n : NodeId} {o : OpId} {op : Operation}

/-- What the operation reads, or is bounded by, is solved before its sink. -/
def Ahead (cs : Components) (op : Operation) : Prop :=
  ∀ n, (n ∈ op.kind.operands ∨ ∃ c, op.kind.bound? = some (n, c)) →
    cs.number n < cs.number op.sink

/-- The operator leaves a range that is evaluated to itself. -/
def Meet.Fixes (m : Meet) : Prop :=
  ∀ {s : Sentinels} {t : Option Trend} {r : Range}, WellFormed s r → m.step s t r r = none

theorem fixes_widening : Meet.widening.Fixes := fun hr =>
  (widen_eq_none_iff hr hr).mpr (subset_refl _)

theorem Meet.Tight.fixes (hm : m.Tight) : m.Fixes := by
  intro s t r hr
  by_contra hStep
  obtain ⟨r', hStep⟩ := Option.ne_none_iff_exists'.mp hStep
  have hTightens := hm.tightens hr hr hStep
  have hLower : r'.lower = r.lower := hTightens.lower.elim id fun h => absurd h.2 (Int.lt_irrefl _)
  have hUpper : r'.upper = r.upper := hTightens.upper.elim id fun h => absurd h.2 (Int.lt_irrefl _)
  have hSame : r' = r := by
    rw [hTightens.wellFormed.eq_interval hTightens.nonempty,
      hr.eq_interval hTightens.old_nonempty, hLower, hUpper]
  exact Nat.lt_irrefl _ (hSame ▸ hm.rank_lt hr hr hStep)

/-- A sink that holds the evaluation of its operation keeps its range if the sources do. -/
theorem updates_fixed {defs : List OpId} (hm : m.Lawful) (hFixes : m.Fixes) (hw : Wired g)
    (hr : Regular g) (ho : g.ops[o]? = some op)
    (hOperands : ∀ n ∈ op.kind.operands, ∀ o' ∈ defs, g.sink o' ≠ n)
    (hEval : g.range op.sink = g.eval op) (hRun : Relation.ReflTransGen (Update m defs) g g') :
    g'.range op.sink = g.range op.sink := by
  induction hRun with
  | refl => rfl
  | @tail g₁ g₂ hRun hStep ih =>
    have hShape := updates_shape hRun
    have hRegular := updates_regular hm hRun hr
    have hEval₁ : g₁.eval op = g₁.range op.sink := by
      rw [ih, hEval]
      exact eval_congr hShape op fun n hn => updates_range hRun (hOperands n hn)
    obtain ⟨o', ho', op', r, hOp', hUpdate, rfl⟩ := hStep
    rw [← ih]
    refine range_setRange_of_ne _ _ fun hSink => ?_
    have hOp₁ : g₁.ops[o]? = some op := updates_ops hRun ▸ ho
    cases (hw.of_shape hShape).eq_of_sink hOp₁ hOp' hSink
    cases hOp₁.symm.trans hOp'
    rw [hEval₁, hFixes (hRegular.range op.sink)] at hUpdate
    cases hUpdate

section Solving

variable {g₁ g₂ g₃ g₄ : Graph}

/-- Solving a component keeps the evaluations of the operations outside of loops. -/
theorem Solving.range_kept (hSolving : Solving m k comp h g₁ g₂ g₃ g₄) (hg : Layout h cs)
    (hr : Regular h) (hm : m.Tight) (hc : cs.members[k]? = some comp) (ho : h.ops[o]? = some op)
    (hAhead : Ahead cs op) (hn : cs.number op.sink < k + 1) (hEval : h.range op.sink = h.eval op) :
    g₄.ops[o]? = some op ∧ g₄.range op.sink = g₄.eval op := by
  have hOut {n : NodeId} (hn : cs.number n < k) : n ∉ comp := fun hMem =>
    Nat.ne_of_lt hn ((hg.mem_iff hc n).mp hMem).2
  have hBefore {n : NodeId} (hRead : n ∈ op.kind.operands ∨ ∃ c, op.kind.bound? = some (n, c)) :
      cs.number n < k := Nat.lt_of_lt_of_le (hAhead n hRead) (Nat.le_of_lt_succ hn)
  obtain ⟨-, ho₂, -, ho₄⟩ := hSolving.op_unbounded ho fun n c hb => hOut (hBefore (.inr ⟨c, hb⟩))
  have hOperand {n : NodeId} (hn : n ∈ op.kind.operands) :=
    hSolving.range_outside hg (hOut (hBefore (.inl hn)))
  have hFree {g' : Graph} (hShape : g'.shape = h.shape) (n : NodeId) (hn : n ∈ op.kind.operands)
      (o' : OpId) (ho' : o' ∈ h.definitions comp) : g'.sink o' ≠ n := by
    obtain ⟨op', hOp', hMem⟩ := (hg.mem_definitions o').mp ho'
    rw [sink_of_shape hShape, sink_eq hOp']
    exact ne_of_mem_of_not_mem hMem (hOut (hBefore (.inl hn)))
  have h₁ := updates_fixed lawful_widening fixes_widening hg.wired hr ho (hFree rfl) hEval
    hSolving.widens
  have h₂ : g₂.range op.sink = g₂.eval op := by
    rw [hSolving.resolved.range, h₁, hEval]
    exact (eval_congr hSolving.shape₂ op fun n hn => (hOperand hn).2.1).symm
  have h₃ := updates_fixed hm.toLawful hm.fixes (hg.of_shape hSolving.shape₂).wired
    (hSolving.regular₂ hr) ho₂ (hFree hSolving.shape₂) h₂ hSolving.narrows
  refine ⟨ho₄, ?_⟩
  rw [hSolving.range_solved hg hc (Nat.le_of_lt_succ hn), h₃, hSolving.resolved.range, h₁, hEval]
  refine (eval_congr hSolving.shape₄ op fun n hn => ?_).symm
  rw [hSolving.range_solved hg hc (Nat.le_of_lt (hBefore (.inl hn))), (hOperand hn).2.2]

end Solving

/-- Once its sink is solved, an operation outside of loops evaluates to the range of its sink. -/
theorem Progress.range_eq (hp : Progress m cs b k h) (hs : Stage b cs 0 b) (hm : m.Tight)
    (ho : h.ops[o]? = some op) (hAhead : Ahead cs op) (hn : cs.number op.sink < k) :
    h.range op.sink = h.eval op := by
  induction hp generalizing op with
  | start => exact absurd hn (Nat.not_lt_zero _)
  | @next k comp g g₀ g₁ g₂ g₃ g₄ hProgress hSame hc hSolving ih =>
    have hStage := (hProgress.stage hs).sameState hSame
    obtain ⟨old, hOld, hSink, hKind⟩ := op_of_shape hSolving.shape₄ ho
    have hAhead' : Ahead cs old := by
      intro n hRead
      rw [hSink]
      exact hAhead n (hKind ▸ hRead)
    have hEval : g₀.range old.sink = g₀.eval old := by
      rcases Nat.lt_succ_iff_lt_or_eq.mp hn with hn | hn
      · rw [hSame.range, ih (hSame.ops ▸ hOld) hAhead' (hSink ▸ hn)]
        exact (eval_congr hSame.shape old fun n _ => hSame.range n).symm
      · refine (hStage.seeded hOld (Nat.le_of_eq (hSink ▸ hn.symm))).eval fun n hRead => ?_
        rw [← hn, ← hSink]
        exact hAhead' n (.inl hRead)
    obtain ⟨hOp, hRange⟩ := hSolving.range_kept hStage.layout hStage.regular hm hc hOld hAhead'
      (hSink ▸ hn) hEval
    cases ho.symm.trans hOp
    exact hRange

/-- Nodes that an operation reads are solved before its sink if no path leads back to them. -/
theorem Layout.ahead (hg : Layout g cs) (ho : g.ops[o]? = some op)
    (hNo : ∀ n, (n ∈ op.kind.operands ∨ ∃ c, op.kind.bound? = some (n, c)) →
      ¬ Reach g.successors op.sink n) : Ahead cs op := by
  intro n hRead
  refine Nat.lt_of_le_of_ne (hg.number_le ho hRead) fun hEq => hNo n hRead ?_
  have hLt : n < g.nodes.size := by
    rcases hRead with hn | ⟨c, hb⟩
    · exact hg.wired.operand_lt ho hn
    · exact hg.wired.bound_lt ho hb
  exact ((hg.arranged.number_eq_iff hg.wired.successors_lt hLt (hg.wired.sink_lt ho)).mp hEq).2

/-! ### Answers -/

/-- What a solution keeps of a graph that was not started: all but the ranges of what is defined. -/
structure Answers (g g' : Graph) : Prop where
  started : g'.started = true
  sentinels : g'.sentinels = g.sentinels
  valueAt? (n : NodeId) : g'.valueAt? n = g.valueAt? n
  typeOf (n : NodeId) : g'.typeOf n = g.typeOf n
  fixed {n : NodeId} {x : Node} : g.nodes[n]? = some x → x.definition = none →
    g'.range n = startRange g.sentinels x

theorem Answers.finish (h : Answers g g') : Answers g { g' with solved := true } :=
  ⟨h.started, h.sentinels, h.valueAt?, h.typeOf, h.fixed⟩

theorem Answers.rangeOf {v : ValueId} {n : NodeId} (h : Answers g g') (hg : Extensible g)
    (hn : g.valueAt? n = some v) : g'.rangeOf v = g'.range n := by
  have hNode : g'.nodeOf? v = some n := nodeOf?_of_unique
    (fun n' hn' => hg.injective ((h.valueAt? n').symm.trans hn') hn) ((h.valueAt? n).trans hn)
  rw [Graph.rangeOf, hNode]
  exact if_pos h.started

namespace Unsolved

/-- What the first graph of a solution says of a node apart from its range. -/
theorem map_begun {α : Type} {f : Node → α} (hf : ∀ x, f x = f x.shape) (hg : Unsolved g)
    (cs : Components) (n : NodeId) : ((g.begun cs).nodes[n]?).map f = (g.nodes[n]?).map f := by
  show (g.seed.nodes[n]?).map f = _
  rw [getElem?_seed hg.started, Option.map_map]
  refine congrArg (fun f => (g.nodes[n]?).map f) (funext fun x => ?_)
  rw [Function.comp_apply, hf, hf x]
  rfl

theorem answers (hg : Unsolved g) (hLast : Stage (g.begun cs) cs k g') : Answers g g' := by
  have hMap {α : Type} {f : Node → α} (hf : ∀ x, f x = f x.shape) (n : NodeId) :
      (g'.nodes[n]?).map f = (g.nodes[n]?).map f :=
    (map_of_shape hf hLast.shape n).trans (hg.map_begun hf cs n)
  have hStarted : g'.started = true := by
    rw [show g'.started = (g.begun cs).started from congrArg (·.started) hLast.shape]
    exact congrArg (·.started) (seed_of_not_started hg.started)
  refine ⟨hStarted, (sentinels_of_shape hLast.shape).trans (sentinels_seed hg.started),
    fun n => hMap (fun _ => rfl) n, fun n => ?_, fun {n x} hn hx => ?_⟩
  · exact congrArg (Option.getD · IntType.void) (hMap (f := (·.type)) (fun _ => rfl) n)
  · have hDefinition : g'.definition n = none := by
      have hSame := hMap (f := (·.definition)) (fun _ => rfl) n
      rw [hn, Option.map_some, hx] at hSame
      obtain ⟨y, hy, hyDef⟩ := Option.map_eq_some_iff.mp hSame
      rw [definition, hy]
      exact hyDef
    refine (hLast.fixed hDefinition).trans ?_
    show g.seed.range n = _
    rw [range_seed hg.started, hn]
    rfl

theorem solve_answers (hg : Unsolved g)
    (hNarrowing : g.narrowing = .cousot ∨ g.narrowing = .crop) :
    ∃ g', solve.run.run g = (.ok (), g') ∧ Answers g g' := by
  obtain ⟨m, hMeet, hm⟩ := exists_tight hNarrowing
  obtain ⟨cs, g', hStage, hProgress, hRun⟩ := hg.solve_run hm.toLawful hMeet
  exact ⟨_, hRun, (hg.answers (hProgress.stage hStage)).finish⟩

end Unsolved

/-! ### Graphs without loops -/

/-- The solution of a graph without loops: a sink holds the evaluation of its operation, unless that
is bounded by another node. -/
structure Evaluated (g g' : Graph) : Prop extends Answers g g' where
  eval {o : OpId} {op : Operation} : g.ops[o]? = some op → op.kind.bound? = none →
    g'.range op.sink = g'.eval op

namespace Unsolved

theorem successors_begun (hg : Unsolved g) (cs : Components) :
    (g.begun cs).successors = g.successors := by
  funext n
  have hOps : (g.begun cs).ops = g.ops := ops_seed hg.started
  unfold successors uses bounds
  rw [hg.map_begun (fun _ => rfl) cs, hg.map_begun (fun _ => rfl) cs]
  unfold sink
  rw [hOps]

/-- A graph without loops is evaluated. -/
theorem solve_acyclic (hg : Unsolved g) (hNarrowing : g.narrowing = .cousot ∨ g.narrowing = .crop)
    (hAcyclic : ∀ {o : OpId} {op : Operation}, g.ops[o]? = some op →
      ∀ n, (n ∈ op.kind.operands ∨ ∃ c, op.kind.bound? = some (n, c)) →
        ¬ Reach g.successors op.sink n) :
    ∃ g', solve.run.run g = (.ok (), g') ∧ Evaluated g g' := by
  obtain ⟨m, hMeet, hm⟩ := exists_tight hNarrowing
  obtain ⟨cs, g', hStage, hProgress, hRun⟩ := hg.solve_run hm.toLawful hMeet
  have hLast := hProgress.stage hStage
  refine ⟨_, hRun, (hg.answers hLast).finish, fun {o op} ho hBound => ?_⟩
  have hBegun : (g.begun cs).ops[o]? = some op := ops_seed hg.started ▸ ho
  obtain ⟨op', ho', -, hKind⟩ := op_of_shape hLast.shape.symm hBegun
  have hSame := hLast.pristine ho' fun n c h => by
    rw [hKind, hBound] at h
    cases h
  cases hBegun.symm.trans hSame
  refine hProgress.range_eq hStage hm ho' (hStage.layout.ahead hBegun fun n hRead => ?_)
    (hLast.layout.number_lt (hLast.layout.wired.sink_lt ho'))
  rw [hg.successors_begun]
  exact hAcyclic ho n hRead

end Unsolved

end ValueRange.Graph
