import ValueRange.Proofs.Graph.Stages
import ValueRange.Proofs.Program.Construction

/-! Solving a graph. A graph that is not started gets its first ranges, its components are found, and
they are solved in order; the solution goes through all stages and does not fail. -/

namespace ValueRange.Graph

open Range

variable {g g' b : Graph} {cs : Components} {k : Nat} {m : Meet}

/-! ### The first stage -/

theorem seed_of_not_started (h : g.started = false) : g.seed =
    { g with started := true,
             nodes := g.nodes.map fun n => { n with range := some (startRange g.sentinels n) } } := by
  rw [seed, h]
  rfl

/-- The graph that a solution starts with, once its components are known. -/
def begun (g : Graph) (cs : Components) : Graph := { g.seed with components := some cs }

theorem wellFormed_startRange (s : Sentinels) (n : Node) : WellFormed s (startRange s n) := by
  unfold startRange
  split
  · exact .interval s _ _
  · exact .empty
  · exact .interval s _ _
  · exact .max s

theorem getElem?_seed (h : g.started = false) (n : NodeId) : g.seed.nodes[n]? =
    (g.nodes[n]?).map fun x => { x with range := some (startRange g.sentinels x) } := by
  rw [seed_of_not_started h]
  exact Array.getElem?_map

theorem sentinels_seed (h : g.started = false) : g.seed.sentinels = g.sentinels := by
  rw [seed_of_not_started h]

theorem narrowing_seed (h : g.started = false) : g.seed.narrowing = g.narrowing := by
  rw [seed_of_not_started h]

theorem ops_seed (h : g.started = false) : g.seed.ops = g.ops := by
  rw [seed_of_not_started h]

theorem typeOf_seed (h : g.started = false) (n : NodeId) : g.seed.typeOf n = g.typeOf n := by
  rw [typeOf, getElem?_seed h, Option.map_map]
  rfl

theorem definition_seed (h : g.started = false) (n : NodeId) :
    g.seed.definition n = g.definition n := by
  rw [definition, getElem?_seed h, Option.bind_map]
  rfl

theorem range_seed (h : g.started = false) (n : NodeId) : g.seed.range n =
    ((g.nodes[n]?).map (startRange g.sentinels)).getD g.sentinels.max := by
  rw [range, range?, getElem?_seed h, Option.bind_map, sentinels_seed h]
  cases g.nodes[n]? <;> rfl

theorem regular_seed (h : g.started = false) : Regular g.seed := by
  refine ⟨fun n => ?_⟩
  rw [range_seed h, sentinels_seed h]
  cases g.nodes[n]? with
  | none => exact .max g.sentinels
  | some x => exact wellFormed_startRange g.sentinels x

theorem Wired.seed (hg : Wired g) (h : g.started = false) : Wired g.seed := by
  have hSame : Wired { g with started := true } :=
    ⟨⟨hg.sink_lt, hg.operand_lt, hg.bound_lt, hg.mem_uses, hg.mem_bounds⟩, hg.definition_iff⟩
  refine hSame.of_shape ?_
  have hNodes : g.seed.nodes.map Node.shape = g.nodes.map Node.shape := by
    rw [seed_of_not_started h, Array.map_map]
    rfl
  rw [shape, hNodes, seed_of_not_started h]
  rfl

/-- The components of a graph that is not started are found. -/
theorem Wired.layout_begun (hg : Wired g) (h : g.started = false) :
    ∃ cs, g.seed.findComponents = .ok cs ∧ Layout (g.begun cs) cs := by
  have hWired := hg.seed h
  refine ⟨_, hWired.toLinked.findComponents_eq, ?_, rfl, hWired.toLinked.arranged⟩
  exact ⟨⟨hWired.sink_lt, hWired.operand_lt, hWired.bound_lt, hWired.mem_uses, hWired.mem_bounds⟩,
    hWired.definition_iff⟩

/-- A graph as it is built: its solution is not started, constants are not defined, and only a sigma
without a bound has an intersection of its own. -/
structure Unsolved (g : Graph) : Prop where
  wired : Wired g
  started : g.started = false
  solved : g.solved = false
  const {n : NodeId} {x : Node} : g.nodes[n]? = some x → x.definition ≠ none → x.const = none
  whole {o : OpId} {op : Operation} : g.ops[o]? = some op → (∀ n, op.kind ≠ .sigma n none) →
    op.intersect = g.sentinels.max

namespace Unsolved

/-- A node that an operation defines starts with the empty range. -/
theorem range_seed_sink (hg : Unsolved g) {o : OpId} {op : Operation}
    (ho : g.ops[o]? = some op) : g.seed.range op.sink = g.sentinels.empty := by
  have hDef := (hg.wired.definition_iff op.sink o).mpr ⟨op, ho, rfl⟩
  obtain ⟨x, hx, hxDef⟩ := Option.bind_eq_some_iff.mp hDef
  rw [range_seed hg.started, hx, Option.map_some, Option.getD_some, startRange,
    hg.const hx (by simp [hxDef]), hxDef]

theorem layout_begun (hg : Unsolved g) :
    ∃ cs, g.seed.findComponents = .ok cs ∧ Layout (g.begun cs) cs :=
  hg.wired.layout_begun hg.started

theorem stage_begun (hg : Unsolved g) (hLayout : Layout (g.begun cs) cs) :
    Stage (g.begun cs) cs 0 (g.begun cs) := by
  have hWhole {o : OpId} {op : Operation} (ho : g.seed.ops[o]? = some op) {sources : List NodeId}
      (hp : op.kind = .phi sources) : op.intersect = g.seed.sentinels.max := by
    rw [sentinels_seed hg.started]
    exact hg.whole (ops_seed hg.started ▸ ho) (by simp [hp])
  refine ⟨rfl, hLayout, ⟨(regular_seed hg.started).range⟩, fun _ => rfl, fun ho _ => ho,
    fun ho hp => hWhole ho hp,
    fun {o op} ho _ => ⟨fun hAll => ?_, fun _ _ hlt => absurd hlt (Nat.not_lt_zero _)⟩⟩
  -- only a phi without sources has all of them before the first component
  have hNone : op.kind.operands = [] :=
    List.eq_nil_iff_forall_not_mem.mpr fun n hn => Nat.not_lt_zero _ (hAll n hn)
  cases hk : op.kind with
  | unary | sigma | binary => simp [hk, Kind.operands] at hNone
  | phi sources =>
    rw [hk] at hNone
    have hSources : sources = [] := hNone
    subst hSources
    have hEval := eval_of_max (g := g.begun cs) (hWhole ho hk)
    rw [hEval, hk]
    refine (hg.range_seed_sink (ops_seed hg.started ▸ ho)).trans ?_
    rw [← sentinels_seed hg.started]
    rfl

end Unsolved

/-- What parameters and instructions define is not a constant. -/
theorem definable_of_made {p : Program} (hp : p.Made) :
    Definable p fun v => (p.value v).const = none ∧ p.isInteger v = true := by
  refine ⟨fun {b i v} hi hv hInt => ⟨?_, hInt⟩, fun hv hInt => ⟨?_, hInt⟩⟩
  · obtain ⟨k, hk⟩ := Array.mem_iff_getElem?.mp hi
    exact (hp.tidy.result hk hv).const_eq
  · exact (hp.tidy.param hv).const_eq

theorem Ready.unsolved {p : Program} {D : ValueId → Prop} (h : Ready p D g)
    (hD : ∀ v, D v → (p.value v).const = none) : Unsolved g := by
  refine ⟨h.wired, h.started, h.solved, fun hx hd => ?_, h.mirrors.whole⟩
  rw [(h.mirrors.node hx).2.1]
  exact hD _ (h.mirrors.defined hx hd)

theorem Built.unsolved {p : Program} (hp : p.Made) (h : Built p g) : Unsolved g :=
  (h.ready (definable_of_made hp)).unsolved fun _ hv => hv.1

/-! ### All stages -/

/-- The states that a solution goes through between components, with the number of those that are
solved. -/
inductive Progress (m : Meet) (cs : Components) (b : Graph) : Nat → Graph → Prop
  | start : Progress m cs b 0 b
  | next {k : Nat} {comp : List NodeId} {g g₀ g₁ g₂ g₃ g₄ : Graph} (hProgress : Progress m cs b k g)
      (hSame : SameState g g₀) (hc : cs.members[k]? = some comp)
      (hSolving : Solving m k comp g₀ g₁ g₂ g₃ g₄) : Progress m cs b (k + 1) g₄

theorem Progress.stage (h : Progress m cs b k g) (hb : Stage b cs 0 b) : Stage b cs k g := by
  induction h with
  | start => exact hb
  | next _ hSame hc hSolving ih => exact (ih.sameState hSame).next hSolving hc

theorem Progress.le (h : Progress m cs b k g) : k ≤ cs.members.size := by
  cases h with
  | start => exact Nat.zero_le _
  | next _ _ hc _ => exact (Array.getElem?_eq_some_iff.mp hc).1

/-- The components that are left are solved in order. -/
theorem Progress.solveAll (hm : m.Lawful) (hMeet : meetOf b.narrowing = .ok m)
    (hb : Stage b cs 0 b) (comps : List (List NodeId)) (h : Progress m cs b k g)
    (hDrop : cs.members.toList.drop k = comps) :
    ∃ g', Progress m cs b cs.members.size g' ∧
      (forIn (comps.zipIdx k) PUnit.unit fun x _ => do
        solveComponent x.2 x.1
        pure (ForInStep.yield PUnit.unit) : GraphM PUnit).run.run g = (.ok (), g') := by
  induction comps generalizing k g with
  | nil =>
    have hk : cs.members.size ≤ k := by
      rw [← Array.length_toList]
      exact List.drop_eq_nil_iff.mp hDrop
    exact ⟨g, Nat.le_antisymm h.le hk ▸ h, rfl⟩
  | cons comp comps ih =>
    have hc : cs.members[k]? = some comp := by
      rw [← Array.getElem?_toList, ← List.head?_drop, hDrop]
      rfl
    have hRest : cs.members.toList.drop (k + 1) = comps := by
      rw [← List.tail_drop, hDrop]
      rfl
    have hStage := h.stage hb
    have hMeet' := hMeet
    rw [← narrowing_of_shape hStage.shape] at hMeet'
    obtain ⟨g₀, g₁, g₂, g₃, g₄, hSame, hSolving, hRun⟩ :=
      solveComponent_run hm hMeet' hStage.layout hStage.regular hc
    obtain ⟨g', hProgress, hRun'⟩ := ih (.next h hSame hc hSolving) hRest
    refine ⟨g', hProgress, ?_⟩
    rw [List.zipIdx_cons, List.forIn_cons, run_bind, run_bind, hRun]
    exact hRun'

theorem exists_tight (h : g.narrowing = .cousot ∨ g.narrowing = .crop) :
    ∃ m : Meet, meetOf g.narrowing = .ok m ∧ m.Tight := by
  rcases h with h | h
  · exact ⟨.narrowing, by rw [h, meetOf], tight_narrowing⟩
  · exact ⟨.cropping, by rw [h, meetOf], tight_cropping⟩

/-- A graph is solved without fail, and goes through all stages. -/
theorem Unsolved.solve_run (hg : Unsolved g) (hm : m.Lawful) (hMeet : meetOf g.narrowing = .ok m) :
    ∃ cs g', Stage (g.begun cs) cs 0 (g.begun cs) ∧
      Progress m cs (g.begun cs) cs.members.size g' ∧
      solve.run.run g = (.ok (), { g' with solved := true }) := by
  obtain ⟨cs, hFind, hLayout⟩ := hg.layout_begun
  have hStage := hg.stage_begun hLayout
  have hMeet' : meetOf (g.begun cs).narrowing = .ok m := by
    rw [begun, narrowing_seed hg.started]
    exact hMeet
  obtain ⟨g', hProgress, hRun⟩ := Progress.solveAll hm hMeet' hStage cs.members.toList .start rfl
  refine ⟨cs, g', hStage, hProgress, ?_⟩
  unfold solve
  rw [run_get_bind, hg.solved]
  simp only [Bool.false_eq_true, if_false, ↓run_get_bind, run_bind, run_modify, run_lift, hFind]
  unfold begun at hRun
  rw [hRun]

end ValueRange.Graph
