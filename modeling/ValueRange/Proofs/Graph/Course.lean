import ValueRange.Proofs.Graph.Solution

/-! The course of a solution. The components of a graph are solved in order. The state of the graph at
each moment of that is a function of the state that the component was started in: some turns into its
widening, with its trends frozen, some turns into its narrowing, or some evaluations into its
propagation. -/

namespace ValueRange.Graph

open Range

/-! ### The course of a component -/

/-- A component that is to be solved: the operator that narrows it, its number and its nodes. -/
structure Task where
  meet : Meet
  pos : Nat
  comp : List NodeId

/-- A moment in the solution of a component. Between these moments ranges do not change. -/
inductive Moment where
  | widening (turns : Nat)
  | frozen
  | narrowing (turns : Nat)
  | propagating (evaluations : Nat)
deriving DecidableEq, Repr

namespace Task

variable (t : Task) (g : Graph)

def discovered : Graph := g.record t.pos t.comp .discovered

/-- The state after some turns of an operator over the operations of the component. Turns are taken
only if the component was started with a range that is not empty. -/
def turned (m : Meet) (turns : Nat) (h : Graph) : Graph :=
  if (t.discovered g).hasEntry t.comp then iterateQueue m t.pos turns (h.definitions t.comp) h
  else h

/-- The state after all turns of an operator. -/
def iterated (m : Meet) (h : Graph) : Graph :=
  t.turned g m (h.stepBound m (h.definitions t.comp)) h

def widened : Graph := t.iterated g .widening (t.discovered g)

def frozen : Graph := ((t.widened g).freeze t.comp).record t.pos t.comp .widened

def fixed : Graph :=
  ((t.frozen g).resolveBounds (fun _ _ => true) t.comp).record t.pos t.comp .intersectsFixed

def narrowed : Graph := (t.iterated g t.meet (t.fixed g)).record t.pos t.comp .narrowed

/-- The bounds that the component resolves outside are resolved. -/
def resolved : Graph := (t.narrowed g).resolveBounds (fun g o => !g.inside t.pos o) t.comp

def propagated : Graph :=
  ((t.narrowed g).propagate t.pos t.comp).record t.pos t.comp .propagated

/-- The state at a moment of the component that was started in state `g`. -/
def state : Moment → Graph
  | .widening turns => t.turned g .widening turns (t.discovered g)
  | .frozen => t.frozen g
  | .narrowing turns => t.turned g t.meet turns (t.fixed g)
  | .propagating evaluations =>
    (((t.narrowed g).fed t.pos t.comp).take evaluations).foldl assign (t.resolved g)

end Task

variable {g g' h b : Graph} {cs : Components} {m : Meet} {t : Task} {k : Nat}
variable {comp : List NodeId} {n : NodeId}

theorem shape_iterateQueue (m : Meet) (pos steps : Nat) (queue : List OpId) (g : Graph) :
    (iterateQueue m pos steps queue g).shape = g.shape := by
  fun_induction iterateQueue m pos steps queue g with
  | case1 => rfl
  | case2 => rfl
  | case3 => assumption
  | case4 => assumption
  | case5 => exact Eq.trans ‹_› (shape_setRange _ _ _)

theorem Task.shape_turned (t : Task) (g : Graph) (m : Meet) (turns : Nat) (h : Graph) :
    (t.turned g m turns h).shape = h.shape := by
  unfold Task.turned
  split
  · exact shape_iterateQueue m t.pos turns _ h
  · rfl

/-- Solving a component goes through its course to the end. -/
theorem solveComponent_eq (hm : meetOf g.narrowing = .ok t.meet) :
    (solveComponent t.pos t.comp).run.run g = (.ok (), t.propagated g) := by
  have hShape : (t.fixed g).shape = (t.discovered g).shape := by
    rw [Task.fixed, shape_record, shape_resolveBounds, Task.frozen, shape_record, shape_freeze]
    exact t.shape_turned g _ _ _
  have hDefs := definitions_of_shape hShape t.comp
  have hNarrowing : (t.fixed g).narrowing = g.narrowing :=
    narrowing_of_shape (hShape.trans (shape_record _ _ _ g))
  rw [← hNarrowing] at hm
  unfold Task.propagated Task.narrowed Task.iterated Task.turned
  unfold Task.fixed Task.frozen Task.widened Task.iterated Task.turned Task.discovered at *
  unfold solveComponent
  cases hEntry : (g.record t.pos t.comp .discovered).hasEntry t.comp with
  | true =>
    simp only [hEntry, if_true] at hm hDefs ⊢
    simp only [↓run_get_bind, run_bind, run_modify, run_lift, hEntry, if_true, iterate, hm, hDefs]
  | false =>
    simp only [↓run_get_bind, run_bind, run_modify, hEntry, Bool.false_eq_true, if_false]

/-! ### The course of all components -/

/-- The component with number `k` as a task. -/
def taskOf (m : Meet) (cs : Components) (k : Nat) : Task := ⟨m, k, cs.members.getD k []⟩

/-- The state in which component `k` is started, if the solution began with `b`. -/
def before (m : Meet) (cs : Components) (b : Graph) : Nat → Graph
  | 0 => b
  | k + 1 => (taskOf m cs k).propagated (before m cs b k)

theorem taskOf_eq (m : Meet) (hc : cs.members[k]? = some comp) : taskOf m cs k = ⟨m, k, comp⟩ := by
  rw [taskOf, Array.getD_eq_getD_getElem?, hc]
  rfl

theorem shape_foldl_assign (os : List OpId) (g : Graph) : (os.foldl assign g).shape = g.shape := by
  induction os generalizing g with
  | nil => rfl
  | cons o os ih => rw [List.foldl_cons, ih, shape_assign]

namespace Task

theorem shape_fixed (t : Task) (g : Graph) : (t.fixed g).shape = g.shape := by
  rw [fixed, shape_record, shape_resolveBounds, frozen, shape_record, shape_freeze]
  exact (t.shape_turned g _ _ _).trans (shape_record _ _ _ g)

theorem shape_narrowed (t : Task) (g : Graph) : (t.narrowed g).shape = g.shape := by
  rw [narrowed, shape_record]
  exact (t.shape_turned g _ _ _).trans (t.shape_fixed g)

theorem shape_propagated (t : Task) (g : Graph) : (t.propagated g).shape = g.shape := by
  rw [propagated, shape_record, propagate_eq, shape_foldl_assign, shape_resolveBounds,
    shape_narrowed]

theorem shape_state (t : Task) (g : Graph) (i : Moment) : (t.state g i).shape = g.shape := by
  cases i with
  | widening turns => exact (t.shape_turned g _ _ _).trans (shape_record _ _ _ g)
  | frozen =>
    rw [state, frozen, shape_record, shape_freeze]
    exact (t.shape_turned g _ _ _).trans (shape_record _ _ _ g)
  | narrowing turns => exact (t.shape_turned g _ _ _).trans (t.shape_fixed g)
  | propagating evaluations =>
    rw [state, shape_foldl_assign, resolved, shape_resolveBounds, shape_narrowed]

end Task

theorem shape_before (m : Meet) (cs : Components) (b : Graph) (k : Nat) :
    (before m cs b k).shape = b.shape := by
  induction k with
  | zero => rfl
  | succ k ih => exact (Task.shape_propagated _ _).trans ih

/-- The components that are left are solved in order. -/
theorem solveAll_eq (hm : meetOf b.narrowing = .ok m) (comps : List (List NodeId))
    (hDrop : cs.members.toList.drop k = comps) (hk : k + comps.length = cs.members.size) :
    (forIn (comps.zipIdx k) PUnit.unit fun x _ => do
      solveComponent x.2 x.1
      pure (ForInStep.yield PUnit.unit) : GraphM PUnit).run.run (before m cs b k) =
    (.ok (), before m cs b cs.members.size) := by
  induction comps generalizing k with
  | nil =>
    rw [← hk]
    rfl
  | cons comp comps ih =>
    have hc : cs.members[k]? = some comp := by
      rw [← Array.getElem?_toList, ← List.head?_drop, hDrop]
      rfl
    have hRest : cs.members.toList.drop (k + 1) = comps := by
      rw [← List.tail_drop, hDrop]
      rfl
    have hMeet : meetOf (before m cs b k).narrowing = .ok (taskOf m cs k).meet := by
      rw [narrowing_of_shape (shape_before m cs b k)]
      exact hm
    have hRun := solveComponent_eq hMeet
    rw [taskOf_eq m hc] at hRun
    rw [List.zipIdx_cons, List.forIn_cons, run_bind, run_bind, hRun]
    have hNext := ih hRest (by rw [List.length_cons] at hk; omega)
    rw [before, taskOf_eq m hc] at hNext
    exact hNext

/-- A solution that is not finished seeds the graph, finds its components and takes their course. -/
theorem solve_eq (hs : g.solved = false) (hFind : g.seed.findComponents = .ok cs)
    (hm : meetOf g.narrowing = .ok m) : solve.run.run g =
      (.ok (), { before m cs (g.begun cs) cs.members.size with solved := true }) := by
  have hMeet : meetOf (g.begun cs).narrowing = .ok m := by
    unfold begun seed
    split <;> exact hm
  have hRun := solveAll_eq (k := 0) hMeet cs.members.toList rfl (by simp)
  unfold solve
  rw [run_get_bind, hs]
  simp only [Bool.false_eq_true, if_false, ↓run_get_bind, run_bind, run_modify, run_lift, hFind]
  rw [show before m cs (g.begun cs) 0 = { g.seed with components := some cs } from rfl] at hRun
  rw [hRun]

/-! ### Trends -/

section Trends

theorem trend_of_nodes (h : g'.nodes = g.nodes) (n : NodeId) : g'.trend n = g.trend n := by
  rw [trend, trend, h]

theorem trend_iterateQueue (m : Meet) (pos steps : Nat) (queue : List OpId) (g : Graph)
    (n : NodeId) : (iterateQueue m pos steps queue g).trend n = g.trend n := by
  fun_induction iterateQueue m pos steps queue g with
  | case1 => rfl
  | case2 => rfl
  | case3 => assumption
  | case4 => assumption
  | case5 => exact Eq.trans ‹_› (trend_setRange _ _ _ n)

theorem nodes_resolveBounds (test : Graph → OpId → Bool) (comp : List NodeId) (g : Graph) :
    (g.resolveBounds test comp).nodes = g.nodes := by
  have hInner (n : NodeId) (os : List OpId) (g : Graph) :
      (os.foldl (fun g o => if test g o then g.resolve n o else g) g).nodes = g.nodes := by
    induction os generalizing g with
    | nil => rfl
    | cons o os ih =>
      rw [List.foldl_cons, ih]
      split
      · exact nodes_resolve g n o
      · rfl
  unfold resolveBounds
  induction comp generalizing g with
  | nil => rfl
  | cons n comp ih => rw [List.foldl_cons, ih, hInner]

theorem trend_foldl_assign (os : List OpId) (g : Graph) (n : NodeId) :
    (os.foldl assign g).trend n = g.trend n := by
  induction os generalizing g with
  | nil => rfl
  | cons o os ih =>
    rw [List.foldl_cons, ih, assign]
    split
    · exact trend_setRange _ _ _ n
    · rfl

/-- A trend is frozen once. -/
theorem trend_freeze (comp : List NodeId) (g : Graph) (n : NodeId) (hn : n < g.nodes.size) :
    (g.freeze comp).trend n =
      if n ∈ comp then some ((g.trend n).getD (trendOf (g.range n))) else g.trend n := by
  have hFold (nodes : Array Node) :
      (comp.foldl (fun ns n => ns.modify n (freezeNode g.sentinels)) nodes)[n]? =
        if n ∈ comp then (nodes[n]?).map (freezeNode g.sentinels) else nodes[n]? := by
    induction comp generalizing nodes with
    | nil => rfl
    | cons a comp ih =>
      rw [List.foldl_cons, ih, Array.getElem?_modify]
      by_cases ha : a = n
      · subst ha
        cases nodes[a]? <;> simp [freezeNode]
      · simp [ha, Ne.symm ha]
  unfold freeze trend range range?
  rw [hFold, Array.getElem?_eq_getElem hn]
  split <;> rfl

end Trends

/-! ### Graphs that are not started -/

/-- A graph whose solution is not started: it is wired, and no trend is frozen. -/
structure Unstarted (g : Graph) : Prop where
  wired : Wired g
  started : g.started = false
  solved : g.solved = false
  trend (n : NodeId) : g.trend n = none

theorem Extension.unstarted {p : Program} {D : ValueId → Prop} (h : Extension p D g g')
    (hg : Unstarted g) : Unstarted g' := by
  have hFrame := h.sameFrame
  refine ⟨h.wired hg.wired, hFrame.started.trans hg.started, hFrame.solved.trans hg.solved,
    fun n => ?_⟩
  have hTrend := hg.trend n
  unfold Graph.trend at hTrend ⊢
  cases h with
  | value hOpen hNew =>
    rw [Array.getElem?_push]
    split
    · rfl
    · exact hTrend
  | operation hOpen hSink hDefined hFree hKind =>
    rw [nodes_pushOperation, Option.bind_map]
    exact hTrend
  | sources hOpen hPhi hSources =>
    rw [nodes_extendPhi, Option.bind_map]
    exact hTrend
  | facts branches switches => exact hTrend

/-- Whatever steps a graph is built by, it is not started. -/
theorem Growth.unstarted {p : Program} {D : ValueId → Prop} {s : Sentinels} {o : Options}
    (h : Growth p D (empty s o) g) : Unstarted g := by
  induction h with
  | refl => exact ⟨wired_empty s o, rfl, rfl, fun n => by simp [Graph.trend, empty]⟩
  | tail _ hStep ih => exact hStep.unstarted ih

theorem Built.unstarted {p : Program} (hp : p.Made) (h : Built p g) : Unstarted g := by
  obtain ⟨s, o, hGrow⟩ := h.growth (definable_of_made hp)
  exact hGrow.unstarted

/-- The graph of the loop, which is to be cropped. -/
def looping : Graph := (build Program.counting 0 ⟨.crop, 0, false⟩).2

theorem looping_unstarted : Unstarted looping :=
  Built.unstarted Program.counting_made ⟨⟨.crop, 0, false⟩, .inl ⟨0, rfl⟩⟩

theorem trend_seed (hs : g.started = false) (n : NodeId) : g.seed.trend n = g.trend n := by
  rw [trend, getElem?_seed hs, Option.bind_map]
  rfl

/-! ### Ranges -/

section Queue

variable {pos : Nat} {defs queue : List OpId}

/-- However many turns are taken, they are updates. -/
theorem iterateQueue_updates (m : Meet) (steps : Nat) (hArea : Area g pos defs)
    (h : Queued defs queue) :
    Relation.ReflTransGen (Update m defs) g (iterateQueue m pos steps queue g) := by
  induction steps generalizing queue g with
  | zero => exact .refl
  | succ steps ih =>
    match queue, h with
    | [], _ => exact .refl
    | o :: queue, h =>
      have ho := h.subset List.mem_cons_self
      obtain ⟨op, hOp⟩ : ∃ op, g.ops[o]? = some op :=
        ⟨_, Array.getElem?_eq_getElem ((hArea.mem_iff o).mp ho).1⟩
      simp only [iterateQueue, hOp]
      cases hStep : m.step g.sentinels (g.trend op.sink) (g.range op.sink) (g.eval op) with
      | none => exact ih hArea h.tail
      | some r =>
        have hArea' := hArea.of_shape (shape_setRange g op.sink r)
        exact .head ⟨o, ho, op, r, hOp, hStep, rfl⟩ (ih hArea' (h.tail.enqueue hArea' op.sink))

end Queue

/-- The task solves a component of a graph with well-formed ranges. -/
structure Task.Runs (t : Task) (cs : Components) (g : Graph) : Prop where
  layout : Layout g cs
  regular : Regular g
  mem : cs.members[t.pos]? = some t.comp
  tight : t.meet.Tight

namespace Task.Runs

variable {i : Moment}

theorem turned_updates (ht : t.Runs cs g) (hShape : h.shape = g.shape) (m : Meet) (turns : Nat) :
    Relation.ReflTransGen (Update m (g.definitions t.comp)) h (t.turned g m turns h) := by
  have hArea := (ht.layout.of_shape hShape).area ht.mem
  unfold turned
  split
  · rw [definitions_of_shape hShape] at hArea ⊢
    exact iterateQueue_updates m turns hArea ⟨hArea.nodup, id⟩
  · exact .refl

theorem widens (ht : t.Runs cs g) (turns : Nat) : Relation.ReflTransGen
    (Update .widening (g.definitions t.comp)) (t.discovered g) (t.state g (.widening turns)) :=
  ht.turned_updates (shape_record _ _ _ g) .widening turns

theorem narrows (ht : t.Runs cs g) (turns : Nat) : Relation.ReflTransGen
    (Update t.meet (g.definitions t.comp)) (t.fixed g) (t.state g (.narrowing turns)) :=
  ht.turned_updates (t.shape_fixed g) t.meet turns

theorem range_discovered (t : Task) (g : Graph) (n : NodeId) :
    (t.discovered g).range n = g.range n :=
  (sameState_record _ _ _ g).range n

theorem range_frozen (t : Task) (g : Graph) (n : NodeId) :
    (t.frozen g).range n = (t.widened g).range n :=
  ((sameState_record _ _ _ _).range n).trans (range_freeze _ _ n)

theorem range_resolveBounds (test : Graph → OpId → Bool) (comp : List NodeId) (g : Graph)
    (n : NodeId) : (g.resolveBounds test comp).range n = g.range n :=
  range_of_nodes (nodes_resolveBounds test comp g)
    (sentinels_of_shape (shape_resolveBounds test comp g)) n

theorem range_fixed (t : Task) (g : Graph) (n : NodeId) :
    (t.fixed g).range n = (t.widened g).range n := by
  rw [← range_frozen]
  exact ((sameState_record _ _ _ _).range n).trans (range_resolveBounds _ _ _ n)

theorem regular_of_range (hr : Regular g) (hShape : g'.shape = g.shape)
    (hRange : ∀ n, g'.range n = g.range n) : Regular g' := by
  refine ⟨fun n => ?_⟩
  rw [hRange, sentinels_of_shape hShape]
  exact hr.range n

theorem regular_discovered (ht : t.Runs cs g) : Regular (t.discovered g) :=
  (sameState_record _ _ _ g).regular ht.regular

theorem regular_widening (ht : t.Runs cs g) (turns : Nat) :
    Regular (t.state g (.widening turns)) :=
  updates_regular lawful_widening (ht.widens turns) ht.regular_discovered

theorem regular_fixed (ht : t.Runs cs g) : Regular (t.fixed g) := by
  refine regular_of_range (g := t.widened g) (ht.regular_widening _) ?_ (range_fixed t g)
  exact (t.shape_fixed g).trans (t.shape_state g (.widening _)).symm

theorem regular_narrowing (ht : t.Runs cs g) (turns : Nat) :
    Regular (t.state g (.narrowing turns)) :=
  updates_regular ht.tight.toLawful (ht.narrows turns) ht.regular_fixed

/-- The state before propagation has the ranges of the last turn of narrowing. -/
theorem range_narrowed (t : Task) (g : Graph) (n : NodeId) : (t.narrowed g).range n =
    (t.iterated g t.meet (t.fixed g)).range n :=
  (sameState_record _ _ _ _).range n

theorem regular_resolved (ht : t.Runs cs g) : Regular (t.resolved g) := by
  refine regular_of_range (g := t.iterated g t.meet (t.fixed g)) (ht.regular_narrowing _) ?_
    fun n => ?_
  · rw [resolved, shape_resolveBounds, narrowed, shape_record]
  · rw [resolved, range_resolveBounds, range_narrowed]

/-- Whatever part of the fed operations is evaluated, the solved components keep their ranges. -/
theorem assigned_propagating (ht : t.Runs cs g) (evaluations : Nat) : Assigned
    (((t.narrowed g).fed t.pos t.comp).take evaluations) (t.resolved g)
    (t.state g (.propagating evaluations)) := by
  have hShape : (t.resolved g).shape = g.shape := by
    rw [resolved, shape_resolveBounds, shape_narrowed]
  have hLayout := ht.layout.of_shape (t.shape_narrowed g)
  refine assigned_foldl (ht.layout.of_shape hShape).wired ht.regular_resolved _ fun o ho => ?_
  obtain ⟨op, hOp, -⟩ := (hLayout.mem_fed ht.mem o).mp (List.mem_of_mem_take ho)
  rw [ops_size_of_shape (hShape.trans (t.shape_narrowed g).symm)]
  exact (Array.getElem?_eq_some_iff.mp hOp).1

theorem range_propagating (ht : t.Runs cs g) (hn : cs.number n ≤ t.pos) (evaluations : Nat) :
    (t.state g (.propagating evaluations)).range n = (t.narrowed g).range n := by
  have hLayout := ht.layout.of_shape (t.shape_narrowed g)
  refine ((ht.assigned_propagating evaluations).kept fun o ho => ?_).trans ?_
  · obtain ⟨op, hOp, hLt, -⟩ := (hLayout.mem_fed ht.mem o).mp (List.mem_of_mem_take ho)
    rw [resolved, sink_of_shape (shape_resolveBounds _ _ _), sink_eq hOp]
    rintro rfl
    exact Nat.not_lt.mpr hn hLt
  · rw [resolved, range_resolveBounds]

/-- Propagation ends when all fed operations are evaluated. -/
theorem propagated_eq (t : Task) (g : Graph) : t.propagated g =
    (t.state g (.propagating ((t.narrowed g).fed t.pos t.comp).length)).record t.pos t.comp
      .propagated := by
  rw [propagated, propagate_eq, state, List.take_length]
  rfl

theorem sameState_propagated (t : Task) (g : Graph) : SameState
    (t.state g (.propagating ((t.narrowed g).fed t.pos t.comp).length)) (t.propagated g) := by
  rw [propagated_eq]
  exact sameState_record _ _ _ _

theorem regular_propagated (ht : t.Runs cs g) : Regular (t.propagated g) :=
  (sameState_propagated t g).regular (ht.assigned_propagating _).regular

theorem range_outside {m : Meet} {g' : Graph} (ht : t.Runs cs g) (hShape : h.shape = g.shape)
    (hn : n ∉ t.comp)
    (hRun : Relation.ReflTransGen (Update m (g.definitions t.comp)) h g') :
    g'.range n = h.range n := by
  refine updates_range hRun fun o ho => ?_
  rw [sink_of_shape hShape]
  exact ht.layout.sink_ne ho hn

/-- At every moment the components that are solved before keep their ranges. -/
theorem range_state (ht : t.Runs cs g) (hn : cs.number n < t.pos) (i : Moment) :
    (t.state g i).range n = g.range n := by
  have hOut : n ∉ t.comp := fun hMem =>
    Nat.ne_of_lt hn ((ht.layout.mem_iff ht.mem n).mp hMem).2
  have hWidened (turns : Nat) : (t.state g (.widening turns)).range n = g.range n :=
    (ht.range_outside (shape_record _ _ _ g) hOut (ht.widens turns)).trans (range_discovered t g n)
  have hFixed : (t.fixed g).range n = g.range n := (range_fixed t g n).trans (hWidened _)
  have hNarrowed (turns : Nat) : (t.state g (.narrowing turns)).range n = g.range n :=
    (ht.range_outside (t.shape_fixed g) hOut (ht.narrows turns)).trans hFixed
  cases i with
  | widening turns => exact hWidened turns
  | frozen => exact (range_frozen t g n).trans (hWidened _)
  | narrowing turns => exact hNarrowed turns
  | propagating evaluations =>
    rw [ht.range_propagating (Nat.le_of_lt hn), range_narrowed]
    exact hNarrowed _

end Task.Runs

section Before

variable (hLayout : Layout b cs) (hRegular : Regular b) (hm : m.Tight)
include hLayout hRegular hm

theorem regular_before (hk : k ≤ cs.members.size) : Regular (before m cs b k) := by
  induction k with
  | zero => exact hRegular
  | succ k ih =>
    have hc := taskOf_eq m (Array.getElem?_eq_getElem hk)
    have ht : (taskOf m cs k).Runs cs (before m cs b k) := by
      refine ⟨hLayout.of_shape (shape_before m cs b k), ih (Nat.le_of_succ_le hk), ?_, hm⟩
      rw [hc]
      exact Array.getElem?_eq_getElem hk
    exact ht.regular_propagated

/-- Each component is solved in a state that is well formed. -/
theorem runs_before (hk : k < cs.members.size) : (taskOf m cs k).Runs cs (before m cs b k) := by
  refine ⟨hLayout.of_shape (shape_before m cs b k),
    regular_before hLayout hRegular hm (Nat.le_of_lt hk), ?_, hm⟩
  rw [taskOf_eq m (Array.getElem?_eq_getElem hk)]
  exact Array.getElem?_eq_getElem hk

/-- Once its component is solved, a node keeps its range. -/
theorem range_before {k' : Nat} (hn : cs.number n < k) (hle : k ≤ k')
    (hk' : k' ≤ cs.members.size) : (before m cs b k').range n = (before m cs b k).range n := by
  induction k', hle using Nat.le_induction with
  | base => rfl
  | succ k' hle ih =>
    have ht := runs_before hLayout hRegular hm hk'
    have hLt : cs.number n < (taskOf m cs k').pos := Nat.lt_of_lt_of_le hn hle
    rw [← ih (Nat.le_of_succ_le hk'), ← ht.range_state hLt (.propagating _)]
    exact (Task.Runs.sameState_propagated _ _).range n

end Before

end ValueRange.Graph
