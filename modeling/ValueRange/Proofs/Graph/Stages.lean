import ValueRange.Proofs.Graph.Components
import ValueRange.Proofs.Graph.Iteration

/-! Solving one component after the other. At every stage the ranges of the components that are
solved are final, and an operation of another component whose sources are all solved has been
evaluated into its sink. -/

namespace ValueRange.Graph

open Range

variable {g g' : Graph} {cs : Components} {pos : Nat} {comp : List NodeId} {m : Meet}

/-! ### Layout -/

/-- The graph is wired and its components are known. -/
structure Layout (g : Graph) (cs : Components) : Prop where
  wired : Wired g
  components : g.components = some cs
  arranged : Arranged g.successors g.nodes.size cs

namespace Layout

variable {o : OpId} {op : Operation} {n : NodeId}

theorem of_shape (h : g'.shape = g.shape) (hg : Layout g cs) : Layout g' cs := by
  have hSuccessors : g'.successors = g.successors := by
    funext n
    rw [successors, successors, uses_of_shape h, bounds_of_shape h]
    exact List.map_congr_left fun o _ => sink_of_shape h o
  refine ⟨hg.wired.of_shape h, (components_of_shape h).trans hg.components, ?_⟩
  rw [hSuccessors, size_of_shape h]
  exact hg.arranged

/-- What an operation reads, or is bounded by, is solved no later than its sink. -/
theorem number_le (hg : Layout g cs) (ho : g.ops[o]? = some op)
    (hn : n ∈ op.kind.operands ∨ ∃ c, op.kind.bound? = some (n, c)) :
    cs.number n ≤ cs.number op.sink := by
  refine hg.arranged.ordered ?_ ((hg.wired.mem_successors n _).mpr ⟨o, op, ho, rfl, hn⟩)
  rcases hn with hn | ⟨c, hb⟩
  · exact hg.wired.operand_lt ho hn
  · exact hg.wired.bound_lt ho hb

theorem mem_iff (hg : Layout g cs) (hc : cs.members[pos]? = some comp) (n : NodeId) :
    n ∈ comp ↔ n < g.nodes.size ∧ cs.number n = pos := by
  constructor
  · exact fun hn => ⟨hg.arranged.lt_of_mem hc hn, hg.arranged.number_eq hc hn⟩
  · rintro ⟨hn, rfl⟩
    obtain ⟨c, hc', hn⟩ := hg.arranged.exists_component hn
    rw [hc] at hc'
    cases hc'
    exact hn

theorem number_lt (hg : Layout g cs) (hn : n < g.nodes.size) : cs.number n < cs.members.size := by
  obtain ⟨c, hc, -⟩ := hg.arranged.exists_component hn
  exact (Array.getElem?_eq_some_iff.mp hc).1

theorem inside_iff (hg : Layout g cs) (ho : g.ops[o]? = some op) :
    g.inside pos o = true ↔ cs.number op.sink = pos := by
  unfold inside
  rw [hg.components, sink_eq ho]
  exact beq_iff_eq

theorem nodup_comp (hg : Layout g cs) (hc : cs.members[pos]? = some comp) : comp.Nodup := by
  have hNodup := hg.arranged.perm.nodup_iff.mpr List.nodup_range
  rw [← Array.getElem?_toList] at hc
  exact (List.nodup_flatten.mp hNodup).1 comp (List.mem_of_getElem? hc)

theorem mem_definitions (hg : Layout g cs) (o : OpId) :
    o ∈ g.definitions comp ↔ ∃ op, g.ops[o]? = some op ∧ op.sink ∈ comp := by
  simp only [definitions, List.mem_filterMap, hg.wired.definition_iff]
  constructor
  · rintro ⟨n, hn, op, ho, rfl⟩
    exact ⟨op, ho, hn⟩
  · rintro ⟨op, ho, hn⟩
    exact ⟨_, hn, op, ho, rfl⟩

/-- The operations that define the nodes of a list define no others. -/
theorem sink_ne (hg : Layout g cs) (ho : o ∈ g.definitions comp) (hn : n ∉ comp) : g.sink o ≠ n := by
  obtain ⟨op, hOp, hMem⟩ := (hg.mem_definitions o).mp ho
  rw [sink_eq hOp]
  exact ne_of_mem_of_not_mem hMem hn

theorem area (hg : Layout g cs) (hc : cs.members[pos]? = some comp) :
    Area g pos (g.definitions comp) := by
  refine ⟨hg.wired, ?_, fun o => ?_⟩
  · refine (hg.nodup_comp hc).filterMap fun n n' o hn hn' => ?_
    obtain ⟨op, ho, rfl⟩ := (hg.wired.definition_iff n o).mp hn
    obtain ⟨op', ho', rfl⟩ := (hg.wired.definition_iff n' o).mp hn'
    cases ho.symm.trans ho'
    rfl
  · rw [hg.mem_definitions]
    constructor
    · rintro ⟨op, ho, hn⟩
      exact ⟨(Array.getElem?_eq_some_iff.mp ho).1,
        (hg.inside_iff ho).mpr ((hg.mem_iff hc _).mp hn).2⟩
    · rintro ⟨ho, hIn⟩
      have hOp := Array.getElem?_eq_getElem ho
      exact ⟨_, hOp, (hg.mem_iff hc _).mpr ⟨hg.wired.sink_lt hOp, (hg.inside_iff hOp).mp hIn⟩⟩

end Layout

/-! ### Propagation -/

section Propagation

theorem assign_eq {o : OpId} {op : Operation} (ho : g.ops[o]? = some op) :
    g.assign o = g.setRange op.sink (g.eval op) := by
  unfold assign
  rw [ho]

/-- What a pass of evaluations leaves: nodes that are no sinks keep their ranges, and the range of a
sink was computed from sources of which those that are no sinks had the ranges they have now. -/
structure Assigned (os : List OpId) (g g' : Graph) : Prop where
  shape : g'.shape = g.shape
  ops : g'.ops = g.ops
  regular : Regular g'
  kept {n : NodeId} : (∀ o ∈ os, g.sink o ≠ n) → g'.range n = g.range n
  computed {o : OpId} {op : Operation} : o ∈ os → g.ops[o]? = some op →
    ∃ h : Graph, h.shape = g.shape ∧ Regular h ∧
      (∀ n, (∀ o ∈ os, g.sink o ≠ n) → h.range n = g.range n) ∧ g'.range op.sink = h.eval op

theorem assigned_foldl (hw : Wired g) (hg : Regular g) (os : List OpId)
    (hos : ∀ o ∈ os, o < g.ops.size) : Assigned os g (os.foldl assign g) := by
  induction os using List.reverseRecOn with
  | nil => exact ⟨rfl, rfl, hg, fun _ => rfl, nofun⟩
  | append_singleton os k ih =>
    have h := ih fun o ho => hos o (List.mem_append_left _ ho)
    rw [List.foldl_append, List.foldl_cons, List.foldl_nil]
    generalize os.foldl assign g = g₁ at h
    have hk : k < g.ops.size := hos k (List.mem_append_right _ (List.mem_singleton_self k))
    obtain ⟨opk, hOpk⟩ : ∃ op, g.ops[k]? = some op := ⟨_, Array.getElem?_eq_getElem hk⟩
    have hOpk₁ : g₁.ops[k]? = some opk := h.ops ▸ hOpk
    have hSinkLt : opk.sink < g₁.nodes.size := (hw.of_shape h.shape).sink_lt hOpk₁
    rw [assign_eq hOpk₁]
    have hFront {n : NodeId} (hn : ∀ o ∈ os ++ [k], g.sink o ≠ n) :
        (∀ o ∈ os, g.sink o ≠ n) ∧ n ≠ opk.sink := by
      refine ⟨fun o ho => hn o (List.mem_append_left _ ho), fun he => ?_⟩
      exact hn k (List.mem_append_right _ (List.mem_singleton_self k)) ((sink_eq hOpk).trans he.symm)
    refine ⟨(shape_setRange _ _ _).trans h.shape, h.ops, h.regular.setRange _ (h.regular.eval opk),
      fun hn => ?_, fun {o op} ho hOp => ?_⟩
    · rw [range_setRange_of_ne _ _ (hFront hn).2, h.kept (hFront hn).1]
    · by_cases hok : o = k
      · subst hok
        cases hOp.symm.trans hOpk
        refine ⟨g₁, h.shape, h.regular, fun n hn => h.kept (hFront hn).1, ?_⟩
        rw [range_setRange hSinkLt, if_pos rfl]
      · have hMem : o ∈ os :=
          (List.mem_append.mp ho).resolve_right fun hk => hok (List.mem_singleton.mp hk)
        obtain ⟨h₁, hShape, hRegular, hKept, hRange⟩ := h.computed hMem hOp
        refine ⟨h₁, hShape, hRegular, fun n hn => hKept n (hFront hn).1, ?_⟩
        rw [range_setRange_of_ne _ _ fun hSame => hok (hw.eq_of_sink hOp hOpk hSame)]
        exact hRange

/-- The operations of other components that read nodes of a component or are bounded by them. -/
def fed (g : Graph) (pos : Nat) (comp : List NodeId) : List OpId :=
  (comp.flatMap fun n => g.uses n ++ g.bounds n).filter fun o => !g.inside pos o

theorem propagate_eq (pos : Nat) (comp : List NodeId) (g : Graph) :
    g.propagate pos comp = (g.fed pos comp).foldl assign
      (g.resolveBounds (fun g o => !g.inside pos o) comp) := by
  have hShape := shape_resolveBounds (fun g o => !g.inside pos o) comp g
  have hPairs := foldl_pairs (fun g n => g.uses n ++ g.bounds n)
    (fun g p => if !g.inside pos p.2 then g.assign p.2 else g)
    (fun h => funext fun n => by rw [uses_of_shape h, bounds_of_shape h])
    (fun g p => by split <;> first | exact shape_assign g p.2 | rfl) comp
    (g.resolveBounds (fun g o => !g.inside pos o) comp)
  refine hPairs.trans ?_
  rw [foldl_filter (fun g (p : NodeId × OpId) => !g.inside pos p.2) (fun g p => g.assign p.2)
    (fun h => by rw [inside_of_shape h]) fun g p => shape_assign g p.2]
  rw [inside_of_shape hShape, fed, ← List.foldl_map (f := Prod.snd) (g := assign)]
  congr 1
  refine (List.filter_map (f := Prod.snd) (p := fun o => !g.inside pos o)).symm.trans ?_
  rw [List.map_flatMap]
  refine congrArg (List.filter _) (List.flatMap_congr fun n _ => ?_)
  rw [uses_of_shape hShape, bounds_of_shape hShape, List.map_map]
  exact List.map_id _

theorem Layout.mem_fed (hg : Layout g cs) (hc : cs.members[pos]? = some comp) (o : OpId) :
    o ∈ g.fed pos comp ↔ ∃ op, g.ops[o]? = some op ∧ pos < cs.number op.sink ∧
      ∃ n ∈ comp, n ∈ op.kind.operands ∨ ∃ c, op.kind.bound? = some (n, c) := by
  simp only [fed, List.mem_filter, List.mem_flatMap, List.mem_append, hg.wired.mem_uses,
    hg.wired.mem_bounds, Bool.not_eq_true']
  constructor
  · rintro ⟨⟨n, hn, hUse⟩, hOut⟩
    obtain ⟨op, ho, hReads⟩ : ∃ op, g.ops[o]? = some op ∧
        (n ∈ op.kind.operands ∨ ∃ c, op.kind.bound? = some (n, c)) := by
      rcases hUse with ⟨op, ho, hReads⟩ | ⟨op, c, ho, hb⟩
      · exact ⟨op, ho, .inl hReads⟩
      · exact ⟨op, ho, .inr ⟨c, hb⟩⟩
    refine ⟨op, ho, ?_, n, hn, hReads⟩
    have hle := hg.number_le ho hReads
    rw [((hg.mem_iff hc n).mp hn).2] at hle
    refine Nat.lt_of_le_of_ne hle fun hEq => ?_
    rw [(hg.inside_iff ho).mpr hEq.symm] at hOut
    cases hOut
  · rintro ⟨op, ho, hLt, n, hn, hReads⟩
    refine ⟨⟨n, hn, ?_⟩, ?_⟩
    · rcases hReads with hReads | ⟨c, hb⟩
      · exact .inl ⟨op, ho, hReads⟩
      · exact .inr ⟨op, c, ho, hb⟩
    · rw [← Bool.not_eq_true, hg.inside_iff ho]
      exact Nat.ne_of_gt hLt

theorem Assigned.sameState {os : List OpId} {g'' : Graph} (h : Assigned os g g')
    (h' : SameState g' g'') : Assigned os g g'' := by
  refine ⟨h'.shape.trans h.shape, h'.ops.trans h.ops, h'.regular h.regular,
    fun hn => (h'.range _).trans (h.kept hn), fun {o op} ho hOp => ?_⟩
  obtain ⟨h₁, hShape, hRegular, hKept, hRange⟩ := h.computed ho hOp
  exact ⟨h₁, hShape, hRegular, hKept, (h'.range _).trans hRange⟩

end Propagation

/-! ### One component -/

section Component

/-- The states that a component goes through: it is widened, its bounds are resolved, it is narrowed,
and what depends on it is evaluated. Without an entry it is neither widened nor narrowed. -/
structure Solving (m : Meet) (pos : Nat) (comp : List NodeId) (g g₁ g₂ g₃ g₄ : Graph) : Prop where
  widened : if g.hasEntry comp then
      Relation.ReflTransGen (Update .widening (g.definitions comp)) g g₁ ∧
        ∀ o ∈ g.definitions comp, Quiet .widening g₁ o
    else g₁ = g
  resolved : Resolved g₁ g₂ fun b _ => b ∈ comp
  narrowed : if g.hasEntry comp then
      Relation.ReflTransGen (Update m (g.definitions comp)) g₂ g₃
    else g₃ = g₂
  propagated : ∃ g', Resolved g₃ g' (fun b o => b ∈ comp ∧ g.inside pos o = false) ∧
    Assigned (g.fed pos comp) g' g₄

theorem updates_shape {defs : List OpId} (h : Relation.ReflTransGen (Update m defs) g g') :
    g'.shape = g.shape := by
  induction h with
  | refl => rfl
  | tail _ hStep ih => exact hStep.shape.trans ih

theorem updates_ops {defs : List OpId} (h : Relation.ReflTransGen (Update m defs) g g') :
    g'.ops = g.ops := by
  induction h with
  | refl => rfl
  | tail _ hStep ih => exact hStep.ops.trans ih

theorem updates_regular {defs : List OpId} (hm : m.Lawful)
    (h : Relation.ReflTransGen (Update m defs) g g') (hg : Regular g) : Regular g' := by
  induction h with
  | refl => exact hg
  | tail _ hStep ih => exact hStep.regular hm ih

theorem fed_of_shape (h : g'.shape = g.shape) (pos : Nat) (comp : List NodeId) :
    g'.fed pos comp = g.fed pos comp := by
  unfold fed
  rw [inside_of_shape h]
  congr 1
  refine List.flatMap_congr fun n _ => ?_
  rw [uses_of_shape h, bounds_of_shape h]

theorem definitions_of_shape (h : g'.shape = g.shape) (comp : List NodeId) :
    g'.definitions comp = g.definitions comp :=
  List.filterMap_congr fun n _ => definition_of_shape h n

theorem Layout.resolved (hg : Layout g cs) (test : Graph → OpId → Bool)
    (hTest : ∀ {g g' : Graph}, g'.shape = g.shape → test g' = test g) (comp : List NodeId) :
    Resolved g (g.resolveBounds test comp) fun b o => b ∈ comp ∧ test g o = true := by
  have h := resolved_resolveBounds hg.wired.toLinked hTest comp
  refine ⟨h.shape, h.range, fun {o op b c} ho hc hPick => ?_, fun ho hMiss => ?_⟩
  · exact h.hit ho hc ⟨hPick.1, (hg.wired.mem_bounds b o).mpr ⟨op, c, ho, hc⟩, hPick.2⟩
  · exact h.miss ho fun b c hc hPick => hMiss b c hc ⟨hPick.1, hPick.2.2⟩

/-- The bounds of a component are resolved after its trends are frozen. -/
theorem Layout.resolved_freeze (hg : Layout g cs) (pos : Nat) (comp : List NodeId) :
    Resolved g ((((g.freeze comp).record pos comp .widened).resolveBounds (fun _ _ => true)
      comp).record pos comp .intersectsFixed) fun b _ => b ∈ comp := by
  have hBefore := (sameState_freeze comp g).trans (sameState_record pos comp .widened (g.freeze comp))
  have h := (hg.of_shape hBefore.shape).resolved (fun _ _ => true) (fun _ => rfl) comp
  exact (hBefore.resolved h (sameState_record pos comp .intersectsFixed _)).congr (by simp)

/-- What depends on a component is evaluated after its bounds are resolved outside. -/
theorem Layout.propagated (hg : Layout g cs) (hr : Regular g)
    (hc : cs.members[pos]? = some comp) : ∃ g',
    Resolved g g' (fun b o => b ∈ comp ∧ g.inside pos o = false) ∧
      Assigned (g.fed pos comp) g' (((g.record pos comp .narrowed).propagate pos comp).record pos
        comp .propagated) := by
  have hBefore := sameState_record pos comp .narrowed g
  have hLayout := hg.of_shape hBefore.shape
  have hResolved := hLayout.resolved (fun g o => !g.inside pos o)
    (fun h => funext fun o => by rw [inside_of_shape h]) comp
  have hLayout' := hLayout.of_shape hResolved.shape
  have hRegular := hResolved.regular (hBefore.regular hr)
  rw [propagate_eq]
  refine ⟨_, (hBefore.resolved hResolved ⟨rfl, fun _ => rfl, rfl⟩).congr fun b o => ?_, ?_⟩
  · rw [inside_of_shape hBefore.shape, Bool.not_eq_true']
  · rw [fed_of_shape hBefore.shape]
    refine Assigned.sameState ?_ (sameState_record pos comp .propagated _)
    refine assigned_foldl hLayout'.wired hRegular _ fun o ho => ?_
    obtain ⟨op, hOp, -⟩ := (hg.mem_fed hc o).mp ho
    rw [ops_size_of_shape (hResolved.shape.trans hBefore.shape)]
    exact (Array.getElem?_eq_some_iff.mp hOp).1

/-- A component is solved without fail. -/
theorem solveComponent_run (hm : m.Lawful) (hMeet : meetOf g.narrowing = .ok m) (hg : Layout g cs)
    (hr : Regular g) (hc : cs.members[pos]? = some comp) :
    ∃ g₀ g₁ g₂ g₃ g₄, SameState g g₀ ∧ Solving m pos comp g₀ g₁ g₂ g₃ g₄ ∧
      (solveComponent pos comp).run.run g = (.ok (), g₄) := by
  have hFirst := sameState_record pos comp .discovered g
  unfold solveComponent
  rw [run_modify_bind]
  generalize g.record pos comp .discovered = g₀ at hFirst ⊢
  replace hg := hg.of_shape hFirst.shape
  replace hr := hFirst.regular hr
  have hArea := hg.area hc
  cases hEntry : g₀.hasEntry comp with
  | true =>
    obtain ⟨hWiden, hQuiet⟩ := iterate_spec lawful_widening hArea hr
    have hShape₁ := updates_shape hWiden
    have hResolved := (hg.of_shape hShape₁).resolved_freeze pos comp
    have hRegular := hResolved.regular (updates_regular lawful_widening hWiden hr)
    have hShape₂ := hResolved.shape.trans hShape₁
    obtain ⟨hNarrow, -⟩ := iterate_spec hm (hArea.of_shape hShape₂) hRegular
    have hShape₃ := (updates_shape hNarrow).trans hShape₂
    obtain ⟨g', hOutside, hAssigned⟩ := (hg.of_shape hShape₃).propagated
      (updates_regular hm hNarrow hRegular) hc
    have hMeet' := hMeet
    rw [← narrowing_of_shape (hShape₂.trans hFirst.shape)] at hMeet'
    simp only [↓run_get_bind, run_bind, run_modify, hEntry, if_true, run_lift, hMeet']
    rw [inside_of_shape hShape₃] at hOutside
    rw [fed_of_shape hShape₃] at hAssigned
    refine ⟨g₀, _, _, _, _, hFirst, ⟨?_, hResolved, ?_, g', hOutside, hAssigned⟩, rfl⟩
    · rw [hEntry, if_pos rfl]
      exact ⟨hWiden, hQuiet⟩
    · rw [hEntry, if_pos rfl]
      exact hNarrow
  | false =>
    have hResolved := hg.resolved_freeze pos comp
    obtain ⟨g', hOutside, hAssigned⟩ := (hg.of_shape hResolved.shape).propagated
      (hResolved.regular hr) hc
    simp only [↓run_get_bind, run_bind, run_modify, hEntry, Bool.false_eq_true, if_false]
    rw [inside_of_shape hResolved.shape] at hOutside
    rw [fed_of_shape hResolved.shape] at hAssigned
    refine ⟨g₀, _, _, _, _, hFirst, ⟨?_, hResolved, ?_, g', hOutside, hAssigned⟩, rfl⟩
    · rw [hEntry, if_neg nofun]
    · rw [hEntry, if_neg nofun]

/-- Updates leave a node alone that none of the operations defines. -/
theorem updates_node {defs : List OpId} {n : NodeId}
    (h : Relation.ReflTransGen (Update m defs) g g') (hn : ∀ o ∈ defs, g.sink o ≠ n) :
    g'.nodes[n]? = g.nodes[n]? := by
  induction h with
  | refl => rfl
  | @tail g₁ g₂ hRun hStep ih =>
    obtain ⟨o, ho, op, r, hOp, -, rfl⟩ := hStep
    have hSink : op.sink ≠ n := by
      rw [← sink_eq hOp, sink_of_shape (updates_shape hRun)]
      exact hn o ho
    rw [setRange, Array.getElem?_modify, if_neg hSink, ih]

theorem updates_range {defs : List OpId} {n : NodeId}
    (h : Relation.ReflTransGen (Update m defs) g g') (hn : ∀ o ∈ defs, g.sink o ≠ n) :
    g'.range n = g.range n := by
  rw [range, range, range?, range?, updates_node h hn, sentinels_of_shape (updates_shape h)]

namespace Solving

variable {g₁ g₂ g₃ g₄ : Graph} {o : OpId} {op : Operation} {n : NodeId}

/-- Whether or not the component has an entry, its first phase takes updates. -/
theorem widens (h : Solving m pos comp g g₁ g₂ g₃ g₄) :
    Relation.ReflTransGen (Update .widening (g.definitions comp)) g g₁ := by
  have hPhase := h.widened
  split at hPhase
  · exact hPhase.1
  · rw [hPhase]

theorem narrows (h : Solving m pos comp g g₁ g₂ g₃ g₄) :
    Relation.ReflTransGen (Update m (g.definitions comp)) g₂ g₃ := by
  have hPhase := h.narrowed
  split at hPhase
  · exact hPhase
  · rw [hPhase]

theorem shape₁ (h : Solving m pos comp g g₁ g₂ g₃ g₄) : g₁.shape = g.shape :=
  updates_shape h.widens

theorem shape₂ (h : Solving m pos comp g g₁ g₂ g₃ g₄) : g₂.shape = g.shape :=
  h.resolved.shape.trans h.shape₁

theorem shape₃ (h : Solving m pos comp g g₁ g₂ g₃ g₄) : g₃.shape = g.shape :=
  (updates_shape h.narrows).trans h.shape₂

theorem shape₄ (h : Solving m pos comp g g₁ g₂ g₃ g₄) : g₄.shape = g.shape := by
  obtain ⟨g', hResolved, hAssigned⟩ := h.propagated
  exact hAssigned.shape.trans (hResolved.shape.trans h.shape₃)

theorem regular₁ (h : Solving m pos comp g g₁ g₂ g₃ g₄) (hr : Regular g) : Regular g₁ :=
  updates_regular lawful_widening h.widens hr

theorem regular₂ (h : Solving m pos comp g g₁ g₂ g₃ g₄) (hr : Regular g) : Regular g₂ :=
  h.resolved.regular (h.regular₁ hr)

theorem regular₃ (hm : m.Lawful) (h : Solving m pos comp g g₁ g₂ g₃ g₄) (hr : Regular g) :
    Regular g₃ :=
  updates_regular hm h.narrows (h.regular₂ hr)

theorem regular₄ (h : Solving m pos comp g g₁ g₂ g₃ g₄) : Regular g₄ := by
  obtain ⟨g', -, hAssigned⟩ := h.propagated
  exact hAssigned.regular

/-- Until it is propagated, solving a component changes no range outside of it. -/
theorem range_outside (h : Solving m pos comp g g₁ g₂ g₃ g₄) (hg : Layout g cs) (hn : n ∉ comp) :
    g₁.range n = g.range n ∧ g₂.range n = g.range n ∧ g₃.range n = g.range n := by
  have hSink {g' : Graph} (hShape : g'.shape = g.shape) (o : OpId) (ho : o ∈ g.definitions comp) :
      g'.sink o ≠ n := by
    rw [sink_of_shape hShape]
    exact hg.sink_ne ho hn
  have h₁ := updates_range h.widens (hSink rfl)
  have h₂ := (h.resolved.range n).trans h₁
  exact ⟨h₁, h₂, (updates_range h.narrows (hSink h.shape₂)).trans h₂⟩

/-- An operation that is not bounded by the component stays as it is. -/
theorem op_unbounded (h : Solving m pos comp g g₁ g₂ g₃ g₄) (ho : g.ops[o]? = some op)
    (hb : ∀ b c, op.kind.bound? = some (b, c) → b ∉ comp) :
    g₁.ops[o]? = some op ∧ g₂.ops[o]? = some op ∧ g₃.ops[o]? = some op ∧
      g₄.ops[o]? = some op := by
  have h₁ : g₁.ops[o]? = some op := updates_ops h.widens ▸ ho
  have h₂ := h.resolved.miss h₁ hb
  have h₃ : g₃.ops[o]? = some op := updates_ops h.narrows ▸ h₂
  obtain ⟨g', hResolved, hAssigned⟩ := h.propagated
  have h₄ := hResolved.miss h₃ fun b c hc hPick => hb b c hc hPick.1
  exact ⟨h₁, h₂, h₃, hAssigned.ops ▸ h₄⟩

/-- An operation that is not bounded by the component was there before. -/
theorem op_old (h : Solving m pos comp g g₁ g₂ g₃ g₄) (ho : g₄.ops[o]? = some op)
    (hb : ∀ b c, op.kind.bound? = some (b, c) → b ∉ comp) : g.ops[o]? = some op := by
  obtain ⟨old, hOld, -, hKind⟩ := op_of_shape h.shape₄ ho
  have hSame := (h.op_unbounded hOld (hKind ▸ hb)).2.2.2
  cases ho.symm.trans hSame
  exact hOld

/-- Propagation changes only ranges of nodes that the component feeds. -/
theorem range_propagated (h : Solving m pos comp g g₁ g₂ g₃ g₄)
    (hn : ∀ o ∈ g.fed pos comp, g.sink o ≠ n) : g₄.range n = g₃.range n := by
  obtain ⟨g', hResolved, hAssigned⟩ := h.propagated
  refine (hAssigned.kept fun o ho => ?_).trans (hResolved.range n)
  rw [sink_of_shape (hResolved.shape.trans h.shape₃)]
  exact hn o ho

/-- What the component feeds is solved later. -/
theorem range_solved (h : Solving m pos comp g g₁ g₂ g₃ g₄) (hg : Layout g cs)
    (hc : cs.members[pos]? = some comp) (hn : cs.number n ≤ pos) : g₄.range n = g₃.range n := by
  refine h.range_propagated fun o ho => ?_
  obtain ⟨op, hOp, hLt, -⟩ := (hg.mem_fed hc o).mp ho
  rw [sink_eq hOp]
  rintro rfl
  exact Nat.not_lt.mpr hn hLt

/-- A node without a definition keeps its range. -/
theorem range_undefined (h : Solving m pos comp g g₁ g₂ g₃ g₄) (hg : Layout g cs)
    (hc : cs.members[pos]? = some comp) (hn : g.definition n = none) :
    g₁.range n = g.range n ∧ g₃.range n = g.range n ∧ g₄.range n = g.range n := by
  have hSink {g' : Graph} (hShape : g'.shape = g.shape) {o : OpId}
      (ho : ∃ op, g.ops[o]? = some op) : g'.sink o ≠ n := by
    obtain ⟨op, hOp⟩ := ho
    rw [sink_of_shape hShape, sink_eq hOp]
    rintro rfl
    rw [(hg.wired.definition_iff op.sink o).mpr ⟨op, hOp, rfl⟩] at hn
    cases hn
  have hDefs {o : OpId} (ho : o ∈ g.definitions comp) : ∃ op, g.ops[o]? = some op := by
    obtain ⟨op, hOp, -⟩ := (hg.mem_definitions o).mp ho
    exact ⟨op, hOp⟩
  have h₁ := updates_range h.widens fun o ho => hSink rfl (hDefs ho)
  have h₂ := (h.resolved.range n).trans h₁
  have h₃ := (updates_range h.narrows fun o ho => hSink h.shape₂ (hDefs ho)).trans h₂
  refine ⟨h₁, h₃, (h.range_propagated fun o ho => ?_).trans h₃⟩
  obtain ⟨op, hOp, -⟩ := (hg.mem_fed hc o).mp ho
  exact hSink rfl ⟨op, hOp⟩

/-- A component with an entry is widened until it holds what its operations evaluate to. -/
theorem eval_subset (h : Solving m pos comp g g₁ g₂ g₃ g₄) (hg : Layout g cs) (hr : Regular g)
    (hc : cs.members[pos]? = some comp) (hEntry : g.hasEntry comp = true)
    (ho : g₁.ops[o]? = some op) (hn : cs.number op.sink = pos) :
    g₁.eval op ⊆ g₁.range op.sink := by
  have hLayout := hg.of_shape h.shape₁
  have hRegular := h.regular₁ hr
  have hDef : o ∈ g.definitions comp := by
    rw [← definitions_of_shape h.shape₁, hLayout.mem_definitions]
    exact ⟨op, ho, (hLayout.mem_iff hc op.sink).mpr ⟨hLayout.wired.sink_lt ho, hn⟩⟩
  have hWidened := h.widened
  rw [if_pos hEntry] at hWidened
  exact (hWidened.2 o hDef).eval_subset hRegular ho

/-- A component without an entry is not widened. -/
theorem eq_of_no_entry (h : Solving m pos comp g g₁ g₂ g₃ g₄) (hEntry : g.hasEntry comp = false) :
    g₁ = g := by
  have hWidened := h.widened
  rwa [hEntry, if_neg Bool.false_ne_true] at hWidened

end Solving

end Component

/-! ### All components -/

section Stage

/-- The range of a sink holds what the components below `k` contribute to it: it is that of its
operation once all sources are there, and a phi holds each of its sources that is. -/
structure Seeded (cs : Components) (k : Nat) (g : Graph) (op : Operation) : Prop where
  eval : (∀ n ∈ op.kind.operands, cs.number n < k) → g.range op.sink = g.eval op
  phi {sources : List NodeId} {n : NodeId} : op.kind = .phi sources → n ∈ sources →
    cs.number n < k → g.range n ⊆ g.range op.sink

/-- The state of a solution that began with `b` when the components below `k` are solved: nodes
without a definition keep their ranges, the operations that are not bounded by a solved node are as
they were, and the sinks of the others components are seeded. -/
structure Stage (b : Graph) (cs : Components) (k : Nat) (g : Graph) : Prop where
  shape : g.shape = b.shape
  layout : Layout g cs
  regular : Regular g
  fixed {n : NodeId} : g.definition n = none → g.range n = b.range n
  pristine {o : OpId} {op : Operation} : g.ops[o]? = some op →
    (∀ n c, op.kind.bound? = some (n, c) → k ≤ cs.number n) → b.ops[o]? = some op
  phis {o : OpId} {op : Operation} {sources : List NodeId} : g.ops[o]? = some op →
    op.kind = .phi sources → op.intersect = g.sentinels.max
  seeded {o : OpId} {op : Operation} : g.ops[o]? = some op → k ≤ cs.number op.sink →
    Seeded cs k g op

variable {b g₁ g₂ g₃ g₄ : Graph} {k : Nat}

theorem Stage.sameState (h : Stage b cs k g) (h' : SameState g g') : Stage b cs k g' := by
  refine ⟨h'.shape.trans h.shape, h.layout.of_shape h'.shape, h'.regular h.regular, fun hn => ?_,
    fun ho => h.pristine (h'.ops ▸ ho), fun ho hp => ?_, fun {o op} ho hk => ?_⟩
  · rw [h'.range]
    exact h.fixed (definition_of_shape h'.shape _ ▸ hn)
  · rw [sentinels_of_shape h'.shape]
    exact h.phis (h'.ops ▸ ho) hp
  · have hSeeded := h.seeded (h'.ops ▸ ho) hk
    refine ⟨fun hAll => ?_, fun hp hn hlt => ?_⟩
    · rw [h'.range, hSeeded.eval hAll, eval_congr h'.shape op fun n _ => h'.range n]
    · rw [h'.range, h'.range]
      exact hSeeded.phi hp hn hlt

/-- An operation that the component feeds is evaluated when all that is solved by then is final. -/
theorem Solving.computed_fed (h : Solving m k comp g g₁ g₂ g₃ g₄) (hg : Layout g cs)
    (hc : cs.members[k]? = some comp) {o : OpId} {op : Operation} (ho : g₄.ops[o]? = some op)
    (hFed : o ∈ g.fed k comp) : ∃ h₁ : Graph, g₄.shape = h₁.shape ∧ Regular h₁ ∧
      (∀ n, cs.number n < k + 1 → g₄.range n = h₁.range n) ∧ g₄.range op.sink = h₁.eval op := by
  obtain ⟨g', hResolved, hAssigned⟩ := h.propagated
  have hShape := hResolved.shape.trans h.shape₃
  have hSolved {n : NodeId} (hn : cs.number n < k + 1) (o : OpId) (ho : o ∈ g.fed k comp) :
      g'.sink o ≠ n := by
    obtain ⟨op, hOp, hLt, -⟩ := (hg.mem_fed hc o).mp ho
    rw [sink_of_shape hShape, sink_eq hOp]
    rintro rfl
    omega
  obtain ⟨h₁, hShape₁, hRegular₁, hKept₁, hRange⟩ := hAssigned.computed hFed (hAssigned.ops ▸ ho)
  exact ⟨h₁, hAssigned.shape.trans hShape₁.symm, hRegular₁,
    fun n hn => (hAssigned.kept (hSolved hn)).trans (hKept₁ n (hSolved hn)).symm, hRange⟩

/-- The sink of a fed operation has its evaluation if all that the operation reads is solved. -/
theorem Solving.range_fed (h : Solving m k comp g g₁ g₂ g₃ g₄) (hg : Layout g cs)
    (hc : cs.members[k]? = some comp) {o : OpId} {op : Operation} (ho : g₄.ops[o]? = some op)
    (hFed : o ∈ g.fed k comp) (hAll : ∀ n ∈ op.kind.operands, cs.number n < k + 1) :
    g₄.range op.sink = g₄.eval op := by
  obtain ⟨h₁, hShape, -, hSame, hRange⟩ := h.computed_fed hg hc ho hFed
  rw [hRange]
  exact (eval_congr hShape op fun n hn => hSame n (hAll n hn)).symm

/-- An operation that the component feeds is seeded by its last evaluation. -/
theorem Solving.seeded_fed (h : Solving m k comp g g₁ g₂ g₃ g₄) (hg : Layout g cs)
    (hc : cs.members[k]? = some comp) {o : OpId} {op : Operation} (ho : g₄.ops[o]? = some op)
    (hFed : o ∈ g.fed k comp)
    (hPhi : ∀ sources, op.kind = .phi sources → op.intersect = g₄.sentinels.max) :
    Seeded cs (k + 1) g₄ op := by
  refine ⟨h.range_fed hg hc ho hFed, fun {sources n} hp hn hlt => ?_⟩
  obtain ⟨h₁, hShape, hRegular, hSame, hRange⟩ := h.computed_fed hg hc ho hFed
  have hMax : op.intersect = h₁.sentinels.max := sentinels_of_shape hShape ▸ hPhi sources hp
  rw [hRange, eval_of_max hMax, hp, hSame n hlt]
  exact hRegular.subset_phi op.sink hn

/-- Solving the next component leads to the next stage. -/
theorem Stage.next (hs : Stage b cs k g) (h : Solving m k comp g g₁ g₂ g₃ g₄)
    (hc : cs.members[k]? = some comp) : Stage b cs (k + 1) g₄ := by
  have hg := hs.layout
  have hw := hg.wired
  have hPhis {o : OpId} {op : Operation} {sources : List NodeId} (ho : g₄.ops[o]? = some op)
      (hp : op.kind = .phi sources) : op.intersect = g₄.sentinels.max := by
    rw [sentinels_of_shape h.shape₄]
    exact hs.phis (h.op_old ho (by simp [hp, Kind.bound?])) hp
  refine ⟨h.shape₄.trans hs.shape, hg.of_shape h.shape₄, h.regular₄, fun {n} hn => ?_,
    fun {o op} ho hb => ?_, hPhis, fun {o op} ho hk => ?_⟩
  · rw [definition_of_shape h.shape₄] at hn
    rw [(h.range_undefined hg hc hn).2.2, hs.fixed hn]
  · have hOut (n : NodeId) (c : Comparison) (hnc : op.kind.bound? = some (n, c)) : n ∉ comp :=
      fun hn => by
        have hLe := hb n c hnc
        rw [((hg.mem_iff hc n).mp hn).2] at hLe
        omega
    exact hs.pristine (h.op_old ho hOut) fun n c hnc => Nat.le_of_succ_le (hb n c hnc)
  · by_cases hFed : o ∈ g.fed k comp
    · exact h.seeded_fed hg hc ho hFed fun sources => hPhis ho
    · have hNone {n : NodeId} (hn : n ∈ op.kind.operands ∨ ∃ c, op.kind.bound? = some (n, c)) :
          n ∉ comp := fun hnc => by
        obtain ⟨old, hOp, hSink, hKind⟩ := op_of_shape h.shape₄ ho
        exact hFed ((hg.mem_fed hc o).mpr ⟨old, hOp, hSink ▸ hk, n, hnc, hKind ▸ hn⟩)
      have hOp := h.op_old ho fun n c hnc => hNone (.inr ⟨c, hnc⟩)
      have hSeeded := hs.seeded hOp (Nat.le_of_succ_le hk)
      have hSink : g₄.range op.sink = g.range op.sink := by
        have hOut : op.sink ∉ comp := fun hn => by
          rw [((hg.mem_iff hc _).mp hn).2] at hk
          omega
        refine (h.range_propagated fun o' ho' hSame => hFed ?_).trans (h.range_outside hg hOut).2.2
        obtain ⟨op', hOp', -⟩ := (hg.mem_fed hc o').mp ho'
        rw [sink_eq hOp'] at hSame
        rw [hw.eq_of_sink hOp hOp' hSame.symm]
        exact ho'
      have hOperand {n : NodeId} (hn : n ∈ op.kind.operands) (hlt : cs.number n < k + 1) :
          cs.number n < k ∧ g₄.range n = g.range n := by
        have hOut := hNone (.inl hn)
        refine ⟨?_, (h.range_solved hg hc (Nat.le_of_lt_succ hlt)).trans
          (h.range_outside hg hOut).2.2⟩
        have hne : cs.number n ≠ k := fun hEq =>
          hOut ((hg.mem_iff hc n).mpr ⟨hw.operand_lt hOp hn, hEq⟩)
        omega
      refine ⟨fun hAll => ?_, fun {sources n} hp hn hlt => ?_⟩
      · rw [hSink, hSeeded.eval fun n hn => (hOperand hn (hAll n hn)).1]
        exact (eval_congr h.shape₄ op fun n hn => (hOperand hn (hAll n hn)).2).symm
      · obtain ⟨hlt', hSame⟩ := hOperand (by rw [hp]; exact hn) hlt
        rw [hSink, hSame]
        exact hSeeded.phi hp hn hlt'

end Stage

end ValueRange.Graph
