import ValueRange.Proofs.Graph.Termination

/-! Iterations end in fixpoints. An operation that does not wait has nothing to change: no node that it
reads has changed since its last turn, or it would wait again, and at its own sink a second turn does
nothing. So when no operation waits, none of the component has anything left to change. Only nodes of
the component change on the way. -/

namespace ValueRange.Graph

open Range

variable {g : Graph} {cs : Components} {m : Meet} {pos : Nat} {comp : List NodeId}

theorem Wired.layout (hg : Wired g) (hFind : g.findComponents = .ok cs)
    (hcs : g.components = some cs) : Layout g cs := by
  cases hFind.symm.trans hg.findComponents_eq
  exact ⟨hg, hcs, hg.arranged⟩

/-- Components are widened, and then narrowed or cropped. -/
theorem lawful_of_mem (hm : m ∈ [Meet.widening, .narrowing, .cropping]) : m.Lawful := by
  simp only [List.mem_cons, List.not_mem_nil, or_false] at hm
  rcases hm with rfl | rfl | rfl
  · exact lawful_widening
  · exact tight_narrowing.toLawful
  · exact tight_cropping.toLawful

/-- In a wired graph with well-formed ranges, iterating an operator over one of the components that
are found takes turns until no operation waits. Then the operator has nothing to change at any
operation of the component; no node outside of the component has changed, and no operation or
intersection has. After widening, the sink of every operation of the component holds what the
operation evaluates to. -/
theorem iterate_fixpoint (hg : Wired g) (hr : Regular g) (hFind : g.findComponents = .ok cs)
    (hcs : g.components = some cs) (hc : cs.members[pos]? = some comp)
    (hm : m ∈ [Meet.widening, .narrowing, .cropping]) :
    let defs := g.definitions comp
    let g' := iterate m pos defs g
    (∃ ws, (⟨defs, g⟩ :: ws).IsChain (Turn m pos eval) ∧
      (⟨defs, g⟩ :: ws).getLast? = some ⟨[], g'⟩) ∧
    (∀ o ∈ defs, ∃ op, g'.ops[o]? = some op ∧
      m.step g'.sentinels (g'.trend op.sink) (g'.range op.sink) (g'.eval op) = none) ∧
    (∀ n ∉ comp, g'.nodes[n]? = g.nodes[n]?) ∧ g'.ops = g.ops ∧
    (m = .widening → ∀ (o : OpId) (op : Operation), g'.ops[o]? = some op → op.sink ∈ comp →
      g'.eval op ⊆ g'.range op.sink) := by
  intro defs g'
  have hLayout := hg.layout hFind hcs
  have hArea := hLayout.area hc
  have hLawful := lawful_of_mem hm
  have hGoing : Worklist.Going ⟨defs, g⟩ pos defs := ⟨hArea, hr, hArea.nodup, id⟩
  obtain ⟨hRun, hQuiet⟩ := iterate_spec hLawful hArea hr
  have hOps : g'.ops = g.ops := updates_ops hRun
  refine ⟨(halts_of_lawful hLawful hGoing).empties, fun o ho => ?_, fun n hn => ?_, hOps, ?_⟩
  · obtain ⟨op, hOp, -⟩ := (hLayout.mem_definitions o).mp ho
    rw [← hOps] at hOp
    exact ⟨op, hOp, hQuiet o ho op hOp⟩
  · exact updates_node hRun fun o ho => hLayout.sink_ne ho hn
  · rintro rfl o op hOp hSink
    have hDef : o ∈ defs := (hLayout.mem_definitions o).mpr ⟨op, hOps ▸ hOp, hSink⟩
    exact (hQuiet o hDef).eval_subset (updates_regular hLawful hRun hr) hOp

/-- The components of the loop that counts up, of which the last is the loop itself. -/
def loopingComponents : Components := ⟨#[2, 1, 3, 3, 3, 0], #[[5], [1], [0], [4, 2, 3]]⟩

theorem looping_layout : Layout (looping.begun loopingComponents) loopingComponents := by
  obtain ⟨cs, hFind, hLayout⟩ := looping_unstarted.wired.layout_begun looping_unstarted.started
  have hFound : looping.seed.findComponents = .ok loopingComponents := by decide +kernel
  cases hFind.symm.trans hFound
  exact hLayout

/-- The loop is widened from empty ranges: its index gets no upper bound, and each operation of the
loop evaluates to a part of what its sink holds. -/
theorem looping_fixpoint :
    let g := looping.begun loopingComponents
    let g' := iterate .widening 3 (g.definitions [4, 2, 3]) g
    g.range 3 = g.sentinels.empty ∧ g'.range 3 = ⟨g.sentinels, 0, 127, false⟩ ∧
      (∀ n ∉ [4, 2, 3], g'.nodes[n]? = g.nodes[n]?) ∧
      ∀ (o : OpId) (op : Operation), g'.ops[o]? = some op → op.sink ∈ [4, 2, 3] →
        g'.eval op ⊆ g'.range op.sink := by
  intro g g'
  have hRegular : Regular g := ⟨(regular_seed looping_unstarted.started).range⟩
  have hFind : g.findComponents = .ok loopingComponents := by decide +kernel
  have hLoop : loopingComponents.members[3]? = some [4, 2, 3] := rfl
  obtain ⟨-, -, hOutside, -, hHolds⟩ := iterate_fixpoint (m := .widening) looping_layout.wired
    hRegular hFind looping_layout.components hLoop (by simp)
  exact ⟨by decide +kernel, by decide +kernel, hOutside, hHolds rfl⟩

end ValueRange.Graph
