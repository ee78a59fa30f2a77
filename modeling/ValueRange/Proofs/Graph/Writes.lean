import ValueRange.Proofs.Graph.Branching
import ValueRange.Proofs.Graph.State

/-! A solution as a sequence of writes. Once the nodes of a graph have their first ranges, its
solution changes the graph by one write after another, whatever the graph holds and however the
solution ends. -/

namespace ValueRange.Graph

variable {g g' g₀ : Graph} {m : Meet}

/-- One write of a solution. A turn of an iteration updates the sink of an operation, by widening or
by the operator that the graph asks for; an assignment evaluates an operation into its sink. -/
inductive Write : Graph → Graph → Prop
  | arrange (g : Graph) (cs : Components) : Write g { g with components := some cs }
  | turn {g : Graph} {m : Meet} {o : OpId} {op : Operation} {r : Range}
      (hm : m = .widening ∨ meetOf g.narrowing = .ok m) (ho : g.ops[o]? = some op)
      (hStep : m.step g.sentinels (g.trend op.sink) (g.range op.sink) (g.eval op) = some r) :
      Write g (g.setRange op.sink r)
  | freeze (g : Graph) (comp : List NodeId) : Write g (g.freeze comp)
  | resolve (g : Graph) (n : NodeId) (o : OpId) : Write g (g.resolve n o)
  | assign (g : Graph) (o : OpId) : Write g (g.assign o)
  | record (g : Graph) (pos : Nat) (comp : List NodeId) (phase : Phase) :
      Write g (g.record pos comp phase)
  | finish (g : Graph) : Write g { g with solved := true }

/-- A sequence of writes. -/
abbrev Writes : Graph → Graph → Prop := Relation.ReflTransGen Write

theorem Write.narrowing (h : Write g g') : g'.narrowing = g.narrowing := by
  cases h with
  | arrange | turn | freeze | finish => rfl
  | resolve n o => exact narrowing_of_shape (shape_resolve g n o)
  | assign o => exact narrowing_of_shape (shape_assign g o)
  | record pos comp phase => exact narrowing_of_shape (shape_record pos comp phase g)

namespace Writes

theorem narrowing (h : Writes g g') : g'.narrowing = g.narrowing := by
  induction h with
  | refl => rfl
  | tail _ hStep ih => exact hStep.narrowing.trans ih

theorem iterateQueue (hm : m = .widening ∨ meetOf g₀.narrowing = .ok m) (pos steps : Nat)
    (queue : List OpId) (h : Writes g₀ g) : Writes g₀ (iterateQueue m pos steps queue g) := by
  -- along the queue, of which only a changed sink writes
  fun_induction Graph.iterateQueue m pos steps queue g with
  | case1 | case2 => exact h
  | case3 _ _ _ _ _ ih | case4 _ _ _ _ _ _ _ ih => exact ih h
  | case5 g steps o queue op ho r hStep g' ih =>
    refine ih (h.tail (.turn ?_ ho hStep))
    rw [h.narrowing]
    exact hm

theorem resolveBounds (test : Graph → OpId → Bool) (comp : List NodeId) (h : Writes g₀ g) :
    Writes g₀ (g.resolveBounds test comp) := by
  refine List.foldlRecOn comp _ h fun g hg n _ => ?_
  refine List.foldlRecOn (g.bounds n) _ hg fun g hg o _ => ?_
  split
  · exact hg.tail (.resolve g n o)
  · exact hg

theorem propagate (pos : Nat) (comp : List NodeId) (h : Writes g₀ g) :
    Writes g₀ (g.propagate pos comp) := by
  refine List.foldlRecOn comp _ (h.resolveBounds _ comp) fun g hg n _ => ?_
  refine List.foldlRecOn (g.uses n ++ g.bounds n) _ hg fun g hg o _ => ?_
  split
  · exact hg.tail (.assign g o)
  · exact hg

end Writes

theorem keeps_solveComponent (g₀ : Graph) (pos : Nat) (comp : List NodeId) :
    Keeps (Writes g₀) (solveComponent pos comp) := by
  have hRecord (phase : Phase) : Keeps (Writes g₀) (modify (record pos comp phase)) :=
    Keeps.modify fun g hg => hg.tail (.record g pos comp phase)
  have hIterate {m : Meet} (hm : m = .widening ∨ meetOf g₀.narrowing = .ok m) (defs : List OpId) :
      Keeps (Writes g₀) (modify (iterate m pos defs)) :=
    Keeps.modify fun g hg => hg.iterateQueue hm pos _ defs
  unfold solveComponent
  refine (hRecord .discovered).bind fun _ => ?_
  refine Keeps.get_bind fun g₁ _ => Keeps.get_bind fun g₂ _ => ?_
  -- what follows the first iteration and what follows the second one are the same in both branches
  extract_lets defs narrowed widened
  have hNarrowed (u : Unit) : Keeps (Writes g₀) (narrowed u) :=
    (hRecord .narrowed).bind fun _ =>
      (Keeps.modify fun g hg => hg.propagate pos comp).bind fun _ => hRecord .propagated
  have hWidened (u : Unit) : Keeps (Writes g₀) (widened u) := by
    refine (Keeps.modify fun g hg => hg.tail (.freeze g comp)).bind fun _ => ?_
    refine (hRecord .widened).bind fun _ => ?_
    refine (Keeps.modify fun g hg => hg.resolveBounds _ comp).bind fun _ => ?_
    refine (hRecord .intersectsFixed).bind fun _ => ?_
    split
    · refine Keeps.get_bind fun g hg => Keeps.lift_bind fun m hm => ?_
      rw [hg.narrowing] at hm
      exact (hIterate (.inr hm) defs).bind hNarrowed
    · exact hNarrowed ()
  split
  · exact (hIterate (.inl rfl) defs).bind hWidened
  · exact hWidened ()

/-- From the first ranges on, a solution is a sequence of writes, also where it fails. -/
theorem writes_solve (h : g.solved = false) : Writes g.seed (solve.run.run g).2 := by
  unfold solve
  rw [run_get_bind, h, if_neg Bool.false_ne_true, run_modify_bind]
  refine Keeps.get_bind (I := Writes g.seed) (fun _ _ => ?_) g.seed .refl
  refine Keeps.lift_bind fun cs _ => ?_
  refine (Keeps.modify fun g hg => hg.tail (.arrange g cs)).bind fun _ => ?_
  refine (Keeps.forIn fun x _ => ?_).bind fun _ => Keeps.modify fun g hg => hg.tail (.finish g)
  exact (keeps_solveComponent g.seed x.2 x.1).andThen

end ValueRange.Graph
