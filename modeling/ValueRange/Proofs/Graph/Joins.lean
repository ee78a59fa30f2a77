import ValueRange.Proofs.Graph.Evaluation

/-! Phis as joins. The well-formed ranges of one pair of sentinels are a bounded lattice: unions are
least upper bounds and intersections greatest lower bounds. A phi evaluates to the join of its
sources, so that it depends on the set of its sources only. -/

namespace ValueRange.Graph

open Range

variable {s : Sentinels} {g : Graph}

theorem Regular.evalKind_phi_congr (h : Regular g) (sink : NodeId) {sources sources' : List NodeId}
    (hSame : ∀ n, n ∈ sources ↔ n ∈ sources') :
    g.evalKind sink (.phi sources) = g.evalKind sink (.phi sources') := by
  refine unionAll_congr (fun r hr => ?_) fun r => ?_
  · obtain ⟨n, -, rfl⟩ := List.mem_map.mp hr
    exact h.range n
  · simp only [List.mem_map, hSame]

theorem Regular.eval_phi_congr (h : Regular g) (op : Operation) {sources sources' : List NodeId}
    (hSame : ∀ n, n ∈ sources ↔ n ∈ sources') :
    g.eval { op with kind := .phi sources } = g.eval { op with kind := .phi sources' } := by
  unfold Graph.eval
  rw [h.evalKind_phi_congr op.sink hSame]

theorem same_of_eq {r o : s.Ranges} (h : r = o) : r.1.Same o.1 :=
  (same_iff_eq r.2 o.2).mpr (congrArg Subtype.val h)

/-- Well-formed ranges are ordered by what they hold, and a union is the least range above its
operands, an intersection the greatest below them. The laws of a bounded lattice hold, and a phi is
not changed by a list of the same sources in another order or with other repetitions. -/
theorem boundedLattice_phi (r o q : s.Ranges) :
    (r.1 ⊆ r.1 ∧ (r.1 ⊆ o.1 → o.1 ⊆ q.1 → r.1 ⊆ q.1) ∧
      (r.1.Same o.1 ↔ r.1 ⊆ o.1 ∧ o.1 ⊆ r.1)) ∧
    (WellFormed s (r.1.union o.1) ∧ (r.1.union o.1 ⊆ q.1 ↔ r.1 ⊆ q.1 ∧ o.1 ⊆ q.1)) ∧
    (WellFormed s (r.1.intersect o.1) ∧ (q.1 ⊆ r.1.intersect o.1 ↔ q.1 ⊆ r.1 ∧ q.1 ⊆ o.1) ∧
      ∀ n, n ∈ r.1.intersect o.1 ↔ n ∈ r.1 ∧ n ∈ o.1) ∧
    (s.empty ⊆ r.1 ∧ r.1 ⊆ s.max) ∧
    ((r.1.union o.1).Same (o.1.union r.1) ∧ (r.1.intersect o.1).Same (o.1.intersect r.1)) ∧
    (((r.1.union o.1).union q.1).Same (r.1.union (o.1.union q.1)) ∧
      ((r.1.intersect o.1).intersect q.1).Same (r.1.intersect (o.1.intersect q.1))) ∧
    ((r.1.union r.1).Same r.1 ∧ (r.1.intersect r.1).Same r.1) ∧
    ((r.1.union (r.1.intersect o.1)).Same r.1 ∧ (r.1.intersect (r.1.union o.1)).Same r.1) ∧
    ∀ (g : Graph) (op : Operation) (sources sources' : List NodeId), Regular g →
      (∀ n, n ∈ sources ↔ n ∈ sources') →
      g.eval { op with kind := .phi sources } = g.eval { op with kind := .phi sources' } := by
  have hEquiv : r.1.Same o.1 ↔ r.1 ⊆ o.1 ∧ o.1 ⊆ r.1 := by
    rw [same_iff_eq r.2 o.2, ← Subtype.ext_iff]
    exact le_antisymm_iff
  have hUnion : r.1.union o.1 ⊆ q.1 ↔ r.1 ⊆ q.1 ∧ o.1 ⊆ q.1 :=
    sup_le_iff (a := r) (b := o) (c := q)
  have hIntersect : q.1 ⊆ r.1.intersect o.1 ↔ q.1 ⊆ r.1 ∧ q.1 ⊆ o.1 :=
    le_inf_iff (a := r) (b := o) (c := q)
  refine ⟨⟨subset_refl r.1, subset_trans, hEquiv⟩, ⟨r.2.union o.2, hUnion⟩,
    ⟨r.2.intersect o.1, hIntersect, fun n => mem_intersect_iff r.2 o.2⟩, ⟨.inl rfl, subset_max r.2⟩,
    ⟨?_, ?_⟩, ⟨?_, ?_⟩, ⟨?_, ?_⟩, ⟨?_, ?_⟩, ?_⟩
  · exact same_of_eq (sup_comm r o)
  · exact same_of_eq (inf_comm r o)
  · exact same_of_eq (sup_assoc r o q)
  · exact same_of_eq (inf_assoc r o q)
  · exact same_of_eq (sup_idem r)
  · exact same_of_eq (inf_idem r)
  · exact same_of_eq (sup_inf_self (a := r) (b := o))
  · exact same_of_eq (inf_sup_self (a := r) (b := o))
  · intro g op sources sources' h hSame
    exact h.eval_phi_congr op hSame

/-- A node of which the range is known. -/
def holding (r : Range) : Node := { (default : Node) with range := some r }

/-- A graph of three nodes, of which the last holds nothing. -/
def threeNodes : Graph :=
  let s := Sentinels.ofWidth 8
  { empty s ⟨.crop, 8, false⟩ with
    nodes := #[holding (s.interval 1 5), holding (s.interval 100 127), holding s.empty] }

theorem regular_threeNodes : Regular threeNodes where
  range n := match n with
    | 0 => .interval _ 1 5
    | 1 => .interval _ 100 127
    | 2 => .empty
    | n + 3 => by
      have hSize : threeNodes.nodes.size = 3 := rfl
      rw [Graph.range, range?, Array.getElem?_eq_none (by omega)]
      exact .max _

/-- An unbounded range, one within it and the empty one; and a phi that reads a node twice. -/
theorem boundedLattice_phi_eight :
    let s := Sentinels.ofWidth 8
    let r : s.Ranges := ⟨s.interval 3 127, .interval s 3 127⟩
    let o : s.Ranges := ⟨s.interval (-2) 5, .interval s (-2) 5⟩
    let q : s.Ranges := ⟨s.empty, .empty⟩
    ((r.1.union o.1).Same (o.1.union r.1) ∧ ¬ r.1.Same o.1 ∧ ¬ (r.1 ⊆ o.1 ∧ o.1 ⊆ r.1)) ∧
      (5 ∈ r.1.intersect o.1 ∧ 5 ∈ r.1 ∧ 5 ∈ o.1) ∧
      ((r.1.union o.1).union q.1).Same (r.1.union (o.1.union q.1)) ∧
      threeNodes.eval ⟨0, .phi [0, 1, 2], s.max⟩ = threeNodes.eval ⟨0, .phi [1, 2, 0, 1], s.max⟩ ∧
      threeNodes.eval ⟨0, .phi [0, 1, 2], s.max⟩ = s.interval 1 127 := by
  have hSources (n : NodeId) : n ∈ [0, 1, 2] ↔ n ∈ [1, 2, 0, 1] := by
    simp only [List.mem_cons, List.not_mem_nil, or_false]
    tauto
  intro s r o q
  have hLaws := boundedLattice_phi r o q
  have hNot : ¬ r.1.Same o.1 := by decide
  have hIn : 5 ∈ r.1.intersect o.1 := by decide
  have hEval : threeNodes.eval ⟨0, .phi [0, 1, 2], s.max⟩ = s.interval 1 127 := by decide +kernel
  clear_value r o q
  have hPhi := hLaws.2.2.2.2.2.2.2.2 threeNodes ⟨0, .phi [], s.max⟩ _ _ regular_threeNodes hSources
  exact ⟨⟨hLaws.2.2.2.2.1.1, hNot, fun h => hNot (hLaws.1.2.2.mpr h)⟩,
    ⟨hIn, (hLaws.2.2.1.2.2 5).mp hIn⟩, hLaws.2.2.2.2.2.1.1, hPhi, hEval⟩

end ValueRange.Graph
