import ValueRange.Proofs.Graph.Order
import ValueRange.Proofs.Graph.Wiring

/-! The components of a graph. A node feeds the sinks of the operations that read it and of the
sigmas that it bounds. Two nodes are in one component if and only if each of them reaches the other
along these edges, and no edge leads to a component with a lower number. -/

namespace ValueRange

/-- The number of a node's component. -/
def Components.number (cs : Components) (n : NodeId) : Nat := cs.numberOf.getD n 0

theorem Components.number_mk (numberOf : Array Nat) (members : Array (List NodeId)) (n : NodeId) :
    Components.number ⟨numberOf, members⟩ n = numberOf.getD n 0 := rfl

namespace Graph

/-- An operation that defines `m` reads `n`, or is bounded by it. -/
def Feeds (g : Graph) (n m : NodeId) : Prop :=
  ∃ (o : OpId) (op : Operation), g.ops[o]? = some op ∧ op.sink = m ∧
    (n ∈ op.kind.operands ∨ ∃ c, op.kind.bound? = some (n, c))

variable {g : Graph}

theorem sink_eq {o : OpId} {op : Operation} (h : g.ops[o]? = some op) : g.sink o = op.sink := by
  simp [sink, h]

theorem Linked.mem_successors (h : Linked g) (n m : NodeId) :
    m ∈ g.successors n ↔ g.Feeds n m := by
  simp only [successors, List.mem_map, List.mem_append, h.mem_uses, h.mem_bounds]
  constructor
  · rintro ⟨o, ⟨op, ho, hn⟩ | ⟨op, c, ho, hb⟩, rfl⟩
    · exact ⟨o, op, ho, (sink_eq ho).symm, .inl hn⟩
    · exact ⟨o, op, ho, (sink_eq ho).symm, .inr ⟨c, hb⟩⟩
  · rintro ⟨o, op, ho, rfl, hn | ⟨c, hb⟩⟩
    · exact ⟨o, .inl ⟨op, ho, hn⟩, sink_eq ho⟩
    · exact ⟨o, .inr ⟨op, c, ho, hb⟩, sink_eq ho⟩

theorem Linked.successors_lt (h : Linked g) (n : NodeId) :
    ∀ m ∈ g.successors n, m < g.nodes.size := by
  intro m hm
  obtain ⟨o, op, ho, rfl, -⟩ := (h.mem_successors n m).mp hm
  exact h.sink_lt ho

/-- Components that hold each node once, know its number, and are numbered along the edges. -/
structure Arranged (leads : NodeId → List NodeId) (size : Nat) (cs : Components) : Prop where
  perm : cs.members.toList.flatten.Perm (List.range size)
  size_numberOf : cs.numberOf.size = size
  number_eq {i : Nat} {c : List NodeId} {n : NodeId} :
    cs.members[i]? = some c → n ∈ c → cs.number n = i
  strong {i : Nat} {c : List NodeId} {n m : NodeId} :
    cs.members[i]? = some c → n ∈ c → m ∈ c → Reach leads n m
  ordered {n m : NodeId} : n < size → m ∈ leads n → cs.number n ≤ cs.number m

section Found

/-- An edge leads from a component to itself or to one that was found before it. -/
theorem exists_place_of_backward {leads : NodeId → List NodeId} {found : List (List NodeId)}
    (h : Backward leads found.reverse) {i : Nat} {c : List NodeId} {n m : NodeId}
    (hc : found[i]? = some c) (hn : n ∈ c) (hm : m ∈ leads n) :
    ∃ j c', j ≤ i ∧ found[j]? = some c' ∧ m ∈ c' := by
  induction found using List.reverseRecOn with
  | nil => simp at hc
  | append_singleton found last ih =>
    rw [List.reverse_append, List.reverse_singleton, List.singleton_append] at h
    rcases Nat.lt_trichotomy i found.length with hi | hi | hi
    · rw [List.getElem?_append_left hi] at hc
      obtain ⟨j, c', hj, hc', hm'⟩ := ih h.2 hc
      exact ⟨j, c', hj, by rwa [List.getElem?_append_left (Nat.lt_of_le_of_lt hj hi)], hm'⟩
    · subst hi
      rw [List.getElem?_concat_length] at hc
      cases hc
      rcases h.1 n hn m hm with hm | hm
      · exact ⟨_, _, Nat.le_refl _, List.getElem?_concat_length, hm⟩
      · obtain ⟨c', hc', hm'⟩ := List.mem_flatten.mp hm
        obtain ⟨j, hj, hGet⟩ := List.mem_iff_getElem.mp (List.mem_reverse.mp hc')
        refine ⟨j, c', Nat.le_of_lt hj, ?_, hm'⟩
        rw [List.getElem?_append_left hj, List.getElem?_eq_getElem hj, hGet]
    · rw [List.getElem?_eq_none (by simp; omega)] at hc
      cases hc

variable (g) in
/-- The places that each of the found components leads to. -/
def nextPlaces : Array (List Nat) :=
  (g.foundComponents.zipIdx.map fun (comp, i) =>
    g.componentSuccessors (places g.nodes.size g.foundComponents) i comp).toArray

variable (g) in
theorem getD_nextPlaces (i : Nat) : g.nextPlaces.getD i [] =
    ((g.foundComponents[i]?).map
      (g.componentSuccessors (places g.nodes.size g.foundComponents) i)).getD [] := by
  simp only [nextPlaces, Array.getD_eq_getD_getElem?, List.getElem?_toArray, List.getElem?_map,
    List.getElem?_zipIdx, Option.map_map]
  cases g.foundComponents[i]? <;> simp

variable (g) in
/-- How many of the found components lead to each of them. -/
def waitingPlaces : Array Nat :=
  g.nextPlaces.foldl (fun acc js => js.foldl (fun acc j => acc.modify j (· + 1)) acc)
    (Array.replicate g.foundComponents.length 0)

variable (g) in
/-- The order of the found components. -/
def componentOrder : List Nat :=
  topological g.nextPlaces g.foundComponents.length
    ((List.range g.foundComponents.length).reverse.filter fun i => g.waitingPlaces.getD i 0 = 0)
    g.waitingPlaces

variable (g) in
/-- The found components in order. -/
def orderedComponents : List (List NodeId) :=
  g.componentOrder.map fun i => (g.foundComponents[i]?).getD []

variable (g) in
theorem size_waitingPlaces : g.waitingPlaces.size = g.foundComponents.length := by
  rw [waitingPlaces, nextPlaces, List.foldl_toArray, size_countAll, Array.size_replicate]

variable (g) in
theorem nodup_nextPlaces (i : Nat) : (g.nextPlaces.getD i []).Nodup := by
  rw [getD_nextPlaces]
  cases g.foundComponents[i]? with
  | none => exact .nil
  | some c => exact nodup_componentSuccessors g _ i c

theorem mem_nextPlaces {i j : Nat} : j ∈ g.nextPlaces.getD i [] ↔ j ≠ i ∧
    ∃ c, g.foundComponents[i]? = some c ∧ ∃ n ∈ c, ∃ m ∈ g.successors n,
      (places g.nodes.size g.foundComponents).getD m 0 = j := by
  rw [getD_nextPlaces]
  cases g.foundComponents[i]? with
  | none => simp
  | some c => simpa using mem_componentSuccessors g _ i c j

variable (g) in
theorem waitingPlaces_eq {j : Nat} (hj : j < g.foundComponents.length) :
    g.waitingPlaces.getD j 0 =
      ((Finset.range g.foundComponents.length).filter (j ∈ g.nextPlaces.getD · [])).card := by
  have hList : g.nextPlaces.toList =
      (List.range g.foundComponents.length).map (g.nextPlaces.getD · []) := by
    refine List.ext_getElem (by simp [nextPlaces]) fun i hi _ => ?_
    have hSize : i < g.nextPlaces.size := hi
    simp [Array.getElem?_eq_getElem hSize]
  have hNodup (js : List Nat) (hjs : js ∈ g.nextPlaces.toList) : js.Nodup := by
    rw [hList] at hjs
    obtain ⟨i, -, rfl⟩ := List.mem_map.mp hjs
    exact g.nodup_nextPlaces i
  rw [waitingPlaces, ← Array.foldl_toList, getD_countAll _ hNodup _ (by simpa using hj), hList,
    List.countP_map, List.countP_eq_length_filter]
  simp [hj]
  rfl

/-- The found components lead to earlier ones only. -/
theorem Linked.descending (h : Linked g) : Descending g.nextPlaces g.waitingPlaces.size := by
  obtain ⟨hPartition, hBackward⟩ := foundComponents_spec h.successors_lt
  have hPlace {i : Nat} {c : List NodeId} {n : NodeId} (hc : g.foundComponents[i]? = some c)
      (hn : n ∈ c) := places_eq hPartition.nodup (fun n => (hPartition.mem_flatten n).mp) hc hn
  refine ⟨g.nodup_nextPlaces, fun {i j} hj => ?_, fun {i j} hj => ?_⟩
  · obtain ⟨hne, c, hc, n, hn, m, hm, rfl⟩ := mem_nextPlaces.mp hj
    obtain ⟨k, c', hk, hc', hm'⟩ := exists_place_of_backward hBackward hc hn hm
    rw [hPlace hc' hm'] at hne ⊢
    omega
  · obtain ⟨-, c, hc, -⟩ := mem_nextPlaces.mp hj
    rw [size_waitingPlaces]
    exact (List.getElem?_eq_some_iff.mp hc).1

/-- The places that no component leads to are ready first. -/
theorem Linked.sorting (h : Linked g) : Sorting g.nextPlaces
    (Finset.range g.foundComponents.length)
    ((List.range g.foundComponents.length).reverse.filter fun i => g.waitingPlaces.getD i 0 = 0)
    g.waitingPlaces := by
  have hDescending := h.descending
  refine ⟨fun hj => ?_, fun hj => ?_, fun hi hj => ?_, ?_, fun j => ?_⟩
  · rw [size_waitingPlaces]
    exact Finset.mem_range.mp hj
  · rw [size_waitingPlaces] at hj
    exact g.waitingPlaces_eq hj
  · have hLt := hDescending.size_lt hj
    rw [size_waitingPlaces] at hLt
    exact Finset.mem_range.mpr (Nat.lt_trans (hDescending.lt hj) hLt)
  · exact (List.nodup_reverse.mpr List.nodup_range).filter _
  · rw [List.mem_filter, List.mem_reverse, List.mem_range, Finset.mem_range, decide_eq_true_eq]
    refine and_congr_right fun hj => ?_
    rw [g.waitingPlaces_eq hj, Finset.card_eq_zero, Finset.filter_eq_empty_iff]

/-- The order holds every place once, and no component leads to an earlier one. -/
theorem Linked.componentOrder_spec (h : Linked g) :
    g.componentOrder.Perm (List.range g.foundComponents.length) ∧
      g.componentOrder.Pairwise fun i j => i ∉ g.nextPlaces.getD j [] := by
  obtain ⟨hNodup, hMem, hOrder⟩ := h.sorting.topological_spec g.foundComponents.length h.descending
    (Nat.le_of_eq (Finset.card_range _))
  refine ⟨(List.perm_ext_iff_of_nodup hNodup List.nodup_range).mpr fun i => ?_, hOrder⟩
  rw [List.mem_range, ← Finset.mem_range]
  exact hMem i

theorem Linked.findComponents_eq (h : Linked g) : g.findComponents =
    .ok ⟨places g.nodes.size g.orderedComponents, g.orderedComponents.toArray⟩ := by
  have hLength : g.componentOrder.length = g.foundComponents.length := by
    rw [h.componentOrder_spec.1.length_eq, List.length_range]
  exact if_pos hLength

theorem Linked.members_eq (h : Linked g) {cs : Components} (hFind : g.findComponents = .ok cs) :
    cs.members.toList = g.orderedComponents := by
  cases hFind.symm.trans h.findComponents_eq
  rfl

theorem Linked.orderedComponents_perm (h : Linked g) :
    g.orderedComponents.Perm g.foundComponents := by
  have hRange : (List.range g.foundComponents.length).map
      (fun i => (g.foundComponents[i]?).getD []) = g.foundComponents :=
    List.ext_getElem (by simp) fun i hi hi' => by simp [List.getElem?_eq_getElem hi']
  have hPerm := h.componentOrder_spec.1.map fun i => (g.foundComponents[i]?).getD []
  rw [hRange] at hPerm
  exact hPerm

/-- A component of the order is the found component of some place. -/
theorem Linked.exists_place (h : Linked g) {a : Nat} {c : List NodeId}
    (hc : g.orderedComponents[a]? = some c) :
    ∃ i, g.componentOrder[a]? = some i ∧ g.foundComponents[i]? = some c := by
  rw [orderedComponents, List.getElem?_map, Option.map_eq_some_iff] at hc
  obtain ⟨i, hi, hc⟩ := hc
  refine ⟨i, hi, ?_⟩
  have hLt : i < g.foundComponents.length :=
    List.mem_range.mp (h.componentOrder_spec.1.mem_iff.mp (List.mem_of_getElem? hi))
  rw [List.getElem?_eq_getElem hLt, Option.getD_some] at hc
  rw [List.getElem?_eq_getElem hLt, hc]

theorem Linked.arranged (h : Linked g) : Arranged g.successors g.nodes.size
    ⟨places g.nodes.size g.orderedComponents, g.orderedComponents.toArray⟩ := by
  obtain ⟨hPartition, -⟩ := foundComponents_spec h.successors_lt
  have hFlatten := h.orderedComponents_perm.flatten
  have hMem (n : NodeId) : n ∈ g.orderedComponents.flatten ↔ n < g.nodes.size :=
    hFlatten.mem_iff.trans (hPartition.mem_flatten n)
  have hNodup : g.orderedComponents.flatten.Nodup := hFlatten.nodup_iff.mpr hPartition.nodup
  have hNumber {a : Nat} {c : List NodeId} {n : NodeId} (hc : g.orderedComponents[a]? = some c)
      (hn : n ∈ c) : Components.number
        ⟨places g.nodes.size g.orderedComponents, g.orderedComponents.toArray⟩ n = a := by
    rw [Components.number_mk]
    exact places_eq hNodup (fun n => (hMem n).mp) hc hn
  have hComponent {n : NodeId} (hn : n < g.nodes.size) :
      ∃ (a : Nat) (c : List NodeId), g.orderedComponents[a]? = some c ∧ n ∈ c := by
    obtain ⟨c, hc, hn⟩ := List.mem_flatten.mp ((hMem n).mpr hn)
    obtain ⟨a, ha⟩ := List.mem_iff_getElem?.mp hc
    exact ⟨a, c, ha, hn⟩
  refine ⟨?_, size_places g.nodes.size g.orderedComponents, fun hc hn => ?_,
    fun hc hn hm => ?_, fun {n m} hn hm => ?_⟩
  · refine (List.perm_ext_iff_of_nodup hNodup List.nodup_range).mpr fun n => ?_
    rw [List.mem_range, hMem]
  · rw [List.getElem?_toArray] at hc
    exact hNumber hc hn
  · rw [List.getElem?_toArray] at hc
    exact hPartition.strong (h.orderedComponents_perm.mem_iff.mp (List.mem_of_getElem? hc)) hn hm
  · obtain ⟨a, c, hc, hnc⟩ := hComponent hn
    obtain ⟨b, c', hc', hmc⟩ := hComponent (h.successors_lt n m hm)
    obtain ⟨i, hi, hFound⟩ := h.exists_place hc
    obtain ⟨j, hj, hFound'⟩ := h.exists_place hc'
    rw [hNumber hc hnc, hNumber hc' hmc]
    by_contra hba
    -- an edge to an earlier component would be one between different places
    obtain ⟨hPerm, hPairwise⟩ := h.componentOrder_spec
    obtain ⟨ha, rfl⟩ := List.getElem?_eq_some_iff.mp hi
    obtain ⟨hb, rfl⟩ := List.getElem?_eq_some_iff.mp hj
    have hLt : b < a := Nat.lt_of_not_le hba
    refine List.pairwise_iff_getElem.mp hPairwise b a hb ha hLt (mem_nextPlaces.mpr ⟨?_, ?_⟩)
    · intro hSame
      have hOrder := hPerm.nodup_iff.mpr List.nodup_range
      exact Nat.ne_of_lt hLt ((hOrder.getElem_inj_iff).mp hSame)
    · exact ⟨c, hFound, n, hnc, m, hm,
        places_eq hPartition.nodup (fun n => (hPartition.mem_flatten n).mp) hFound' hmc⟩

end Found

section Arranged

variable {leads : NodeId → List NodeId} {size : Nat} {cs : Components} {n m : NodeId}

/-- Every node stands in the component with its number. -/
theorem Arranged.exists_component (h : Arranged leads size cs) (hn : n < size) :
    ∃ c, cs.members[cs.number n]? = some c ∧ n ∈ c := by
  obtain ⟨c, hc, hn⟩ := List.mem_flatten.mp (h.perm.mem_iff.mpr (List.mem_range.mpr hn))
  obtain ⟨i, hi⟩ := List.mem_iff_getElem?.mp hc
  rw [Array.getElem?_toList] at hi
  exact ⟨c, h.number_eq hi hn ▸ hi, hn⟩

theorem Arranged.lt_of_mem (h : Arranged leads size cs) {i : Nat} {c : List NodeId}
    (hc : cs.members[i]? = some c) (hn : n ∈ c) : n < size := by
  rw [← Array.getElem?_toList] at hc
  exact List.mem_range.mp (h.perm.mem_iff.mp
    (List.mem_flatten.mpr ⟨c, List.mem_of_getElem? hc, hn⟩))

/-- The numbers do not fall along a path. -/
theorem Arranged.number_le_of_reach (h : Arranged leads size cs)
    (hLeads : ∀ n, ∀ m ∈ leads n, m < size) (hn : n < size) (hReach : Reach leads n m) :
    cs.number n ≤ cs.number m := by
  induction hReach with
  | refl => exact Nat.le_refl _
  | @tail k l hPath hStep ih =>
    have hk : k < size := by
      rcases Relation.ReflTransGen.cases_tail hPath with rfl | ⟨j, -, hjk⟩
      · exact hn
      · exact hLeads j k hjk
    exact Nat.le_trans ih (h.ordered hk hStep)

theorem Arranged.number_eq_iff (h : Arranged leads size cs)
    (hLeads : ∀ n, ∀ m ∈ leads n, m < size) (hn : n < size) (hm : m < size) :
    cs.number n = cs.number m ↔ Reach leads n m ∧ Reach leads m n := by
  constructor
  · intro he
    obtain ⟨c, hc, hnc⟩ := h.exists_component hn
    obtain ⟨c', hc', hmc⟩ := h.exists_component hm
    rw [← he, hc] at hc'
    cases hc'
    exact ⟨h.strong hc hnc hmc, h.strong hc hmc hnc⟩
  · rintro ⟨hnm, hmn⟩
    exact Nat.le_antisymm (h.number_le_of_reach hLeads hn hnm) (h.number_le_of_reach hLeads hm hmn)

theorem Arranged.getElem?_numberOf (h : Arranged leads size cs) (hn : n < size) :
    cs.numberOf[n]? = some (cs.number n) := by
  have hSize : n < cs.numberOf.size := h.size_numberOf.symm ▸ hn
  simp [Components.number, hSize]

theorem Arranged.position (h : Arranged leads size cs) (n : NodeId) (i : Nat) :
    cs.numberOf[n]? = some i ↔ ∃ c, cs.members[i]? = some c ∧ n ∈ c := by
  constructor
  · intro hi
    have hn : n < size := h.size_numberOf ▸ (Array.getElem?_eq_some_iff.mp hi).1
    rw [h.getElem?_numberOf hn, Option.some_inj] at hi
    exact hi ▸ h.exists_component hn
  · rintro ⟨c, hc, hn⟩
    rw [h.getElem?_numberOf (h.lt_of_mem hc hn), h.number_eq hc hn]

end Arranged

/-- The components of a graph: each node stands once in one of them, and its number is the place of
that one; nodes share a component if and only if each of them reaches the other; and what an operation
reads or is bounded by has no higher number than its sink. -/
structure Decomposes (g : Graph) (cs : Components) : Prop where
  once : cs.members.toList.flatten.Perm (List.range g.nodes.size)
  position (n : NodeId) (i : Nat) :
    cs.numberOf[n]? = some i ↔ ∃ c, cs.members[i]? = some c ∧ n ∈ c
  connected {n m : NodeId} : n < g.nodes.size → m < g.nodes.size →
    (cs.numberOf[n]? = cs.numberOf[m]? ↔
      Relation.ReflTransGen g.Feeds n m ∧ Relation.ReflTransGen g.Feeds m n)
  ordered {o : OpId} {op : Operation} {n : NodeId} : g.ops[o]? = some op →
    n ∈ op.kind.operands ∨ (∃ c, op.kind.bound? = some (n, c)) →
    ∃ i j, cs.numberOf[n]? = some i ∧ cs.numberOf[op.sink]? = some j ∧ i ≤ j

/-- The components of every linked graph are found. -/
theorem findComponents_correct (h : Linked g) :
    ∃ cs, g.findComponents = .ok cs ∧ Decomposes g cs := by
  have hArranged := h.arranged
  have hFeeds : (fun n m => m ∈ g.successors n) = g.Feeds :=
    funext fun n => funext fun m => propext (h.mem_successors n m)
  refine ⟨_, h.findComponents_eq, hArranged.perm, fun n i => ?_, fun {n m} hn hm => ?_,
    fun {o op n} ho hn => ?_⟩
  · exact hArranged.position n i
  · rw [hArranged.getElem?_numberOf hn, hArranged.getElem?_numberOf hm, Option.some_inj,
      hArranged.number_eq_iff h.successors_lt hn hm, Reach, hFeeds]
  · have hFed : op.sink ∈ g.successors n := (h.mem_successors n _).mpr ⟨o, op, ho, rfl, hn⟩
    have hLt : n < g.nodes.size := by
      rcases hn with hn | ⟨c, hb⟩
      · exact h.operand_lt ho hn
      · exact h.bound_lt ho hb
    exact ⟨_, _, hArranged.getElem?_numberOf hLt, hArranged.getElem?_numberOf (h.sink_lt ho),
      hArranged.ordered hLt hFed⟩

/-- A counter and its limit. The counter `0` is a phi of itself one step on, the node `1`, which is a
sigma of the counter that the limit `2` bounds. -/
def counter : Graph :=
  let s := Sentinels.ofWidth 9
  let node (label : String) (definition : Option OpId) (uses bounds : List OpId) : Node :=
    ⟨0, label, .signed 8, none, none, s.max, none, definition, uses, bounds⟩
  { empty s ⟨.cousot, 9, false⟩ with
    nodes := #[node "i" (some 0) [1] [], node "i.t" (some 1) [0] [], node "n" none [] [1]]
    ops := #[⟨0, .phi [1], s.max⟩, ⟨1, .sigma 0 (some (2, .slt)), s.max⟩] }

theorem counter_linked : Linked counter := by
  have hOps (o : OpId) (op : Operation) : counter.ops[o]? = some op ↔
      (o = 0 ∧ op = ⟨0, .phi [1], counter.sentinels.max⟩) ∨
        (o = 1 ∧ op = ⟨1, .sigma 0 (some (2, .slt)), counter.sentinels.max⟩) := by
    rcases o with _ | _ | o <;> simp [counter, empty, eq_comm]
  have hUses (n : NodeId) (o : OpId) : o ∈ counter.uses n ↔ (n = 0 ∧ o = 1) ∨ (n = 1 ∧ o = 0) := by
    rcases n with _ | _ | _ | n <;> simp [counter, uses]
  have hBounds (n : NodeId) (o : OpId) : o ∈ counter.bounds n ↔ n = 2 ∧ o = 1 := by
    rcases n with _ | _ | _ | n <;> simp [counter, bounds]
  refine ⟨fun {o op} h => ?_, fun {o op n} h hn => ?_, fun {o op n c} h hb => ?_, fun n o => ?_,
    fun n o => ?_⟩
  · rcases (hOps o op).mp h with ⟨-, rfl⟩ | ⟨-, rfl⟩ <;> simp [counter]
  · rcases (hOps o op).mp h with ⟨-, rfl⟩ | ⟨-, rfl⟩ <;>
      simp_all [Kind.operands, counter]
  · rcases (hOps o op).mp h with ⟨-, rfl⟩ | ⟨-, rfl⟩
    · cases hb
    · cases hb
      simp [counter]
  · rw [hUses]
    simp only [hOps]
    constructor
    · rintro (⟨rfl, rfl⟩ | ⟨rfl, rfl⟩) <;> simp [Kind.operands]
    · rintro ⟨op, ⟨rfl, rfl⟩ | ⟨rfl, rfl⟩, hn⟩ <;> simp_all [Kind.operands]
  · rw [hBounds]
    simp only [hOps]
    constructor
    · rintro ⟨rfl, rfl⟩
      exact ⟨_, .slt, .inr ⟨rfl, rfl⟩, rfl⟩
    · rintro ⟨op, c, ⟨rfl, rfl⟩ | ⟨rfl, rfl⟩, hb⟩
      · cases hb
      · cases hb
        exact ⟨rfl, rfl⟩

/-- The counter is linked, so that its components are found. -/
theorem counter_decomposes : Linked counter ∧ ∃ cs, counter.findComponents = .ok cs ∧
    Decomposes counter cs :=
  ⟨counter_linked, findComponents_correct counter_linked⟩

end Graph

end ValueRange
