import ValueRange.Proofs.Graph.Definitions
import ValueRange.Proofs.Graph.Formation

/-! The representation of a graph. Whatever calls are made and however they end, each value that was
added has a node of its own, each node knows the only operation that defines it, and its lists name
an operation once for each reading and each sigma that it bounds once. From the start of a solution
on, no call adds to any of this. -/

namespace ValueRange.Graph

variable {p : Program} {D : ValueId → Prop} {g g' : Graph} {n : NodeId} {o : OpId} {v : ValueId}

/-- The sink of an operation, if there is such an operation. -/
def sink? (g : Graph) (o : OpId) : Option NodeId := (g.ops[o]?).map (·.sink)

/-- The nodes that an operation reads, with repetitions. -/
def operands (g : Graph) (o : OpId) : List NodeId := ((g.ops[o]?).map (·.kind.operands)).getD []

/-- The node that bounds an operation, if that is a bounded sigma. -/
def bound? (g : Graph) (o : OpId) : Option NodeId :=
  (g.ops[o]?).bind fun op => op.kind.bound?.map (·.1)

/-- The graph is wired, no two nodes have the same value, and lists count each reading. -/
structure Indexed (g : Graph) : Prop extends Wired g where
  injective {n n' : NodeId} {v : ValueId} : g.valueAt? n = some v → g.valueAt? n' = some v → n = n'
  count_uses (n : NodeId) {o : OpId} {op : Operation} : g.ops[o]? = some op →
    (g.uses n).count o = op.kind.operands.count n
  bounds_nodup (n : NodeId) : (g.bounds n).Nodup
  started : g.solved = true → g.started = true

/-! ### Additions -/

section Steps

theorem uses_pushOperation {kind : Kind} (sink : NodeId) (r : Range)
    (hk : ∀ n ∈ kind.operands, n < g.nodes.size) (n : NodeId) :
    (g.pushOperation sink kind r).uses n =
      g.uses n ++ List.replicate (kind.operands.count n) g.ops.size := by
  unfold uses
  rw [nodes_pushOperation]
  cases hx : g.nodes[n]? with
  | none =>
    have hCount : kind.operands.count n = 0 := by
      refine List.count_eq_zero.mpr fun hn => ?_
      exact Nat.not_lt.mpr (Array.getElem?_eq_none_iff.mp hx) (hk n hn)
    rw [hCount]
    rfl
  | some x => rfl

theorem bounds_pushOperation {kind : Kind} (sink : NodeId) (r : Range)
    (hk : ∀ {n c}, kind.bound? = some (n, c) → n < g.nodes.size) (n : NodeId) :
    (g.pushOperation sink kind r).bounds n =
      g.bounds n ++ if kind.bound?.any (·.1 == n) then [g.ops.size] else [] := by
  unfold bounds
  rw [nodes_pushOperation]
  cases hx : g.nodes[n]? with
  | none =>
    have hNone : kind.bound?.any (·.1 == n) = false := by
      rw [Option.any_eq_false]
      rintro ⟨m, c⟩ hb
      refine beq_eq_false_iff_ne.mpr fun hm => ?_
      exact Nat.not_lt.mpr (Array.getElem?_eq_none_iff.mp hx) (hm ▸ hk hb)
    rw [hNone]
    rfl
  | some x => rfl

theorem uses_extendPhi {sources : List NodeId} (hs : ∀ n ∈ sources, n < g.nodes.size) (o : OpId)
    (n : NodeId) :
    (g.extendPhi o sources).uses n = g.uses n ++ List.replicate (sources.count n) o := by
  unfold uses
  rw [nodes_extendPhi]
  cases hx : g.nodes[n]? with
  | none =>
    have hCount : sources.count n = 0 := by
      refine List.count_eq_zero.mpr fun hn => ?_
      exact Nat.not_lt.mpr (Array.getElem?_eq_none_iff.mp hx) (hs n hn)
    rw [hCount]
    rfl
  | some x => rfl

/-- The phi reads the added sources as often as they are given. -/
theorem count_operands_withSources {o o' : OpId} {op : Operation} (hPhi : g.isPhi o = true)
    (ho : g.ops[o']? = some op) (sources : List NodeId) (n : NodeId) :
    (withSources o sources o' op).kind.operands.count n =
      op.kind.operands.count n + if o = o' then sources.count n else 0 := by
  obtain ⟨sink, kind, r⟩ := op
  by_cases he : o = o'
  · subst he
    cases kind with
    | phi old => simp [withSources, Kind.operands]
    | _ =>
      rw [isPhi, ho] at hPhi
      cases hPhi
  · cases kind <;> simp [withSources, he]

/-- The list of a node without an operation that is not there yet. -/
theorem Linked.count_size (h : Linked g) (n : NodeId) : (g.uses n).count g.ops.size = 0 := by
  refine List.count_eq_zero.mpr fun hMem => ?_
  obtain ⟨op, ho, -⟩ := (h.mem_uses n _).mp hMem
  exact Nat.lt_irrefl _ (Array.getElem?_eq_some_iff.mp ho).1

theorem Indexed.pushNode (h : Indexed g) (p : Program) (hNew : g.nodeOf? v = none) :
    Indexed { g with nodes := g.nodes.push (newNode p v) } where
  toWired := h.toWired.pushNode p v
  injective {n n' u} hn hn' := by
    have hNone (m : NodeId) (hm : g.valueAt? m = some v) : False := by
      rw [nodeOf?_of_unique (fun _ hm' => h.injective hm' hm) hm] at hNew
      cases hNew
    unfold Graph.valueAt? at hn hn'
    dsimp only at hn hn'
    rw [Array.getElem?_push] at hn hn'
    split at hn <;> split at hn'
    case isTrue.isTrue hSize hSize' => exact hSize.trans hSize'.symm
    case isTrue.isFalse =>
      cases hn
      exact (hNone n' hn').elim
    case isFalse.isTrue =>
      cases hn'
      exact (hNone n hn).elim
    case isFalse.isFalse => exact h.injective hn hn'
  count_uses n o op ho := by
    rw [← h.count_uses n ho]
    unfold uses
    dsimp only
    rw [Array.getElem?_push]
    split
    case isTrue hn =>
      rw [hn, Array.getElem?_eq_none (Nat.le_refl _)]
      rfl
    case isFalse => rfl
  bounds_nodup n := by
    unfold bounds
    dsimp only
    rw [Array.getElem?_push]
    split
    · exact List.nodup_nil
    · exact h.bounds_nodup n
  started := h.started

theorem Indexed.pushOperation (h : Indexed g) {sink : NodeId} {kind : Kind} {r : Range}
    (hs : sink < g.nodes.size) (hFree : g.definition sink = none)
    (hk : Admissible p g v kind r) : Indexed (g.pushOperation sink kind r) where
  toWired := h.toWired.pushOperation hs hFree hk
  injective hn hn' := by
    rw [Graph.valueAt?, nodes_pushOperation, Option.map_map] at hn hn'
    exact h.injective hn hn'
  count_uses n o op ho := by
    rw [uses_pushOperation sink r hk.operand_lt, List.count_append, List.count_replicate]
    rcases (ops_pushOperation g sink kind r o op).mp ho with ⟨rfl, rfl⟩ | ho
    · rw [h.count_size, beq_self_eq_true, if_pos rfl, Nat.zero_add]
    · have hNe : g.ops.size ≠ o := Nat.ne_of_gt (Array.getElem?_eq_some_iff.mp ho).1
      rw [h.count_uses n ho, beq_eq_false_iff_ne.mpr hNe]
      rfl
  bounds_nodup n := by
    rw [bounds_pushOperation sink r hk.bound_lt]
    split
    · refine List.nodup_append.mpr ⟨h.bounds_nodup n, List.nodup_singleton _, fun o ho o' ho' => ?_⟩
      obtain ⟨op, c, hOp, -⟩ := (h.mem_bounds n o).mp ho
      rw [List.mem_singleton.mp ho']
      exact Nat.ne_of_lt (Array.getElem?_eq_some_iff.mp hOp).1
    · rw [List.append_nil]
      exact h.bounds_nodup n
  started := h.started

theorem Indexed.extendPhi (h : Indexed g) {sources : List NodeId} (hPhi : g.isPhi o = true)
    (hs : ∀ n ∈ sources, n < g.nodes.size) : Indexed (g.extendPhi o sources) where
  toWired := h.toWired.extendPhi hPhi hs
  injective hn hn' := by
    rw [Graph.valueAt?, nodes_extendPhi, Option.map_map] at hn hn'
    exact h.injective hn hn'
  count_uses n o' op ho := by
    obtain ⟨old, hOld, rfl⟩ := (ops_extendPhi g o sources o' op).mp ho
    rw [uses_extendPhi hs, List.count_append, List.count_replicate, h.count_uses n hOld,
      count_operands_withSources hPhi hOld]
    simp only [beq_iff_eq]
  bounds_nodup n := by
    unfold bounds
    rw [nodes_extendPhi, Option.map_map]
    exact h.bounds_nodup n
  started := h.started

/-- One step of building keeps a graph indexed. -/
theorem Extension.indexed (h : Extension p D g g') (hg : Indexed g) : Indexed g' := by
  cases h with
  | value _ hNew => exact hg.pushNode p hNew
  | operation _ hSink _ hFree hKind => exact hg.pushOperation (lt_of_valueAt? hSink) hFree hKind
  | sources _ hPhi hSources => exact hg.extendPhi hPhi hSources
  | facts branches switches =>
    exact ⟨(Extension.facts (p := p) (D := D) branches switches).wired hg.toWired, hg.injective,
      hg.count_uses, hg.bounds_nodup, hg.started⟩

theorem indexed_empty (s : Sentinels) (o : Options) : Indexed (empty s o) where
  toWired := wired_empty s o
  injective := nofun
  count_uses _ _ _ ho := by simp [empty] at ho
  bounds_nodup n := by
    unfold bounds
    exact List.nodup_nil
  started := nofun

end Steps

/-! ### Contents -/

/-- The graphs have the same nodes, and the same operations with the same sinks and sources. -/
structure SameContents (g g' : Graph) : Prop where
  valueAt? (n : NodeId) : g'.valueAt? n = g.valueAt? n
  kind (o : OpId) : (g'.ops[o]?).map (fun op => (op.sink, op.kind)) =
    (g.ops[o]?).map fun op => (op.sink, op.kind)

namespace SameContents

variable {g'' : Graph}

theorem refl (g : Graph) : SameContents g g := ⟨fun _ => rfl, fun _ => rfl⟩

theorem trans (h : SameContents g g') (h' : SameContents g' g'') : SameContents g g'' :=
  ⟨fun n => (h'.valueAt? n).trans (h.valueAt? n), fun o => (h'.kind o).trans (h.kind o)⟩

theorem of_shape (h : g'.shape = g.shape) : SameContents g g' where
  valueAt? n := map_of_shape (fun _ => rfl) h n
  kind o := by
    have hShape (x : Option Operation) : x.map (fun op => (op.sink, op.kind)) =
        (x.map Operation.shape).map fun op => (op.sink, op.kind) := by
      cases x <;> rfl
    rw [hShape, hShape (g.ops[o]?), ← ops_shape, ← ops_shape, h]

end SameContents

theorem Indexed.of_shape (h : Indexed g) (hShape : g'.shape = g.shape) : Indexed g' where
  toWired := h.toWired.of_shape hShape
  injective hn hn' := by
    rw [(SameContents.of_shape hShape).valueAt?] at hn hn'
    exact h.injective hn hn'
  count_uses n o op ho := by
    obtain ⟨old, hOld, -, hKind⟩ := op_of_shape hShape ho
    rw [uses_of_shape hShape, ← hKind]
    exact h.count_uses n hOld
  bounds_nodup n := by
    rw [bounds_of_shape hShape]
    exact h.bounds_nodup n
  started hs := by
    have hStarted : g'.started = g.started := congrArg (·.started) hShape
    have hSolved : g'.solved = g.solved := congrArg (·.solved) hShape
    exact hStarted.trans (h.started (hSolved.symm.trans hs))

/-- The first ranges change neither the index nor the contents. -/
theorem Indexed.seed (h : Indexed g) :
    Indexed g.seed ∧ SameContents g g.seed ∧ g.seed.started = true := by
  cases hs : g.started with
  | true =>
    rw [Graph.seed, hs, if_pos rfl]
    exact ⟨h, .refl g, hs⟩
  | false =>
    have hBegun : Indexed { g with started := true } :=
      ⟨⟨⟨h.sink_lt, h.operand_lt, h.bound_lt, h.mem_uses, h.mem_bounds⟩, h.definition_iff⟩,
        h.injective, h.count_uses, h.bounds_nodup, fun _ => rfl⟩
    have hShape : g.seed.shape = Graph.shape { g with started := true } := by
      have hNodes : g.seed.nodes.map Node.shape = g.nodes.map Node.shape := by
        rw [seed_of_not_started hs, Array.map_map]
        rfl
      rw [shape, hNodes, seed_of_not_started hs]
      rfl
    obtain ⟨hValues, hKinds⟩ := SameContents.of_shape hShape
    exact ⟨hBegun.of_shape hShape, ⟨hValues, hKinds⟩, congrArg (·.started) hShape⟩

/-- One write of a solution changes neither the index nor the contents. -/
theorem Indexed.write (h : Indexed g) (hStarted : g.started = true) (hWrite : Write g g') :
    Indexed g' ∧ SameContents g g' ∧ g'.started = true := by
  have hShape (hShape : g'.shape = g.shape) : Indexed g' ∧ SameContents g g' ∧ g'.started = true :=
    ⟨h.of_shape hShape, .of_shape hShape, Eq.trans (congrArg (·.started) hShape) hStarted⟩
  have hSame : Wired { g with components := g'.components, solved := g'.solved } :=
    ⟨⟨h.sink_lt, h.operand_lt, h.bound_lt, h.mem_uses, h.mem_bounds⟩, h.definition_iff⟩
  cases hWrite with
  | arrange cs =>
    exact ⟨⟨hSame, h.injective, h.count_uses, h.bounds_nodup, h.started⟩,
      ⟨fun _ => rfl, fun _ => rfl⟩, hStarted⟩
  | finish =>
    exact ⟨⟨hSame, h.injective, h.count_uses, h.bounds_nodup, fun _ => hStarted⟩,
      ⟨fun _ => rfl, fun _ => rfl⟩, hStarted⟩
  | turn _ _ _ => exact hShape (shape_setRange g _ _)
  | freeze comp => exact hShape (shape_freeze comp g)
  | resolve n o => exact hShape (shape_resolve g n o)
  | assign o => exact hShape (shape_assign g o)
  | record pos comp phase => exact hShape (shape_record pos comp phase g)

theorem Indexed.writes (h : Indexed g) (hStarted : g.started = true) (hWrites : Writes g g') :
    Indexed g' ∧ SameContents g g' ∧ g'.started = true := by
  induction hWrites with
  | refl => exact ⟨h, .refl g, hStarted⟩
  | tail _ hWrite ih =>
    obtain ⟨hIndexed, hSame, hStarted'⟩ := ih
    obtain ⟨hIndexed', hSame', hStarted''⟩ := hIndexed.write hStarted' hWrite
    exact ⟨hIndexed', hSame.trans hSame', hStarted''⟩

/-! ### Calls -/

theorem Indexed.solve (h : Indexed g) : Indexed (solve.run.run g).2 ∧
    SameContents g (solve.run.run g).2 ∧ (solve.run.run g).2.started = true := by
  cases hs : g.solved with
  | true =>
    unfold Graph.solve
    rw [run_get_bind, hs, if_pos rfl]
    exact ⟨h, .refl g, h.started hs⟩
  | false =>
    obtain ⟨hSeed, hSame, hStarted⟩ := h.seed
    obtain ⟨hIndexed, hSame', hStarted'⟩ := hSeed.writes hStarted (writes_solve hs)
    exact ⟨hIndexed, hSame.trans hSame', hStarted'⟩

/-- A call that does not solve the graph builds it by steps, in which it may define any value. -/
theorem Call.growth (h : Call g g') :
    (∃ p, Growth p (fun _ => True) g g') ∨ g' = (Graph.solve.run.run g).2 := by
  have hAll (p : Program) : Definable p fun _ => True := ⟨fun _ _ _ => trivial, fun _ _ => trivial⟩
  cases h with
  | addValue p v => exact .inl ⟨p, (addValue_grows p _ g v).1⟩
  | addInstr p b i => exact .inl ⟨p, (addInstr_extends fun _ _ _ => trivial).1⟩
  | addBranch p b => exact .inl ⟨p, (addBranch_extends b).1⟩
  | addBinding p v sources => exact .inl ⟨p, (addBinding_extends trivial).1⟩
  | addFunction p f => exact .inl ⟨p, ((hAll p).addFunction f).1⟩
  | addModule p k => exact .inl ⟨p, ((hAll p).addModule k).1⟩
  | solve => exact .inr rfl

theorem Growth.indexed (h : Growth p D g g') (hg : Indexed g) : Indexed g' := by
  induction h with
  | refl => exact hg
  | tail _ hStep ih => exact hStep.indexed ih

/-- Building a graph whose solution is started adds only facts about branches. -/
theorem Growth.sameContents (h : Growth p D g g') (hStarted : g.started = true) :
    SameContents g g' := by
  induction h with
  | refl => exact .refl g
  | tail hGrow hStep ih =>
    have hClosed := (Growth.sameFrame hGrow).started.trans hStarted
    cases hStep with
    | value hOpen _ | operation hOpen _ _ _ _ | sources hOpen _ _ =>
      rw [hOpen] at hClosed
      cases hClosed
    | facts branches switches => exact ih.trans ⟨fun _ => rfl, fun _ => rfl⟩

theorem Indexed.call (h : Indexed g) (hCall : Call g g') : Indexed g' := by
  rcases hCall.growth with ⟨p, hGrow⟩ | rfl
  · exact hGrow.indexed h
  · exact h.solve.1

theorem Session.indexed (h : Session g) : Indexed g := by
  obtain ⟨s, o, hCalls⟩ := h
  induction hCalls with
  | refl => exact indexed_empty s o
  | tail _ hCall ih => exact ih.call hCall

theorem Indexed.nodeOf?_iff (h : Indexed g) : g.nodeOf? v = some n ↔ g.valueAt? n = some v :=
  ⟨valueAt?_of_nodeOf?, fun hn => nodeOf?_of_unique (fun _ hn' => h.injective hn' hn) hn⟩

/-- A value keeps its node. -/
theorem Indexed.nodeOf?_call (h : Indexed g) (hCall : Call g g') (hn : g.nodeOf? v = some n) :
    g'.nodeOf? v = some n := by
  rw [(h.call hCall).nodeOf?_iff]
  rw [h.nodeOf?_iff] at hn
  rcases hCall.growth with ⟨p, hGrow⟩ | rfl
  · exact hGrow.valueAt? hn
  · exact (h.solve.2.1.valueAt? n).trans hn

theorem Indexed.sameContents_call (h : Indexed g) (hCall : Call g g') (hStarted : g.started = true) :
    SameContents g g' ∧ g'.started = true := by
  rcases hCall.growth with ⟨p, hGrow⟩ | rfl
  · exact ⟨hGrow.sameContents hStarted, hGrow.sameFrame.started.trans hStarted⟩
  · exact h.solve.2

theorem Indexed.existsUnique_value (h : Indexed g) (hn : n < g.nodes.size) :
    ∃! v, g.nodeOf? v = some n := by
  have hValue : g.valueAt? n = some (g.nodes[n]).value := by
    rw [valueAt?, Array.getElem?_eq_getElem hn]
    rfl
  refine ⟨(g.nodes[n]).value, h.nodeOf?_iff.mpr hValue, fun v hv => ?_⟩
  exact Option.some.inj ((h.nodeOf?_iff.mp hv).symm.trans hValue)

theorem Indexed.definition_iff_sink? (h : Indexed g) :
    g.definition n = some o ↔ g.sink? o = some n := by
  rw [h.definition_iff, sink?, Option.map_eq_some_iff]

theorem Indexed.count_uses_eq (h : Indexed g) (n : NodeId) (o : OpId) :
    (g.uses n).count o = (g.operands o).count n := by
  unfold operands
  cases ho : g.ops[o]? with
  | some op => exact h.count_uses n ho
  | none =>
    refine List.count_eq_zero.mpr fun hMem => ?_
    obtain ⟨op, hOp, -⟩ := (h.mem_uses n o).mp hMem
    cases ho.symm.trans hOp

theorem bound?_eq_some_iff :
    g.bound? o = some n ↔ ∃ op c, g.ops[o]? = some op ∧ op.kind.bound? = some (n, c) := by
  simp only [bound?, Option.bind_eq_some_iff, Option.map_eq_some_iff, Prod.exists]
  constructor
  · rintro ⟨op, ho, m, c, hb, rfl⟩
    exact ⟨op, c, ho, hb⟩
  · rintro ⟨op, c, ho, hb⟩
    exact ⟨op, ho, n, c, hb, rfl⟩

theorem Indexed.count_bounds (h : Indexed g) (n : NodeId) (o : OpId) :
    (g.bounds n).count o = if g.bound? o = some n then 1 else 0 := by
  have hMem : o ∈ g.bounds n ↔ g.bound? o = some n := by rw [h.mem_bounds, bound?_eq_some_iff]
  split
  case isTrue hb => exact List.count_eq_one_of_mem (h.bounds_nodup n) (hMem.mpr hb)
  case isFalse hb => exact List.count_eq_zero.mpr fun hb' => hb (hMem.mp hb')

/-- All nodes that an operation names are there. -/
theorem Indexed.lt_size (h : Indexed g)
    (hn : g.sink? o = some n ∨ n ∈ g.operands o ∨ g.bound? o = some n) : n < g.nodes.size := by
  rcases hn with hn | hn | hn
  · obtain ⟨op, ho, rfl⟩ := Option.map_eq_some_iff.mp hn
    exact h.sink_lt ho
  · unfold operands at hn
    cases ho : g.ops[o]? with
    | none =>
      rw [ho] at hn
      cases hn
    | some op =>
      rw [ho] at hn
      exact h.operand_lt ho hn
  · obtain ⟨op, c, ho, hb⟩ := bound?_eq_some_iff.mp hn
    exact h.bound_lt ho hb

/-- Only nodes that are there list operations, and only operations that are there are listed. -/
theorem Indexed.listed_lt (h : Indexed g) (ho : o ∈ g.uses n ∨ o ∈ g.bounds n) :
    n < g.nodes.size ∧ o < g.ops.size := by
  rcases ho with ho | ho
  · obtain ⟨op, hOp, hn⟩ := (h.mem_uses n o).mp ho
    exact ⟨h.operand_lt hOp hn, (Array.getElem?_eq_some_iff.mp hOp).1⟩
  · obtain ⟨op, c, hOp, hb⟩ := (h.mem_bounds n o).mp ho
    exact ⟨h.bound_lt hOp hb, (Array.getElem?_eq_some_iff.mp hOp).1⟩

/-- In a graph that any calls left behind, the values that were added and the nodes correspond one to
one, and a value keeps its node. A node is defined by the operation whose sink it is, lists an
operation as often as that reads it, and lists once each sigma that it bounds; all nodes that
operations name are there, and so are all operations that nodes list. A node holds its own value and
its own two lists, so that no map and no arrays beside the nodes can have another size. Once a
solution is started, which every call to solve does, no call adds a node, an operation or an
operand. -/
theorem representation_kept (hg : Session g) :
    ((∀ v n, g.nodeOf? v = some n → n < g.nodes.size) ∧
      (∀ n < g.nodes.size, ∃! v, g.nodeOf? v = some n) ∧
      ∀ p v n, ((addValue p v).run.run g).1 = .ok n →
        ((addValue p v).run.run g).2.nodeOf? v = some n) ∧
    (∀ n o, g.definition n = some o ↔ g.sink? o = some n) ∧
    (∀ n o, (g.uses n).count o = (g.operands o).count n) ∧
    (∀ n o, (g.bounds n).count o = if g.bound? o = some n then 1 else 0) ∧
    (∀ o n, g.sink? o = some n ∨ n ∈ g.operands o ∨ g.bound? o = some n → n < g.nodes.size) ∧
    (∀ n o, o ∈ g.uses n ∨ o ∈ g.bounds n → n < g.nodes.size ∧ o < g.ops.size) ∧
    (∀ g', Call g g' → ∀ v n, g.nodeOf? v = some n → g'.nodeOf? v = some n) ∧
    (solve.run.run g).2.started = true ∧
    (g.started = true → ∀ g', Call g g' → SameContents g g' ∧ g'.started = true) := by
  have h := hg.indexed
  refine ⟨⟨fun v n hn => ?_, fun n hn => h.existsUnique_value hn, fun p v n hn => ?_⟩,
    fun n o => h.definition_iff_sink?, h.count_uses_eq, h.count_bounds, fun o n => h.lt_size,
    fun n o => h.listed_lt, fun g' hCall v n => h.nodeOf?_call hCall, h.solve.2.2,
    fun hStarted g' hCall => ?_⟩
  · exact lt_of_valueAt? (valueAt?_of_nodeOf? hn)
  · rw [(h.call (.addValue p v g)).nodeOf?_iff]
    exact (addValue_extends p (fun _ => True) g v).2 n hn
  · exact h.sameContents_call hCall hStarted

/-- The loop that counts up, to which nothing more is added once it is solved. -/
theorem looping_represented :
    Session (solve.run.run looping).2 ∧ (∃! v, looping.nodeOf? v = some 3) ∧
      (∀ o, (looping.uses 3).count o = (looping.operands o).count 3) ∧
      SameContents (solve.run.run looping).2
        ((addFunction Program.descending 0).run.run (solve.run.run looping).2).2 := by
  have hSession : Session looping :=
    Built.session (p := Program.counting) ⟨⟨.crop, 0, false⟩, .inl ⟨0, rfl⟩⟩
  have hSolved : Session (solve.run.run looping).2 := by
    obtain ⟨s, o, hCalls⟩ := hSession
    exact ⟨s, o, hCalls.tail (.solve looping)⟩
  obtain ⟨⟨-, hValue, -⟩, -, hUses, -, -, -, -, hStarted, -⟩ := representation_kept hSession
  obtain ⟨-, -, -, -, -, -, -, -, hFrozen⟩ := representation_kept hSolved
  exact ⟨hSolved, hValue 3 (by decide +kernel), hUses 3,
    (hFrozen hStarted _ (.addFunction Program.descending 0 _)).1⟩

end ValueRange.Graph
