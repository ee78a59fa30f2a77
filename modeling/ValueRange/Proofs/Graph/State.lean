import ValueRange.Graph.Solve
import ValueRange.Proofs.Graph.Evaluation
import ValueRange.Proofs.Graph.Wiring

/-! The state of a solution: the ranges and trends of the nodes and the intersections of the
operations. The rest of a graph is its shape, which solving keeps. -/

namespace ValueRange

/-- A node without its state. -/
def Node.shape (x : Node) : Node := { x with range := default, trend := none }

/-- An operation without its state. -/
def Operation.shape (op : Operation) : Operation := { op with intersect := default }

namespace Graph

variable {g g' : Graph} {n m : NodeId} {o : OpId} {op : Operation} {r : Range}

/-- A graph without its state and its log. -/
def shape (g : Graph) : Graph :=
  { g with nodes := g.nodes.map Node.shape, ops := g.ops.map Operation.shape, log := #[] }

section Shape

theorem getElem?_shape (g : Graph) (n : NodeId) :
    g.shape.nodes[n]? = (g.nodes[n]?).map Node.shape := Array.getElem?_map

theorem ops_shape (g : Graph) (o : OpId) :
    g.shape.ops[o]? = (g.ops[o]?).map Operation.shape := Array.getElem?_map

theorem sentinels_of_shape (h : g'.shape = g.shape) : g'.sentinels = g.sentinels :=
  congrArg (·.sentinels) h

theorem narrowing_of_shape (h : g'.shape = g.shape) : g'.narrowing = g.narrowing :=
  congrArg (·.narrowing) h

theorem components_of_shape (h : g'.shape = g.shape) : g'.components = g.components :=
  congrArg (·.components) h

theorem size_of_shape (h : g'.shape = g.shape) : g'.nodes.size = g.nodes.size := by
  have hSize := congrArg (fun g : Graph => g.nodes.size) h
  simpa [shape] using hSize

theorem ops_size_of_shape (h : g'.shape = g.shape) : g'.ops.size = g.ops.size := by
  have hSize := congrArg (fun g : Graph => g.ops.size) h
  simpa [shape] using hSize

theorem node_of_shape (h : g'.shape = g.shape) (n : NodeId) :
    (g'.nodes[n]?).map Node.shape = (g.nodes[n]?).map Node.shape := by
  rw [← getElem?_shape, ← getElem?_shape, h]

/-- What a graph says of a node apart from its state depends on the shape only. -/
theorem map_of_shape {α : Type} {f : Node → α} (hf : ∀ x, f x = f x.shape)
    (h : g'.shape = g.shape) (n : NodeId) : (g'.nodes[n]?).map f = (g.nodes[n]?).map f := by
  have hShape (x : Option Node) : x.map f = (x.map Node.shape).map f := by
    cases x with
    | none => rfl
    | some x => exact congrArg some (hf x)
  rw [hShape, hShape (g.nodes[n]?), node_of_shape h n]

theorem typeOf_of_shape (h : g'.shape = g.shape) (n : NodeId) : g'.typeOf n = g.typeOf n := by
  rw [typeOf, typeOf, map_of_shape (fun _ => rfl) h n]

theorem uses_of_shape (h : g'.shape = g.shape) (n : NodeId) : g'.uses n = g.uses n := by
  rw [uses, uses, map_of_shape (fun _ => rfl) h n]

theorem bounds_of_shape (h : g'.shape = g.shape) (n : NodeId) : g'.bounds n = g.bounds n := by
  rw [bounds, bounds, map_of_shape (fun _ => rfl) h n]

theorem definition_of_shape (h : g'.shape = g.shape) (n : NodeId) :
    g'.definition n = g.definition n := by
  have hJoin (x : Option Node) : x.bind (·.definition) = (x.map (·.definition)).join := by
    cases x <;> rfl
  rw [definition, definition, hJoin, hJoin, map_of_shape (fun _ => rfl) h n]

/-- An operation keeps its sink and its kind. -/
theorem op_of_shape (h : g'.shape = g.shape) (ho : g'.ops[o]? = some op) :
    ∃ old, g.ops[o]? = some old ∧ old.sink = op.sink ∧ old.kind = op.kind := by
  have hMap : (g'.ops[o]?).map Operation.shape = (g.ops[o]?).map Operation.shape := by
    rw [← ops_shape, ← ops_shape, h]
  rw [ho, Option.map_some] at hMap
  obtain ⟨old, hOld, hSame⟩ := Option.map_eq_some_iff.mp hMap.symm
  exact ⟨old, hOld, congrArg (·.sink) hSame, congrArg (·.kind) hSame⟩

theorem sink_of_shape (h : g'.shape = g.shape) (o : OpId) : g'.sink o = g.sink o := by
  unfold sink
  cases ho : g'.ops[o]? with
  | none =>
    have hNone : g.ops[o]? = none := by
      rw [Array.getElem?_eq_none_iff, ← ops_size_of_shape h, ← Array.getElem?_eq_none_iff]
      exact ho
    rw [hNone]
  | some op =>
    obtain ⟨old, hOld, hSink, -⟩ := op_of_shape h ho
    simp [hOld, hSink]

theorem Linked.of_shape (h : g'.shape = g.shape) (hg : Linked g) : Linked g' := by
  refine ⟨fun ho => ?_, fun ho hn => ?_, fun ho hb => ?_, fun n o => ?_, fun n o => ?_⟩
  · obtain ⟨old, hOld, hSink, -⟩ := op_of_shape h ho
    rw [size_of_shape h, ← hSink]
    exact hg.sink_lt hOld
  · obtain ⟨old, hOld, -, hKind⟩ := op_of_shape h ho
    rw [size_of_shape h]
    exact hg.operand_lt hOld (hKind ▸ hn)
  · obtain ⟨old, hOld, -, hKind⟩ := op_of_shape h ho
    rw [size_of_shape h]
    exact hg.bound_lt hOld (hKind ▸ hb)
  · rw [uses_of_shape h, hg.mem_uses]
    constructor
    · rintro ⟨op, ho, hn⟩
      obtain ⟨new, hNew, -, hKind⟩ := op_of_shape h.symm ho
      exact ⟨new, hNew, hKind ▸ hn⟩
    · rintro ⟨op, ho, hn⟩
      obtain ⟨old, hOld, -, hKind⟩ := op_of_shape h ho
      exact ⟨old, hOld, hKind ▸ hn⟩
  · rw [bounds_of_shape h, hg.mem_bounds]
    constructor
    · rintro ⟨op, c, ho, hb⟩
      obtain ⟨new, hNew, -, hKind⟩ := op_of_shape h.symm ho
      exact ⟨new, c, hNew, hKind ▸ hb⟩
    · rintro ⟨op, c, ho, hb⟩
      obtain ⟨old, hOld, -, hKind⟩ := op_of_shape h ho
      exact ⟨old, c, hOld, hKind ▸ hb⟩

theorem Wired.of_shape (h : g'.shape = g.shape) (hg : Wired g) : Wired g' := by
  refine ⟨hg.toLinked.of_shape h, fun n o => ?_⟩
  rw [definition_of_shape h, hg.definition_iff]
  constructor
  · rintro ⟨op, ho, rfl⟩
    obtain ⟨new, hNew, hSink, -⟩ := op_of_shape h.symm ho
    exact ⟨new, hNew, hSink⟩
  · rintro ⟨op, ho, rfl⟩
    obtain ⟨old, hOld, hSink, -⟩ := op_of_shape h ho
    exact ⟨old, hOld, hSink⟩

/-- The range of an operation depends on the sentinels, the type of its sink, the ranges of its
sources, and its intersection. -/
theorem eval_eq_eval (op : Operation) (hs : g'.sentinels = g.sentinels)
    (ht : g'.typeOf op.sink = g.typeOf op.sink)
    (hRange : ∀ n ∈ op.kind.operands, g'.range n = g.range n) : g'.eval op = g.eval op := by
  have hKind : g'.evalKind op.sink op.kind = g.evalKind op.sink op.kind := by
    cases hk : op.kind with
    | unary u source t t' =>
      rw [evalKind, evalKind, hRange source (by simp [hk, Kind.operands])]
    | sigma source bound =>
      rw [evalKind, evalKind, hRange source (by simp [hk, Kind.operands])]
    | binary b lhs rhs =>
      rw [evalKind, evalKind, hRange lhs (by simp [hk, Kind.operands]),
        hRange rhs (by simp [hk, Kind.operands]), hs, ht]
    | phi sources =>
      rw [evalKind, evalKind, hs]
      congr 1
      exact List.map_congr_left fun n hn => hRange n (by simpa [hk, Kind.operands] using hn)
  unfold eval
  rw [hKind]

theorem eval_congr (h : g'.shape = g.shape) (op : Operation)
    (hRange : ∀ n ∈ op.kind.operands, g'.range n = g.range n) : g'.eval op = g.eval op :=
  eval_eq_eval op (sentinels_of_shape h) (typeOf_of_shape h op.sink) hRange

end Shape

section Updates

theorem shape_setRange (g : Graph) (n : NodeId) (r : Range) : (g.setRange n r).shape = g.shape := by
  have hNodes : (g.setRange n r).shape.nodes = g.shape.nodes := by
    refine Array.ext_getElem? fun m => ?_
    rw [getElem?_shape, getElem?_shape, setRange, Array.getElem?_modify]
    split
    · cases g.nodes[m]? <;> rfl
    · rfl
  unfold shape at hNodes ⊢
  simp only at hNodes
  rw [hNodes]
  rfl

theorem range_setRange_of_ne (g : Graph) (r : Range) (h : m ≠ n) :
    (g.setRange n r).range m = g.range m := by
  unfold setRange range range?
  rw [Array.getElem?_modify, if_neg (Ne.symm h)]

theorem range_setRange (hn : n < g.nodes.size) (r : Range) (m : NodeId) :
    (g.setRange n r).range m = if m = n then r else g.range m := by
  split
  case isTrue h =>
    subst h
    unfold setRange range range?
    rw [Array.getElem?_modify, if_pos rfl, Array.getElem?_eq_getElem hn]
    rfl
  case isFalse h => exact range_setRange_of_ne g r h

theorem range_of_size_le (hn : g.nodes.size ≤ n) : g.range n = g.sentinels.max := by
  simp [range, range?, Array.getElem?_eq_none hn]

theorem trend_setRange (g : Graph) (n : NodeId) (r : Range) (m : NodeId) :
    (g.setRange n r).trend m = g.trend m := by
  unfold setRange trend
  rw [Array.getElem?_modify]
  split
  · cases g.nodes[m]? <;> rfl
  · rfl

theorem Regular.setRange (h : Regular g) (n : NodeId) (hr : Range.WellFormed g.sentinels r) :
    Regular (g.setRange n r) := by
  refine ⟨fun m => ?_⟩
  by_cases hm : m = n
  · subst hm
    by_cases hn : m < g.nodes.size
    · rw [range_setRange hn, if_pos rfl]
      exact hr
    · rw [range_of_size_le (by simpa [Graph.setRange] using hn)]
      exact .max g.sentinels
  · rw [range_setRange_of_ne g r hm]
    exact h.range m

theorem shape_setIntersect (g : Graph) (o : OpId) (r : Range) :
    (g.setIntersect o r).shape = g.shape := by
  have hOps : (g.setIntersect o r).shape.ops = g.shape.ops := by
    refine Array.ext_getElem? fun k => ?_
    rw [ops_shape, ops_shape, setIntersect, Array.getElem?_modify]
    split
    · cases g.ops[k]? <;> rfl
    · rfl
  unfold shape at hOps ⊢
  simp only at hOps
  rw [hOps]
  rfl

theorem ops_setIntersect (g : Graph) (o : OpId) (r : Range) (k : OpId) :
    (g.setIntersect o r).ops[k]? =
      (g.ops[k]?).map fun op => if k = o then { op with intersect := r } else op := by
  rw [setIntersect, Array.getElem?_modify]
  by_cases h : o = k
  · simp [h]
  · simp [h, Ne.symm h]

theorem shape_resolve (g : Graph) (n : NodeId) (o : OpId) : (g.resolve n o).shape = g.shape := by
  unfold resolve
  split
  · exact shape_setIntersect g o _
  · rfl

theorem nodes_resolve (g : Graph) (n : NodeId) (o : OpId) : (g.resolve n o).nodes = g.nodes := by
  unfold resolve
  split <;> rfl

theorem shape_resolveBounds (test : Graph → OpId → Bool) (comp : List NodeId) (g : Graph) :
    (g.resolveBounds test comp).shape = g.shape := by
  have hInner (n : NodeId) (os : List OpId) (g : Graph) :
      (os.foldl (fun g o => if test g o then g.resolve n o else g) g).shape = g.shape := by
    induction os generalizing g with
    | nil => rfl
    | cons o os ih =>
      rw [List.foldl_cons, ih]
      split
      · exact shape_resolve g n o
      · rfl
  unfold resolveBounds
  induction comp generalizing g with
  | nil => rfl
  | cons n comp ih => rw [List.foldl_cons, ih, hInner]

theorem shape_assign (g : Graph) (o : OpId) : (g.assign o).shape = g.shape := by
  unfold assign
  split
  · exact shape_setRange g _ _
  · rfl

theorem shape_freeze (comp : List NodeId) (g : Graph) : (g.freeze comp).shape = g.shape := by
  have hFold (nodes : Array Node) :
      (comp.foldl (fun ns n => ns.modify n (freezeNode g.sentinels)) nodes).map Node.shape =
        nodes.map Node.shape := by
    induction comp generalizing nodes with
    | nil => rfl
    | cons n comp ih =>
      rw [List.foldl_cons, ih]
      refine Array.ext_getElem? fun m => ?_
      rw [Array.getElem?_map, Array.getElem?_map, Array.getElem?_modify]
      split
      · cases nodes[m]? <;> rfl
      · rfl
  unfold freeze shape
  simp only [hFold]

theorem range?_freeze (comp : List NodeId) (g : Graph) (m : NodeId) :
    (g.freeze comp).range? m = g.range? m := by
  have hFold (nodes : Array Node) :
      ((comp.foldl (fun ns n => ns.modify n (freezeNode g.sentinels)) nodes)[m]?).bind (·.range) =
        (nodes[m]?).bind (·.range) := by
    induction comp generalizing nodes with
    | nil => rfl
    | cons n comp ih =>
      rw [List.foldl_cons, ih, Array.getElem?_modify]
      split
      · cases nodes[m]? <;> rfl
      · rfl
  exact hFold g.nodes

theorem range_freeze (comp : List NodeId) (g : Graph) (m : NodeId) :
    (g.freeze comp).range m = g.range m :=
  congrArg (·.getD g.sentinels.max) (range?_freeze comp g m)

theorem shape_record (pos : Nat) (comp : List NodeId) (phase : Phase) (g : Graph) :
    (g.record pos comp phase).shape = g.shape := by
  unfold record
  split <;> rfl

theorem nodes_record (pos : Nat) (comp : List NodeId) (phase : Phase) (g : Graph) :
    (g.record pos comp phase).nodes = g.nodes := by
  unfold record
  split <;> rfl

theorem ops_record (pos : Nat) (comp : List NodeId) (phase : Phase) (g : Graph) :
    (g.record pos comp phase).ops = g.ops := by
  unfold record
  split <;> rfl

end Updates

section Passes

/-- A pass over the operations that the nodes of a list know is one pass over pairs. -/
theorem foldl_pairs (f : Graph → NodeId → List OpId) (step : Graph → NodeId × OpId → Graph)
    (hf : ∀ {g g' : Graph}, g'.shape = g.shape → f g' = f g)
    (hStep : ∀ g p, (step g p).shape = g.shape) (comp : List NodeId) (g : Graph) :
    comp.foldl (fun g n => (f g n).foldl (fun g o => step g (n, o)) g) g =
      (comp.flatMap fun n => (f g n).map fun o => (n, o)).foldl step g := by
  have hFold (ps : List (NodeId × OpId)) (g : Graph) : (ps.foldl step g).shape = g.shape := by
    induction ps generalizing g with
    | nil => rfl
    | cons p ps ih => rw [List.foldl_cons, ih, hStep]
  induction comp generalizing g with
  | nil => rfl
  | cons n comp ih =>
    rw [List.foldl_cons, List.flatMap_cons, List.foldl_append, List.foldl_map, ih]
    have hSame := hf (hFold ((f g n).map fun o => (n, o)) g)
    rw [List.foldl_map] at hSame
    rw [hSame]

/-- A pass that skips what fails a test of the shape is a pass over the rest. -/
theorem foldl_filter {α : Type} (test : Graph → α → Bool) (step : Graph → α → Graph)
    (hTest : ∀ {g g' : Graph}, g'.shape = g.shape → test g' = test g)
    (hStep : ∀ g x, (step g x).shape = g.shape) (xs : List α) (g : Graph) :
    xs.foldl (fun g x => if test g x then step g x else g) g =
      (xs.filter (test g)).foldl step g := by
  induction xs generalizing g with
  | nil => rfl
  | cons x xs ih =>
    rw [List.foldl_cons, ih, List.filter_cons]
    split
    · rw [hTest (hStep g x)]
      rfl
    · rfl

/-- The sigmas that the nodes of a list bound, each with its bound. -/
def boundPairs (g : Graph) (comp : List NodeId) : List (NodeId × OpId) :=
  comp.flatMap fun n => (g.bounds n).map fun o => (n, o)

theorem resolveBounds_eq {test : Graph → OpId → Bool}
    (hTest : ∀ {g g' : Graph}, g'.shape = g.shape → test g' = test g) (comp : List NodeId)
    (g : Graph) : g.resolveBounds test comp =
      ((g.boundPairs comp).filter fun p => test g p.2).foldl (fun g p => g.resolve p.1 p.2) g := by
  rw [← foldl_filter (fun g (p : NodeId × OpId) => test g p.2) (fun g p => g.resolve p.1 p.2)
    (fun h => by rw [hTest h]) fun g p => shape_resolve g p.1 p.2]
  refine foldl_pairs bounds (fun g p => if test g p.2 then g.resolve p.1 p.2 else g)
    (fun h => funext (bounds_of_shape h)) (fun g p => ?_) comp g
  split
  · exact shape_resolve g p.1 p.2
  · rfl

theorem range_of_nodes (hNodes : g'.nodes = g.nodes) (hs : g'.sentinels = g.sentinels)
    (n : NodeId) : g'.range n = g.range n := by
  unfold range range?
  rw [hNodes, hs]

/-- The graphs differ at most in their trends and their logs. -/
structure SameState (g g' : Graph) : Prop where
  shape : g'.shape = g.shape
  range (n : NodeId) : g'.range n = g.range n
  ops : g'.ops = g.ops

theorem SameState.trans {g'' : Graph} (h : SameState g g') (h' : SameState g' g'') :
    SameState g g'' :=
  ⟨h'.shape.trans h.shape, fun n => (h'.range n).trans (h.range n), h'.ops.trans h.ops⟩

theorem SameState.regular (h : SameState g g') (hg : Regular g) : Regular g' := by
  refine ⟨fun n => ?_⟩
  rw [h.range, sentinels_of_shape h.shape]
  exact hg.range n

theorem sameState_record (pos : Nat) (comp : List NodeId) (phase : Phase) (g : Graph) :
    SameState g (g.record pos comp phase) := by
  have hShape := shape_record pos comp phase g
  exact ⟨hShape, range_of_nodes (nodes_record pos comp phase g) (sentinels_of_shape hShape),
    ops_record pos comp phase g⟩

theorem sameState_freeze (comp : List NodeId) (g : Graph) : SameState g (g.freeze comp) :=
  ⟨shape_freeze comp g, range_freeze comp g, rfl⟩

/-- Only a sigma is bounded. -/
theorem exists_sigma_of_bound? {kind : Kind} {b : NodeId} {c : Comparison}
    (h : kind.bound? = some (b, c)) : ∃ a, kind = .sigma a (some (b, c)) := by
  cases kind with
  | sigma a bound => exact ⟨a, congrArg _ h⟩
  | unary | binary | phi => cases h

/-- What resolving leaves: the sigmas that are picked have the region of their bound's range for
their intersection, and nothing else changes. -/
structure Resolved (g g' : Graph) (picks : NodeId → OpId → Prop) : Prop where
  shape : g'.shape = g.shape
  range (n : NodeId) : g'.range n = g.range n
  hit {o : OpId} {op : Operation} {b : NodeId} {c : Comparison} : g.ops[o]? = some op →
    op.kind.bound? = some (b, c) → picks b o →
      g'.ops[o]? = some { op with intersect := Range.region g.sentinels c (g.range b) }
  miss {o : OpId} {op : Operation} : g.ops[o]? = some op →
    (∀ b c, op.kind.bound? = some (b, c) → ¬ picks b o) → g'.ops[o]? = some op

variable {picks picks' : NodeId → OpId → Prop}

theorem Resolved.refl (g : Graph) (hNone : ∀ b o, ¬ picks b o) : Resolved g g picks :=
  ⟨rfl, fun _ => rfl, fun _ _ h => absurd h (hNone _ _), fun ho _ => ho⟩

theorem Resolved.congr (h : Resolved g g' picks) (hPicks : ∀ b o, picks b o ↔ picks' b o) :
    Resolved g g' picks' :=
  ⟨h.shape, h.range, fun ho hc hb => h.hit ho hc ((hPicks _ _).mpr hb),
    fun ho hMiss => h.miss ho fun b c hc hb => hMiss b c hc ((hPicks b _).mp hb)⟩

theorem Resolved.trans {g'' : Graph} (h : Resolved g g' picks) (h' : Resolved g' g'' picks') :
    Resolved g g'' fun b o => picks b o ∨ picks' b o := by
  refine ⟨h'.shape.trans h.shape, fun n => (h'.range n).trans (h.range n),
    fun {o op b c} ho hc hHit => ?_, fun {o op} ho hMiss => ?_⟩
  · have hRegion : Range.region g'.sentinels c (g'.range b) =
        Range.region g.sentinels c (g.range b) := by
      rw [h.range, sentinels_of_shape h.shape]
    have hOnly {q : NodeId → OpId → Prop} (hq : ¬ q b o) (b' : NodeId) (c' : Comparison)
        (hc' : op.kind.bound? = some (b', c')) : ¬ q b' o := by
      cases Option.some.inj (hc.symm.trans hc')
      exact hq
    by_cases hFirst : picks b o
    · have hOp := h.hit ho hc hFirst
      by_cases hSecond : picks' b o
      · rw [h'.hit hOp hc hSecond, hRegion]
      · exact h'.miss hOp (hOnly hSecond)
    · rw [h'.hit (h.miss ho (hOnly hFirst)) hc (hHit.resolve_left hFirst), hRegion]
  · exact h'.miss (h.miss ho fun b c hc hb => hMiss b c hc (.inl hb))
      fun b c hc hb => hMiss b c hc (.inr hb)

theorem Resolved.regular (h : Resolved g g' picks) (hg : Regular g) : Regular g' := by
  refine ⟨fun n => ?_⟩
  rw [h.range, sentinels_of_shape h.shape]
  exact hg.range n

theorem SameState.resolved {g₁ g₂ : Graph} (h : SameState g g₁) (hr : Resolved g₁ g₂ picks)
    (h' : SameState g₂ g') : Resolved g g' picks := by
  refine ⟨(h'.shape.trans hr.shape).trans h.shape,
    fun n => ((h'.range n).trans (hr.range n)).trans (h.range n),
    fun {o op b c} ho hc hb => ?_, fun {o op} ho hMiss => ?_⟩
  · rw [h'.ops, hr.hit (h.ops ▸ ho) hc hb, h.range, sentinels_of_shape h.shape]
  · rw [h'.ops]
    exact hr.miss (h.ops ▸ ho) hMiss

/-- One sigma is resolved. -/
theorem resolved_resolve (hg : Linked g) {b : NodeId} (hb : o ∈ g.bounds b) :
    Resolved g (g.resolve b o) fun n k => n = b ∧ k = o := by
  obtain ⟨op, c, ho, hc⟩ := (hg.mem_bounds b o).mp hb
  have hResolve : g.resolve b o = g.setIntersect o (Range.region g.sentinels c (g.range b)) := by
    unfold resolve
    rw [ho, Option.bind_some, hc]
  refine ⟨shape_resolve g b o, range_of_nodes (nodes_resolve g b o)
    (sentinels_of_shape (shape_resolve g b o)), ?_, ?_⟩
  · rintro k op' n c' hk hc' ⟨rfl, rfl⟩
    rw [ho] at hk
    cases hk
    rw [hc] at hc'
    cases hc'
    rw [hResolve, ops_setIntersect, ho, Option.map_some, if_pos rfl]
  · intro k op' hk hMiss
    rw [hResolve, ops_setIntersect, hk, Option.map_some, if_neg]
    rintro rfl
    rw [ho] at hk
    cases hk
    exact hMiss b c hc ⟨rfl, rfl⟩

/-- A pass over pairs of bounds and sigmas resolves them. -/
theorem resolved_pairs (ps : List (NodeId × OpId)) {g : Graph} (hg : Linked g)
    (hps : ∀ p ∈ ps, p.2 ∈ g.bounds p.1) :
    Resolved g (ps.foldl (fun g p => g.resolve p.1 p.2) g) fun b o => (b, o) ∈ ps := by
  induction ps generalizing g with
  | nil => exact .refl g nofun
  | cons p ps ih =>
    have hOne := resolved_resolve hg (hps p List.mem_cons_self)
    have hRest := ih (hg.of_shape hOne.shape) fun q hq => by
      rw [bounds_of_shape hOne.shape]
      exact hps q (List.mem_cons_of_mem p hq)
    refine (hOne.trans hRest).congr fun b o => ?_
    rw [List.mem_cons, Prod.ext_iff]

theorem mem_boundPairs {b : NodeId} (comp : List NodeId) :
    (b, o) ∈ g.boundPairs comp ↔ b ∈ comp ∧ o ∈ g.bounds b := by
  simp only [boundPairs, List.mem_flatMap, List.mem_map, Prod.mk.injEq]
  constructor
  · rintro ⟨n, hn, k, hk, rfl, rfl⟩
    exact ⟨hn, hk⟩
  · rintro ⟨hb, ho⟩
    exact ⟨b, hb, o, ho, rfl, rfl⟩

/-- The intersections that the nodes of a list bound are resolved where the test says so. -/
theorem resolved_resolveBounds (hg : Linked g) {test : Graph → OpId → Bool}
    (hTest : ∀ {g g' : Graph}, g'.shape = g.shape → test g' = test g) (comp : List NodeId) :
    Resolved g (g.resolveBounds test comp)
      fun b o => b ∈ comp ∧ o ∈ g.bounds b ∧ test g o = true := by
  rw [resolveBounds_eq hTest]
  refine (resolved_pairs _ hg fun p hp => ?_).congr fun b o => ?_
  · exact ((mem_boundPairs comp).mp (List.mem_filter.mp hp).1).2
  · rw [List.mem_filter, mem_boundPairs, and_assoc]

end Passes

end Graph

end ValueRange
