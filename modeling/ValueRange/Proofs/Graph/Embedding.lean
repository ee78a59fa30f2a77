import ValueRange.Proofs.Graph.Course

/-! Graphs within graphs. A graph may stand in a larger one, its nodes and operations some places on,
with nothing of the larger graph leading into it or out of it. Solving the larger graph then takes the
steps that solving the smaller one takes, and in between steps that do not touch it. -/

namespace ValueRange

/-! ### Moving nodes and operations -/

/-- The kind with all nodes `a` places on. -/
def Kind.shift (a : Nat) : Kind → Kind
  | unary op source sourceType targetType => unary op (source + a) sourceType targetType
  | sigma source bound => sigma (source + a) (bound.map fun (n, c) => (n + a, c))
  | binary op lhs rhs => binary op (lhs + a) (rhs + a)
  | phi sources => phi (sources.map (· + a))

theorem Kind.operands_shift (a : Nat) (kind : Kind) :
    (kind.shift a).operands = kind.operands.map (· + a) := by
  cases kind <;> rfl

theorem Kind.bound?_shift (a : Nat) (kind : Kind) :
    (kind.shift a).bound? = kind.bound?.map fun (n, c) => (n + a, c) := by
  cases kind <;> rfl

def Operation.shift (a : Nat) (op : Operation) : Operation :=
  { op with sink := op.sink + a, kind := op.kind.shift a }

/-- The node with all operations `b` places on. -/
def Node.shift (b : Nat) (x : Node) : Node :=
  { x with
    definition := x.definition.map (· + b)
    uses := x.uses.map (· + b)
    bounds := x.bounds.map (· + b) }

/-- The place is not one of `size` places from `a` on. -/
def Apart (a size n : Nat) : Prop := n < a ∨ a + size ≤ n

theorem apart_or (a size n : Nat) : Apart a size n ∨ ∃ m < size, n = m + a := by
  by_cases h : Apart a size n
  · exact .inl h
  · refine .inr ⟨n - a, ?_, ?_⟩ <;> unfold Apart at h <;> omega

theorem Apart.ne {a size n m : Nat} (h : Apart a size n) (hm : m < size) : n ≠ m + a := by
  unfold Apart at h
  omega

namespace Graph

/-- The task for a component whose nodes are `a` places on and which has another number. -/
def Task.shift (t : Task) (a pos' : Nat) : Task := ⟨t.meet, pos', t.comp.map (· + a)⟩

/-- The graph `g` stands in `h`, its nodes `a` places on and its operations `b` places on. -/
structure Embeds (a b : Nat) (g h : Graph) : Prop where
  sentinels : h.sentinels = g.sentinels
  narrowing : h.narrowing = g.narrowing
  node {n : NodeId} {x : Node} : g.nodes[n]? = some x → h.nodes[n + a]? = some (x.shift b)
  op {o : OpId} {op : Operation} : g.ops[o]? = some op → h.ops[o + b]? = some (op.shift a)

namespace Embeds

variable {a b : Nat} {g h : Graph} {n : NodeId} {o : OpId}

section Views

theorem getElem? (hEmbeds : Embeds a b g h) (hn : n < g.nodes.size) :
    h.nodes[n + a]? = (g.nodes[n]?).map (Node.shift b) := by
  rw [Array.getElem?_eq_getElem hn]
  exact hEmbeds.node (Array.getElem?_eq_getElem hn)

theorem range (hEmbeds : Embeds a b g h) (hn : n < g.nodes.size) :
    h.range (n + a) = g.range n := by
  rw [Graph.range, range?, hEmbeds.getElem? hn, Option.bind_map, hEmbeds.sentinels]
  rfl

theorem typeOf (hEmbeds : Embeds a b g h) (hn : n < g.nodes.size) :
    h.typeOf (n + a) = g.typeOf n := by
  rw [Graph.typeOf, hEmbeds.getElem? hn, Option.map_map]
  rfl

theorem trend (hEmbeds : Embeds a b g h) (hn : n < g.nodes.size) :
    h.trend (n + a) = g.trend n := by
  rw [Graph.trend, hEmbeds.getElem? hn, Option.bind_map]
  rfl

theorem uses (hEmbeds : Embeds a b g h) (hn : n < g.nodes.size) :
    h.uses (n + a) = (g.uses n).map (· + b) := by
  rw [Graph.uses, Graph.uses, hEmbeds.getElem? hn, Array.getElem?_eq_getElem hn]
  rfl

theorem bounds (hEmbeds : Embeds a b g h) (hn : n < g.nodes.size) :
    h.bounds (n + a) = (g.bounds n).map (· + b) := by
  rw [Graph.bounds, Graph.bounds, hEmbeds.getElem? hn, Array.getElem?_eq_getElem hn]
  rfl

theorem definition (hEmbeds : Embeds a b g h) (hn : n < g.nodes.size) :
    h.definition (n + a) = (g.definition n).map (· + b) := by
  rw [Graph.definition, Graph.definition, hEmbeds.getElem? hn, Array.getElem?_eq_getElem hn]
  rfl

theorem sink (hEmbeds : Embeds a b g h) (ho : o < g.ops.size) : h.sink (o + b) = g.sink o + a := by
  have hOp := Array.getElem?_eq_getElem ho
  rw [sink_eq (hEmbeds.op hOp), sink_eq hOp]
  rfl

theorem eval (hEmbeds : Embeds a b g h) (hg : Wired g) {op : Operation} (ho : g.ops[o]? = some op) :
    h.eval (op.shift a) = g.eval op := by
  have hRange {n : NodeId} (hn : n ∈ op.kind.operands) : h.range (n + a) = g.range n :=
    hEmbeds.range (hg.operand_lt ho hn)
  have hKind : h.evalKind (op.sink + a) (op.kind.shift a) = g.evalKind op.sink op.kind := by
    cases hk : op.kind with
    | unary u source t t' =>
      exact congrArg (evalUnary u · t t') (hRange (by simp [hk, Kind.operands]))
    | sigma source bound => exact hRange (by simp [hk, Kind.operands])
    | binary f lhs rhs =>
      rw [Kind.shift, evalKind, evalKind, hRange (n := lhs) (by simp [hk, Kind.operands]),
        hRange (n := rhs) (by simp [hk, Kind.operands]), hEmbeds.sentinels,
        hEmbeds.typeOf (hg.sink_lt ho)]
    | phi sources =>
      rw [Kind.shift, evalKind, evalKind, hEmbeds.sentinels, List.map_map]
      exact congrArg _ (List.map_congr_left fun n hn => hRange (by simpa [hk, Kind.operands] using hn))
  unfold Graph.eval
  exact congrArg (fun r : Range => if op.intersect.isMax then r else r.intersect op.intersect) hKind

theorem successors (hEmbeds : Embeds a b g h) (hg : Wired g) (hn : n < g.nodes.size) :
    h.successors (n + a) = (g.successors n).map (· + a) := by
  rw [Graph.successors, Graph.successors, hEmbeds.uses hn, hEmbeds.bounds hn, ← List.map_append,
    List.map_map, List.map_map]
  refine List.map_congr_left fun o ho => hEmbeds.sink ?_
  rcases List.mem_append.mp ho with ho | ho
  · obtain ⟨op, hOp, -⟩ := (hg.mem_uses n o).mp ho
    exact (Array.getElem?_eq_some_iff.mp hOp).1
  · obtain ⟨op, c, hOp, -⟩ := (hg.mem_bounds n o).mp ho
    exact (Array.getElem?_eq_some_iff.mp hOp).1

end Views

/-! ### What stands apart -/

section Apart

variable (hEmbeds : Embeds a b g h) (hg : Wired g) (hh : Wired h)
include hEmbeds hg hh

/-- An operation apart from the graph has its sink apart from it. -/
theorem apart_sink {op : Operation} (ho : h.ops[o]? = some op) (hApart : Apart b g.ops.size o) :
    Apart a g.nodes.size op.sink := by
  refine (apart_or a g.nodes.size op.sink).resolve_right ?_
  rintro ⟨n, hn, hSink⟩
  have hDefinition := (hh.definition_iff op.sink o).mpr ⟨op, ho, rfl⟩
  rw [hSink, hEmbeds.definition hn] at hDefinition
  obtain ⟨k, hk, rfl⟩ := Option.map_eq_some_iff.mp hDefinition
  obtain ⟨op', hOp', -⟩ := (hg.definition_iff n k).mp hk
  exact hApart.ne (Array.getElem?_eq_some_iff.mp hOp').1 rfl

/-- What reads a node apart from the graph, or is bounded by it, stands apart. -/
theorem apart_of_reads (ho : o ∈ h.uses n ++ h.bounds n) (hApart : Apart a g.nodes.size n) :
    Apart b g.ops.size o := by
  refine (apart_or b g.ops.size o).resolve_right ?_
  rintro ⟨k, hk, rfl⟩
  have hOld := Array.getElem?_eq_getElem hk
  rcases List.mem_append.mp ho with ho | ho
  · obtain ⟨op, hOp, hn⟩ := (hh.mem_uses n _).mp ho
    cases (hEmbeds.op hOld).symm.trans hOp
    rw [Operation.shift, Kind.operands_shift] at hn
    obtain ⟨m, hm, rfl⟩ := List.mem_map.mp hn
    exact hApart.ne (hg.operand_lt hOld hm) rfl
  · obtain ⟨op, c, hOp, hn⟩ := (hh.mem_bounds n _).mp ho
    cases (hEmbeds.op hOld).symm.trans hOp
    rw [Operation.shift, Kind.bound?_shift] at hn
    obtain ⟨⟨m, c'⟩, hm, hSame⟩ := Option.map_eq_some_iff.mp hn
    cases hSame
    exact hApart.ne (hg.bound_lt hOld hm) rfl

theorem apart_successor {m : NodeId} (hm : m ∈ h.successors n) (hApart : Apart a g.nodes.size n) :
    Apart a g.nodes.size m := by
  obtain ⟨o, ho, rfl⟩ := List.mem_map.mp hm
  have hOpApart := hEmbeds.apart_of_reads hg hh ho hApart
  obtain ⟨op, hOp⟩ : ∃ op, h.ops[o]? = some op := by
    rcases List.mem_append.mp ho with ho | ho
    · obtain ⟨op, hOp, -⟩ := (hh.mem_uses n o).mp ho
      exact ⟨op, hOp⟩
    · obtain ⟨op, -, hOp, -⟩ := (hh.mem_bounds n o).mp ho
      exact ⟨op, hOp⟩
  rw [sink_eq hOp]
  exact hEmbeds.apart_sink hg hh hOp hOpApart

end Apart

/-! ### Changes of state -/

section Changes

/-- An embedding is one of nodes and operations. -/
theorem congr {g' h' : Graph} (hEmbeds : Embeds a b g h) (hg : g'.shape = g.shape)
    (hgNodes : g'.nodes = g.nodes) (hgOps : g'.ops = g.ops) (hh : h'.shape = h.shape)
    (hhNodes : h'.nodes = h.nodes) (hhOps : h'.ops = h.ops) : Embeds a b g' h' := by
  refine ⟨?_, ?_, fun hx => ?_, fun ho => ?_⟩
  · rw [sentinels_of_shape hg, sentinels_of_shape hh, hEmbeds.sentinels]
  · rw [narrowing_of_shape hg, narrowing_of_shape hh, hEmbeds.narrowing]
  · rw [hhNodes]
    exact hEmbeds.node (hgNodes ▸ hx)
  · rw [hhOps]
    exact hEmbeds.op (hgOps ▸ ho)

theorem record (hEmbeds : Embeds a b g h) (pos pos' : Nat) (comp comp' : List NodeId)
    (phase : Phase) : Embeds a b (g.record pos comp phase) (h.record pos' comp' phase) :=
  hEmbeds.congr (shape_record ..) (nodes_record ..) (ops_record ..) (shape_record ..)
    (nodes_record ..) (ops_record ..)

theorem record_apart (hEmbeds : Embeds a b g h) (pos : Nat) (comp : List NodeId) (phase : Phase) :
    Embeds a b g (h.record pos comp phase) :=
  hEmbeds.congr rfl rfl rfl (shape_record ..) (nodes_record ..) (ops_record ..)

theorem modifyNode {f : Node → Node} (hEmbeds : Embeds a b g h)
    (hf : ∀ x : Node, f (x.shift b) = (f x).shift b) (n : NodeId) :
    Embeds a b { g with nodes := g.nodes.modify n f }
      { h with nodes := h.nodes.modify (n + a) f } := by
  refine ⟨hEmbeds.sentinels, hEmbeds.narrowing, fun {m x} hx => ?_, hEmbeds.op⟩
  rw [Array.getElem?_modify] at hx ⊢
  by_cases hm : n = m
  · rw [if_pos hm] at hx
    obtain ⟨y, hy, rfl⟩ := Option.map_eq_some_iff.mp hx
    rw [if_pos (congrArg (· + a) hm), hEmbeds.node hy, Option.map_some, hf]
  · rw [if_neg hm] at hx
    rw [if_neg fun hSame => hm (Nat.add_right_cancel hSame), hEmbeds.node hx]

theorem modifyNode_apart {f : Node → Node} (hEmbeds : Embeds a b g h)
    (hn : Apart a g.nodes.size n) : Embeds a b g { h with nodes := h.nodes.modify n f } := by
  refine ⟨hEmbeds.sentinels, hEmbeds.narrowing, fun {m x} hx => ?_, hEmbeds.op⟩
  rw [Array.getElem?_modify, if_neg (hn.ne (Array.getElem?_eq_some_iff.mp hx).1), hEmbeds.node hx]

theorem setRange (hEmbeds : Embeds a b g h) (n : NodeId) (r : Range) :
    Embeds a b (g.setRange n r) (h.setRange (n + a) r) :=
  hEmbeds.modifyNode (f := fun x => { x with range := some r }) (fun _ => rfl) n

theorem setRange_apart (hEmbeds : Embeds a b g h) (hn : Apart a g.nodes.size n) (r : Range) :
    Embeds a b g (h.setRange n r) :=
  hEmbeds.modifyNode_apart hn

theorem setIntersect (hEmbeds : Embeds a b g h) (o : OpId) (r : Range) :
    Embeds a b (g.setIntersect o r) (h.setIntersect (o + b) r) := by
  refine ⟨hEmbeds.sentinels, hEmbeds.narrowing, hEmbeds.node, fun {k op} hk => ?_⟩
  rw [ops_setIntersect] at hk ⊢
  obtain ⟨old, hOld, rfl⟩ := Option.map_eq_some_iff.mp hk
  rw [hEmbeds.op hOld, Option.map_some]
  by_cases hko : k = o
  · rw [if_pos hko, if_pos (congrArg (· + b) hko)]
    rfl
  · rw [if_neg hko, if_neg fun hSame => hko (Nat.add_right_cancel hSame)]

theorem setIntersect_apart (hEmbeds : Embeds a b g h) (ho : Apart b g.ops.size o) (r : Range) :
    Embeds a b g (h.setIntersect o r) := by
  refine ⟨hEmbeds.sentinels, hEmbeds.narrowing, hEmbeds.node, fun {k op} hk => ?_⟩
  rw [ops_setIntersect, hEmbeds.op hk, Option.map_some,
    if_neg (ho.ne (Array.getElem?_eq_some_iff.mp hk).1).symm]

theorem freeze (hEmbeds : Embeds a b g h) (comp : List NodeId) :
    Embeds a b (g.freeze comp) (h.freeze (comp.map (· + a))) := by
  induction comp generalizing g h with
  | nil => exact hEmbeds.congr rfl rfl rfl rfl rfl rfl
  | cons n comp ih =>
    have hNode : Embeds a b { g with nodes := g.nodes.modify n (freezeNode g.sentinels) }
        { h with nodes := h.nodes.modify (n + a) (freezeNode h.sentinels) } := by
      rw [show freezeNode h.sentinels = freezeNode g.sentinels by rw [hEmbeds.sentinels]]
      exact hEmbeds.modifyNode (f := freezeNode g.sentinels) (fun _ => rfl) n
    exact ih hNode

theorem freeze_apart {comp : List NodeId} (hEmbeds : Embeds a b g h)
    (hComp : ∀ n ∈ comp, Apart a g.nodes.size n) : Embeds a b g (h.freeze comp) := by
  induction comp generalizing h with
  | nil => exact hEmbeds.congr rfl rfl rfl rfl rfl rfl
  | cons n comp ih =>
    have hNode := hEmbeds.modifyNode_apart (f := freezeNode h.sentinels)
      (hComp n List.mem_cons_self)
    exact ih hNode fun m hm => hComp m (List.mem_cons_of_mem n hm)

theorem resolve (hEmbeds : Embeds a b g h) (hn : n < g.nodes.size) (ho : o < g.ops.size) :
    Embeds a b (g.resolve n o) (h.resolve (n + a) (o + b)) := by
  have hOp := Array.getElem?_eq_getElem ho
  unfold Graph.resolve
  rw [hEmbeds.op hOp, hOp, Option.bind_some, Option.bind_some, Operation.shift, Kind.bound?_shift,
    hEmbeds.range hn, hEmbeds.sentinels]
  cases (g.ops[o]).kind.bound? with
  | none => exact hEmbeds
  | some bound => exact hEmbeds.setIntersect o _

theorem resolve_apart (hEmbeds : Embeds a b g h) (n : NodeId) (ho : Apart b g.ops.size o) :
    Embeds a b g (h.resolve n o) := by
  unfold Graph.resolve
  split
  · exact hEmbeds.setIntersect_apart ho _
  · exact hEmbeds

theorem foldl_resolve {ps : List (NodeId × OpId)} (hEmbeds : Embeds a b g h)
    (hps : ∀ p ∈ ps, p.1 < g.nodes.size ∧ p.2 < g.ops.size) :
    Embeds a b (ps.foldl (fun g p => g.resolve p.1 p.2) g)
      ((ps.map fun p => (p.1 + a, p.2 + b)).foldl (fun g p => g.resolve p.1 p.2) h) := by
  induction ps generalizing g h with
  | nil => exact hEmbeds
  | cons p ps ih =>
    obtain ⟨hn, ho⟩ := hps p List.mem_cons_self
    refine ih (hEmbeds.resolve hn ho) fun q hq => ?_
    rw [nodes_resolve, ops_size_of_shape (shape_resolve g p.1 p.2)]
    exact hps q (List.mem_cons_of_mem p hq)

theorem foldl_resolve_apart {ps : List (NodeId × OpId)} (hEmbeds : Embeds a b g h)
    (hps : ∀ p ∈ ps, Apart b g.ops.size p.2) :
    Embeds a b g (ps.foldl (fun g p => g.resolve p.1 p.2) h) := by
  induction ps generalizing h with
  | nil => exact hEmbeds
  | cons p ps ih =>
    exact ih (hEmbeds.resolve_apart p.1 (hps p List.mem_cons_self)) fun q hq =>
      hps q (List.mem_cons_of_mem p hq)

theorem foldl_assign {os : List OpId} (hEmbeds : Embeds a b g h) (hg : Wired g)
    (hos : ∀ o ∈ os, o < g.ops.size) :
    Embeds a b (os.foldl assign g) ((os.map (· + b)).foldl assign h) := by
  induction os generalizing g h with
  | nil => exact hEmbeds
  | cons o os ih =>
    have hOp := Array.getElem?_eq_getElem (hos o List.mem_cons_self)
    rw [List.map_cons, List.foldl_cons, List.foldl_cons, assign_eq hOp, assign_eq (hEmbeds.op hOp),
      hEmbeds.eval hg hOp]
    exact ih (hEmbeds.setRange _ _) (hg.of_shape (shape_setRange g _ _)) fun k hk =>
      hos k (List.mem_cons_of_mem o hk)

theorem foldl_assign_apart {os : List OpId} (hEmbeds : Embeds a b g h) (hg : Wired g)
    (hh : Wired h) (hos : ∀ o ∈ os, Apart b g.ops.size o) : Embeds a b g (os.foldl assign h) := by
  induction os generalizing h with
  | nil => exact hEmbeds
  | cons o os ih =>
    refine ih ?_ (hh.of_shape (shape_assign h o)) fun k hk => hos k (List.mem_cons_of_mem o hk)
    unfold assign
    split
    case h_1 op hOp =>
      exact hEmbeds.setRange_apart (hEmbeds.apart_sink hg hh hOp (hos o List.mem_cons_self)) _
    case h_2 => exact hEmbeds

end Changes

/-! ### Iteration -/

section Iteration

variable {m : Meet} {pos pos' : Nat} {queue defs : List OpId}

theorem enqueue_map (queue os : List OpId) (b : Nat) :
    enqueue (queue.map (· + b)) (os.map (· + b)) = (enqueue queue os).map (· + b) := by
  unfold enqueue
  induction os generalizing queue with
  | nil => rfl
  | cons o os ih =>
    have hMem : o + b ∈ queue.map (· + b) ↔ o ∈ queue :=
      List.mem_map_of_injective fun _ _ => Nat.add_right_cancel
    rw [List.map_cons, List.foldl_cons, List.foldl_cons, ← ih]
    by_cases ho : o ∈ queue
    · rw [if_pos ho, if_pos (hMem.mpr ho)]
    · rw [if_neg ho, if_neg fun h => ho (hMem.mp h), List.map_append]
      rfl

theorem of_mem_enqueue {os : List OpId} (h : o ∈ enqueue queue os) : o ∈ queue ∨ o ∈ os := by
  unfold enqueue at h
  induction os generalizing queue with
  | nil => exact .inl h
  | cons k os ih =>
    rw [List.foldl_cons] at h
    rcases ih h with ho | ho
    · split at ho
      · exact .inl ho
      · rcases List.mem_append.mp ho with ho | ho
        · exact .inl ho
        · exact .inr (List.mem_singleton.mp ho ▸ List.mem_cons_self)
    · exact .inr (List.mem_cons_of_mem k ho)

/-- The operations of the component in the larger graph are those in the smaller one. -/
def Matches (b pos pos' : Nat) (g h : Graph) : Prop :=
  ∀ o < g.ops.size, h.inside pos' (o + b) = g.inside pos o

theorem Matches.of_shape {g' h' : Graph} (hMatch : Matches b pos pos' g h)
    (hg : g'.shape = g.shape) (hh : h'.shape = h.shape) : Matches b pos pos' g' h' := by
  intro o ho
  rw [inside_of_shape hg, inside_of_shape hh]
  exact hMatch o (ops_size_of_shape hg ▸ ho)

theorem filter_uses (hEmbeds : Embeds a b g h) (hg : Wired g) (hMatch : Matches b pos pos' g h)
    (hn : n < g.nodes.size) : (h.uses (n + a)).filter (h.inside pos') =
      ((g.uses n).filter (g.inside pos)).map (· + b) := by
  rw [hEmbeds.uses hn, List.filter_map]
  refine congrArg _ (List.filter_congr fun o ho => ?_)
  obtain ⟨op, hOp, -⟩ := (hg.mem_uses n o).mp ho
  exact hMatch o (Array.getElem?_eq_some_iff.mp hOp).1

/-- Iterating over operations of the embedded graph. -/
theorem iterateQueue (steps : Nat) (hEmbeds : Embeds a b g h) (hg : Wired g)
    (hMatch : Matches b pos pos' g h) (hQueue : ∀ o ∈ queue, o < g.ops.size) :
    Embeds a b (iterateQueue m pos steps queue g)
      (iterateQueue m pos' steps (queue.map (· + b)) h) := by
  induction steps generalizing queue g h with
  | zero => exact hEmbeds
  | succ steps ih =>
    match queue with
    | [] => exact hEmbeds
    | o :: queue =>
      have hRest (k : OpId) (hk : k ∈ queue) : k < g.ops.size := hQueue k (List.mem_cons_of_mem o hk)
      obtain ⟨op, hOp⟩ : ∃ op, g.ops[o]? = some op :=
        ⟨_, Array.getElem?_eq_getElem (hQueue o List.mem_cons_self)⟩
      have hSink := hg.sink_lt hOp
      have hShift : (op.shift a).sink = op.sink + a := rfl
      simp only [List.map_cons, Graph.iterateQueue, hEmbeds.op hOp, hOp, hEmbeds.eval hg hOp,
        hShift, hEmbeds.trend hSink, hEmbeds.range hSink, hEmbeds.sentinels]
      cases m.step g.sentinels (g.trend op.sink) (g.range op.sink) (g.eval op) with
      | none => exact ih hEmbeds hg hMatch hRest
      | some r =>
        have hShape := shape_setRange g op.sink r
        have hNext := hEmbeds.setRange op.sink r
        have hWired := hg.of_shape hShape
        have hSame := hMatch.of_shape hShape (shape_setRange h (op.sink + a) r)
        dsimp only
        rw [hNext.filter_uses hWired hSame (hWired.sink_lt (o := o) hOp), enqueue_map]
        refine ih hNext hWired hSame fun k hk => ?_
        rcases of_mem_enqueue hk with hk | hk
        · exact hRest k hk
        · obtain ⟨op', hOp', -⟩ := (hWired.mem_uses _ k).mp (List.mem_filter.mp hk).1
          exact (Array.getElem?_eq_some_iff.mp hOp').1

/-- Iterating over operations apart from the embedded graph. -/
theorem iterateQueue_apart (steps : Nat) (hEmbeds : Embeds a b g h) (hg : Wired g) (hh : Wired h)
    (hQueue : ∀ o ∈ queue, Apart b g.ops.size o) :
    Embeds a b g (Graph.iterateQueue m pos steps queue h) := by
  induction steps generalizing queue h with
  | zero => exact hEmbeds
  | succ steps ih =>
    match queue with
    | [] => exact hEmbeds
    | o :: queue =>
      have hRest (k : OpId) (hk : k ∈ queue) : Apart b g.ops.size k :=
        hQueue k (List.mem_cons_of_mem o hk)
      unfold Graph.iterateQueue
      split
      case h_1 => exact ih hEmbeds hh hRest
      case h_2 op hOp =>
        have hSink := hEmbeds.apart_sink hg hh hOp (hQueue o List.mem_cons_self)
        split
        case h_1 => exact ih hEmbeds hh hRest
        case h_2 r _ =>
          have hNext := hEmbeds.setRange_apart hSink r
          have hWired := hh.of_shape (shape_setRange h op.sink r)
          refine ih hNext hWired fun k hk => ?_
          rcases of_mem_enqueue hk with hk | hk
          · exact hRest k hk
          · exact hNext.apart_of_reads hg hWired
              (List.mem_append_left _ (List.mem_filter.mp hk).1) hSink

theorem size_ops_le (hEmbeds : Embeds a b g h) : g.ops.size ≤ h.ops.size := by
  by_cases hSize : g.ops.size = 0
  · omega
  · have hLast := hEmbeds.op (Array.getElem?_eq_getElem (Nat.sub_one_lt hSize))
    have hLt := (Array.getElem?_eq_some_iff.mp hLast).1
    omega

/-- Iterating over a component of the embedded graph. The larger graph allows for more steps, which
the component does not need. -/
theorem iterate (hEmbeds : Embeds a b g h) (hm : m.Lawful) (hArea : Area g pos defs)
    (hr : Regular g) (hMatch : Matches b pos pos' g h) :
    Embeds a b (Graph.iterateQueue m pos (g.stepBound m defs) defs g)
      (Graph.iterateQueue m pos' (h.stepBound m (defs.map (· + b))) (defs.map (· + b)) h) := by
  have hLt (o : OpId) (ho : o ∈ defs) : o < g.ops.size := ((hArea.mem_iff o).mp ho).1
  have hRank : totalRank m (defs.map (· + b)) h = totalRank m defs g := by
    unfold totalRank
    rw [List.map_map]
    refine congrArg List.sum (List.map_congr_left fun o ho => ?_)
    have hOp := Array.getElem?_eq_getElem (hLt o ho)
    rw [Function.comp_apply, hEmbeds.sink (hLt o ho), hEmbeds.range]
    rw [sink_eq hOp]
    exact hArea.wired.sink_lt hOp
  have hBound : g.stepBound m defs ≤ h.stepBound m (defs.map (· + b)) := by
    rw [stepBound_eq, stepBound_eq, hRank, List.length_map]
    exact Nat.add_le_add_left (Nat.mul_le_mul_left _ hEmbeds.size_ops_le) _
  rw [← iterateQueue_of_le hm hArea hr hBound]
  exact hEmbeds.iterateQueue _ hArea.wired hMatch hLt

end Iteration

/-! ### Components -/

section Components

variable {t : Task} {cs : Components} {pos' : Nat} {comp : List NodeId}

theorem definitions (hEmbeds : Embeds a b g h) (hComp : ∀ n ∈ comp, n < g.nodes.size) :
    h.definitions (comp.map (· + a)) = (g.definitions comp).map (· + b) := by
  unfold Graph.definitions
  rw [List.filterMap_map, List.map_filterMap]
  exact List.filterMap_congr fun n hn => hEmbeds.definition (hComp n hn)

theorem hasEntry (hEmbeds : Embeds a b g h) (hComp : ∀ n ∈ comp, n < g.nodes.size) :
    h.hasEntry (comp.map (· + a)) = g.hasEntry comp := by
  unfold Graph.hasEntry
  rw [List.any_map, Bool.eq_iff_iff, List.any_eq_true, List.any_eq_true]
  refine exists_congr fun n => and_congr_right fun hn => ?_
  rw [Function.comp_apply, hEmbeds.range (hComp n hn)]

theorem lt_of_mem_fed (hg : Wired g) (ho : o ∈ comp.flatMap fun n => g.uses n ++ g.bounds n) :
    o < g.ops.size := by
  obtain ⟨n, -, ho⟩ := List.mem_flatMap.mp ho
  rcases List.mem_append.mp ho with ho | ho
  · obtain ⟨op, hOp, -⟩ := (hg.mem_uses n o).mp ho
    exact (Array.getElem?_eq_some_iff.mp hOp).1
  · obtain ⟨op, c, hOp, -⟩ := (hg.mem_bounds n o).mp ho
    exact (Array.getElem?_eq_some_iff.mp hOp).1

theorem boundPairs (hEmbeds : Embeds a b g h) (hComp : ∀ n ∈ comp, n < g.nodes.size) :
    h.boundPairs (comp.map (· + a)) = (g.boundPairs comp).map fun p => (p.1 + a, p.2 + b) := by
  unfold Graph.boundPairs
  rw [List.flatMap_map, List.map_flatMap]
  refine List.flatMap_congr fun n hn => ?_
  rw [hEmbeds.bounds (hComp n hn), List.map_map, List.map_map]
  rfl

/-- Resolving the bounds of nodes of the embedded graph. -/
theorem resolveBounds {test test' : Graph → OpId → Bool} (hEmbeds : Embeds a b g h) (hg : Wired g)
    (hTest : ∀ {g g' : Graph}, g'.shape = g.shape → test g' = test g)
    (hTest' : ∀ {g g' : Graph}, g'.shape = g.shape → test' g' = test' g)
    (hSame : ∀ o < g.ops.size, test' h (o + b) = test g o)
    (hComp : ∀ n ∈ comp, n < g.nodes.size) :
    Embeds a b (g.resolveBounds test comp) (h.resolveBounds test' (comp.map (· + a))) := by
  have hLt {p : NodeId × OpId} (hp : p ∈ g.boundPairs comp) :
      p.1 < g.nodes.size ∧ p.2 < g.ops.size := by
    obtain ⟨hn, ho⟩ := (mem_boundPairs comp).mp hp
    obtain ⟨op, c, hOp, -⟩ := (hg.mem_bounds _ _).mp ho
    exact ⟨hComp _ hn, (Array.getElem?_eq_some_iff.mp hOp).1⟩
  have hFilter : ((g.boundPairs comp).map fun p => (p.1 + a, p.2 + b)).filter
      (fun p => test' h p.2) =
      ((g.boundPairs comp).filter fun p => test g p.2).map fun p => (p.1 + a, p.2 + b) := by
    rw [List.filter_map]
    exact congrArg _ (List.filter_congr fun p hp => hSame p.2 (hLt hp).2)
  rw [resolveBounds_eq hTest, resolveBounds_eq hTest', hEmbeds.boundPairs hComp, hFilter]
  exact hEmbeds.foldl_resolve fun p hp => hLt (List.mem_filter.mp hp).1

theorem resolveBounds_apart {test : Graph → OpId → Bool} (hEmbeds : Embeds a b g h) (hg : Wired g)
    (hh : Wired h) (hTest : ∀ {g g' : Graph}, g'.shape = g.shape → test g' = test g)
    (hComp : ∀ n ∈ comp, Apart a g.nodes.size n) : Embeds a b g (h.resolveBounds test comp) := by
  rw [resolveBounds_eq hTest]
  refine hEmbeds.foldl_resolve_apart fun p hp => ?_
  obtain ⟨hn, ho⟩ := (mem_boundPairs comp).mp (List.mem_filter.mp hp).1
  exact hEmbeds.apart_of_reads hg hh (List.mem_append_right _ ho) (hComp _ hn)

theorem not_inside_of_shape {g g' : Graph} (pos : Nat) (hShape : g'.shape = g.shape) :
    (fun o => !g'.inside pos o) = fun o => !g.inside pos o := by
  rw [inside_of_shape hShape]

theorem fed (hEmbeds : Embeds a b g h) (hg : Wired g) {pos : Nat}
    (hMatch : Matches b pos pos' g h) (hComp : ∀ n ∈ comp, n < g.nodes.size) :
    h.fed pos' (comp.map (· + a)) = (g.fed pos comp).map (· + b) := by
  have hFlat : (comp.map (· + a)).flatMap (fun n => h.uses n ++ h.bounds n) =
      (comp.flatMap fun n => g.uses n ++ g.bounds n).map (· + b) := by
    rw [List.flatMap_map, List.map_flatMap]
    refine List.flatMap_congr fun n hn => ?_
    rw [hEmbeds.uses (hComp n hn), hEmbeds.bounds (hComp n hn), List.map_append]
  unfold Graph.fed
  rw [hFlat, List.filter_map]
  refine congrArg _ (List.filter_congr fun o ho => ?_)
  rw [Function.comp_apply, hMatch o (lt_of_mem_fed hg ho)]

/-- Propagating a component of the embedded graph. -/
theorem propagate (hEmbeds : Embeds a b g h) (hg : Wired g) {pos : Nat}
    (hMatch : Matches b pos pos' g h) (hComp : ∀ n ∈ comp, n < g.nodes.size) :
    Embeds a b (g.propagate pos comp) (h.propagate pos' (comp.map (· + a))) := by
  have hResolved := hEmbeds.resolveBounds hg (not_inside_of_shape pos) (not_inside_of_shape pos')
    (fun o ho => congrArg (!·) (hMatch o ho)) hComp
  rw [propagate_eq, propagate_eq, hEmbeds.fed hg hMatch hComp]
  refine hResolved.foldl_assign (hg.of_shape (shape_resolveBounds ..)) fun o ho => ?_
  rw [ops_size_of_shape (shape_resolveBounds ..)]
  exact lt_of_mem_fed hg (List.mem_filter.mp ho).1

theorem propagate_apart (hEmbeds : Embeds a b g h) (hg : Wired g) (hh : Wired h) (pos : Nat)
    (hComp : ∀ n ∈ comp, Apart a g.nodes.size n) : Embeds a b g (h.propagate pos comp) := by
  rw [propagate_eq]
  refine (hEmbeds.resolveBounds_apart hg hh (not_inside_of_shape pos) hComp).foldl_assign_apart hg
    (hh.of_shape (shape_resolveBounds ..)) fun o ho => ?_
  obtain ⟨n, hn, ho⟩ := List.mem_flatMap.mp (List.mem_filter.mp ho).1
  exact hEmbeds.apart_of_reads hg hh ho (hComp n hn)

theorem iterated {m : Meet} {g' h' : Graph} (hEmbeds : Embeds a b g' h') (hm : m.Lawful)
    (ht : t.Runs cs g) (hShape : g'.shape = g.shape) (hRegular : Regular g')
    (hMatch : Matches b t.pos pos' g' h') (hEntry : ((t.shift a pos').discovered h).hasEntry
      (t.comp.map (· + a)) = (t.discovered g).hasEntry t.comp) :
    Embeds a b (t.iterated g m g') ((t.shift a pos').iterated h m h') := by
  have hComp (n : NodeId) (hn : n ∈ t.comp) : n < g'.nodes.size :=
    size_of_shape hShape ▸ ht.layout.arranged.lt_of_mem ht.mem hn
  have hArea := (ht.layout.of_shape hShape).area ht.mem
  have hDefs : h'.definitions (t.shift a pos').comp = (g'.definitions t.comp).map (· + b) :=
    hEmbeds.definitions hComp
  unfold Task.iterated Task.turned
  rw [show ((t.shift a pos').discovered h).hasEntry (t.shift a pos').comp =
    (t.discovered g).hasEntry t.comp from hEntry, hDefs]
  split
  · exact hEmbeds.iterate hm hArea hRegular hMatch
  · exact hEmbeds

/-- Solving a component of the embedded graph in both graphs. -/
theorem propagated (hEmbeds : Embeds a b g h) (ht : t.Runs cs g)
    (hMatch : Matches b t.pos pos' g h) :
    Embeds a b (t.propagated g) ((t.shift a pos').propagated h) := by
  have hComp {g' : Graph} (hShape : g'.shape = g.shape) (n : NodeId) (hn : n ∈ t.comp) :
      n < g'.nodes.size := size_of_shape hShape ▸ ht.layout.arranged.lt_of_mem ht.mem hn
  have hWired {g' : Graph} (hShape : g'.shape = g.shape) : Wired g' :=
    ht.layout.wired.of_shape hShape
  have hDiscovered : Embeds a b (t.discovered g) ((t.shift a pos').discovered h) :=
    hEmbeds.record ..
  have hEntry := hDiscovered.hasEntry (hComp (shape_record ..))
  have hWidened : Embeds a b (t.widened g) ((t.shift a pos').widened h) :=
    hDiscovered.iterated lawful_widening ht (shape_record ..) ht.regular_discovered
      (hMatch.of_shape (shape_record ..) (shape_record ..)) hEntry
  have hFrozen : Embeds a b (t.frozen g) ((t.shift a pos').frozen h) :=
    (hWidened.freeze t.comp).record ..
  have hFixed : Embeds a b (t.fixed g) ((t.shift a pos').fixed h) :=
    (hFrozen.resolveBounds (hWired (t.shape_state g .frozen)) (fun _ => rfl) (fun _ => rfl)
      (fun _ _ => rfl) (hComp (t.shape_state g .frozen))).record ..
  have hNarrowed : Embeds a b (t.narrowed g) ((t.shift a pos').narrowed h) :=
    (hFixed.iterated ht.tight.toLawful ht (t.shape_fixed g) ht.regular_fixed
      (hMatch.of_shape (t.shape_fixed g) ((t.shift a pos').shape_fixed h)) hEntry).record ..
  exact (hNarrowed.propagate (hWired (t.shape_narrowed g))
    (hMatch.of_shape (t.shape_narrowed g) ((t.shift a pos').shape_narrowed h))
    (hComp (t.shape_narrowed g))).record ..

/-- Solving a component of the larger graph that stands apart. -/
theorem propagated_apart (hEmbeds : Embeds a b g h) (hg : Wired g) (hh : Wired h)
    (hComp : ∀ n ∈ t.comp, Apart a g.nodes.size n) : Embeds a b g (t.propagated h) := by
  have hDefs {h' : Graph} (hEmbeds : Embeds a b g h') (hh : Wired h') (o : OpId)
      (ho : o ∈ h'.definitions t.comp) : Apart b g.ops.size o := by
    obtain ⟨n, hn, hDef⟩ := List.mem_filterMap.mp ho
    refine (apart_or b g.ops.size o).resolve_right ?_
    rintro ⟨k, hk, rfl⟩
    obtain ⟨op, hOp, rfl⟩ := (hh.definition_iff n _).mp hDef
    cases (hEmbeds.op (Array.getElem?_eq_getElem hk)).symm.trans hOp
    exact (hComp _ hn).ne (hg.sink_lt (Array.getElem?_eq_getElem hk)) rfl
  have hIterated {m : Meet} {h' : Graph} (hEmbeds : Embeds a b g h') (hh : Wired h') :
      Embeds a b g (t.iterated h m h') := by
    unfold Task.iterated Task.turned
    split
    · exact hEmbeds.iterateQueue_apart _ hg hh (hDefs hEmbeds hh)
    · exact hEmbeds
  have hDiscovered : Embeds a b g (t.discovered h) := hEmbeds.record_apart ..
  have hWidened : Embeds a b g (t.widened h) :=
    hIterated hDiscovered (hh.of_shape (shape_record ..))
  have hFrozen : Embeds a b g (t.frozen h) := (hWidened.freeze_apart hComp).record_apart ..
  have hFixed : Embeds a b g (t.fixed h) :=
    (hFrozen.resolveBounds_apart hg (hh.of_shape (t.shape_state h .frozen)) (fun _ => rfl)
      hComp).record_apart ..
  have hNarrowed : Embeds a b g (t.narrowed h) :=
    (hIterated hFixed (hh.of_shape (t.shape_fixed h))).record_apart ..
  exact (hNarrowed.propagate_apart hg (hh.of_shape (t.shape_narrowed h)) t.pos hComp).record_apart ..

end Components

end Embeds

/-! ### All components -/

/-- The components of a graph among those of a larger one, in which its nodes are `a` places on: the
same ones in the same order, and in between components of nodes apart from it. -/
inductive Aligned (a size : Nat) : List (List NodeId) → List (List NodeId) → Prop
  | nil : Aligned a size [] []
  | inside {comp : List NodeId} {comps comps' : List (List NodeId)} :
      Aligned a size comps comps' → Aligned a size (comp :: comps) (comp.map (· + a) :: comps')
  | apart {comp : List NodeId} {comps comps' : List (List NodeId)} :
      (∀ n ∈ comp, Apart a size n) → Aligned a size comps comps' →
        Aligned a size comps (comp :: comps')

section Course

variable {a b : Nat} {g h : Graph} {cs cs' : Components} {m : Meet} {k k' : Nat}

theorem getElem?_of_drop {α : Type} {xs : Array α} {x : α} {rest : List α}
    (hDrop : xs.toList.drop k = x :: rest) : xs[k]? = some x ∧ xs.toList.drop (k + 1) = rest := by
  constructor
  · rw [← Array.getElem?_toList, ← List.head?_drop, hDrop]
    rfl
  · rw [← List.tail_drop, hDrop]
    rfl

theorem Embeds.matches {comp : List NodeId} (hEmbeds : Embeds a b g h) (hg : Layout g cs)
    (hh : Layout h cs') (hc : cs.members[k]? = some comp)
    (hc' : cs'.members[k']? = some (comp.map (· + a))) : Embeds.Matches b k k' g h := by
  intro o ho
  have hOp := Array.getElem?_eq_getElem ho
  have hOp' := hEmbeds.op hOp
  have hSink : cs'.number ((g.ops[o]).sink + a) = k' ↔ cs.number (g.ops[o]).sink = k := by
    have hMem := hg.mem_iff hc (g.ops[o]).sink
    have hMem' := hh.mem_iff hc' ((g.ops[o]).sink + a)
    rw [List.mem_map_of_injective fun _ _ => Nat.add_right_cancel, hMem] at hMem'
    have hLt := hg.wired.sink_lt hOp
    have hLt' : (g.ops[o]).sink + a < h.nodes.size := hh.wired.sink_lt hOp'
    exact ⟨fun hk => (hMem'.mpr ⟨hLt', hk⟩).2, fun hk => (hMem'.mp ⟨hLt, hk⟩).2⟩
  rw [Bool.eq_iff_iff, hg.inside_iff hOp, hh.inside_iff hOp']
  exact hSink

/-- The components that are left are solved in both graphs. -/
theorem Embeds.solves (hEmbeds : Embeds a b (before m cs g k) (before m cs' h k'))
    (hg : Layout g cs) (hr : Regular g) (hh : Layout h cs') (hm : m.Tight)
    {comps comps' : List (List NodeId)} (hAligned : Aligned a g.nodes.size comps comps')
    (hDrop : cs.members.toList.drop k = comps) (hDrop' : cs'.members.toList.drop k' = comps')
    (hk : k + comps.length = cs.members.size) (hk' : k' + comps'.length = cs'.members.size) :
    Embeds a b (before m cs g cs.members.size) (before m cs' h cs'.members.size) := by
  induction hAligned generalizing k k' with
  | nil =>
    rw [← hk, ← hk']
    exact hEmbeds
  | @inside comp comps comps' _ ih =>
    obtain ⟨hc, hRest⟩ := getElem?_of_drop hDrop
    obtain ⟨hc', hRest'⟩ := getElem?_of_drop hDrop'
    rw [List.length_cons] at hk hk'
    have hRuns := runs_before hg hr hm (k := k) (by omega)
    have hMatch := hEmbeds.matches (hg.of_shape (shape_before m cs g k))
      (hh.of_shape (shape_before m cs' h k')) hc hc'
    refine ih ?_ hRest hRest' (by omega) (by omega)
    have hNext := hEmbeds.propagated hRuns hMatch
    rw [taskOf_eq m hc] at hNext
    rw [before, before, taskOf_eq m hc, taskOf_eq m hc']
    exact hNext
  | @apart comp comps comps' hApart _ ih =>
    obtain ⟨hc', hRest'⟩ := getElem?_of_drop hDrop'
    rw [List.length_cons] at hk'
    refine ih ?_ hDrop hRest' hk (by omega)
    rw [before, taskOf_eq m hc']
    refine hEmbeds.propagated_apart (hg.wired.of_shape (shape_before m cs g k))
      (hh.wired.of_shape (shape_before m cs' h k')) fun n hn => ?_
    rw [size_of_shape (shape_before m cs g k)]
    exact hApart n hn

theorem Embeds.course (hEmbeds : Embeds a b g h) (hg : Layout g cs) (hr : Regular g)
    (hh : Layout h cs') (hm : m.Tight)
    (hAligned : Aligned a g.nodes.size cs.members.toList cs'.members.toList) :
    Embeds a b (before m cs g cs.members.size) (before m cs' h cs'.members.size) := by
  have hStart : Embeds a b (before m cs g 0) (before m cs' h 0) := hEmbeds
  exact hStart.solves hg hr hh hm hAligned rfl rfl (by simp) (by simp)

end Course

end Graph

end ValueRange
