import ValueRange.Proofs.Graph.Building

/-! The wiring of a graph. Nodes know the operation that defines them, the operations that read them
and the sigmas that they bound; every graph that is built by steps keeps these in accord with its
operations, and keeps its nodes in accord with the values of the program. -/

namespace ValueRange.Graph

/-- Operations refer to nodes of the graph, and each node knows the operations that read it and the
sigmas that it bounds. -/
structure Linked (g : Graph) : Prop where
  sink_lt {o : OpId} {op : Operation} : g.ops[o]? = some op → op.sink < g.nodes.size
  operand_lt {o : OpId} {op : Operation} {n : NodeId} :
    g.ops[o]? = some op → n ∈ op.kind.operands → n < g.nodes.size
  bound_lt {o : OpId} {op : Operation} {n : NodeId} {c : Comparison} :
    g.ops[o]? = some op → op.kind.bound? = some (n, c) → n < g.nodes.size
  mem_uses (n : NodeId) (o : OpId) :
    o ∈ g.uses n ↔ ∃ op, g.ops[o]? = some op ∧ n ∈ op.kind.operands
  mem_bounds (n : NodeId) (o : OpId) :
    o ∈ g.bounds n ↔ ∃ op c, g.ops[o]? = some op ∧ op.kind.bound? = some (n, c)

/-- In a linked graph each node also knows the operation that defines it, of which there is at most
one. -/
structure Wired (g : Graph) : Prop extends Linked g where
  definition_iff (n : NodeId) (o : OpId) :
    g.definition n = some o ↔ ∃ op, g.ops[o]? = some op ∧ op.sink = n

section Steps

variable {p : Program} {D : ValueId → Prop} {g g' : Graph} {v : ValueId}

/-- An operation of the extended graph is the new one or an old one. -/
theorem ops_pushOperation (g : Graph) (sink : NodeId) (kind : Kind) (r : Range) (o : OpId)
    (op : Operation) : (g.pushOperation sink kind r).ops[o]? = some op ↔
      (o = g.ops.size ∧ op = ⟨sink, kind, r⟩) ∨ g.ops[o]? = some op := by
  show (g.ops.push ⟨sink, kind, r⟩)[o]? = some op ↔ _
  rw [Array.getElem?_push]
  by_cases ho : o = g.ops.size
  · simp [ho, eq_comm]
  · simp [ho]

theorem definition_pushOperation {sink : NodeId} (kind : Kind) (r : Range)
    (hs : sink < g.nodes.size) (n : NodeId) :
    (g.pushOperation sink kind r).definition n =
      if n = sink then some g.ops.size else g.definition n := by
  unfold definition
  rw [nodes_pushOperation]
  by_cases h : n = sink
  · subst h
    simp [Array.getElem?_eq_getElem hs, withOperation]
  · cases hx : g.nodes[n]? <;> simp [withOperation, h]

theorem mem_uses_pushOperation {kind : Kind} (sink : NodeId) (r : Range)
    (hk : ∀ n ∈ kind.operands, n < g.nodes.size) (n : NodeId) (o : OpId) :
    o ∈ (g.pushOperation sink kind r).uses n ↔
      o ∈ g.uses n ∨ (o = g.ops.size ∧ n ∈ kind.operands) := by
  unfold uses
  rw [nodes_pushOperation]
  cases hx : g.nodes[n]? with
  | none =>
    have hn : n ∉ kind.operands := fun h => by
      rw [Array.getElem?_eq_getElem (hk n h)] at hx
      cases hx
    simp [hn]
  | some x => simp [withOperation, List.mem_replicate, and_comm, List.count_eq_zero]

theorem mem_bounds_pushOperation {kind : Kind} (sink : NodeId) (r : Range)
    (hk : ∀ {n c}, kind.bound? = some (n, c) → n < g.nodes.size) (n : NodeId) (o : OpId) :
    o ∈ (g.pushOperation sink kind r).bounds n ↔
      o ∈ g.bounds n ∨ (o = g.ops.size ∧ ∃ c, kind.bound? = some (n, c)) := by
  unfold bounds
  rw [nodes_pushOperation]
  cases hx : g.nodes[n]? with
  | none =>
    have hn : ¬ ∃ c, kind.bound? = some (n, c) := fun ⟨c, h⟩ => by
      rw [Array.getElem?_eq_getElem (hk h)] at hx
      cases hx
    simp only [Option.map_none, Option.getD_none, List.not_mem_nil, false_or, hn, and_false]
  | some x =>
    cases hb : kind.bound? with
    | none => simp [withOperation, hb]
    | some b =>
      obtain ⟨m, c⟩ := b
      by_cases h : m = n <;> simp [withOperation, hb, h]

/-- Operation `o'` after the phi `o` is given more sources. -/
def withSources (o : OpId) (sources : List NodeId) (o' : OpId) (op : Operation) : Operation :=
  match op.kind with
  | .phi old => if o = o' then { op with kind := .phi (old ++ sources) } else op
  | _ => op

theorem ops_extendPhi (g : Graph) (o : OpId) (sources : List NodeId) (o' : OpId) (op : Operation) :
    (g.extendPhi o sources).ops[o']? = some op ↔
      ∃ old, g.ops[o']? = some old ∧ withSources o sources o' old = op := by
  rw [← Option.map_eq_some_iff]
  unfold extendPhi withSources
  rw [Array.getElem?_modify]
  cases g.ops[o']? with
  | none => simp
  | some x =>
    obtain ⟨sink, kind, r⟩ := x
    by_cases h : o = o' <;> cases kind <;> simp [h]

theorem sink_withSources (o : OpId) (sources : List NodeId) (o' : OpId) (op : Operation) :
    (withSources o sources o' op).sink = op.sink := by
  unfold withSources
  split
  · split <;> rfl
  · rfl

theorem bound?_withSources (o : OpId) (sources : List NodeId) (o' : OpId) (op : Operation) :
    (withSources o sources o' op).kind.bound? = op.kind.bound? := by
  unfold withSources
  split
  · split
    · rename_i h _
      rw [h]
      rfl
    · rfl
  · rfl

theorem withSources_cases (o : OpId) (sources : List NodeId) (o' : OpId) (op : Operation) :
    withSources o sources o' op = op ∨ ∃ old, op.kind = .phi old ∧
      withSources o sources o' op = { op with kind := .phi (old ++ sources) } := by
  unfold withSources
  split
  · split
    · exact .inr ⟨_, ‹_›, rfl⟩
    · exact .inl rfl
  · exact .inl rfl

/-- Only the phi reads the added sources. -/
theorem mem_operands_withSources {o o' : OpId} {op : Operation} (hPhi : g.isPhi o = true)
    (ho : g.ops[o']? = some op) (sources : List NodeId) (n : NodeId) :
    n ∈ (withSources o sources o' op).kind.operands ↔
      n ∈ op.kind.operands ∨ (o' = o ∧ n ∈ sources) := by
  obtain ⟨sink, kind, r⟩ := op
  by_cases he : o = o'
  · subst he
    cases kind with
    | phi old => simp [withSources, Kind.operands]
    | _ =>
      rw [isPhi, ho] at hPhi
      cases hPhi
  · cases kind <;> simp [withSources, he, Ne.symm he]

theorem exists_of_isPhi {o : OpId} (h : g.isPhi o = true) : ∃ op, g.ops[o]? = some op := by
  unfold isPhi at h
  split at h
  · exact ⟨_, ‹_›⟩
  · cases h

theorem mem_uses_extendPhi {sources : List NodeId} (hs : ∀ n ∈ sources, n < g.nodes.size)
    (o : OpId) (n : NodeId) (o' : OpId) :
    o' ∈ (g.extendPhi o sources).uses n ↔ o' ∈ g.uses n ∨ (o' = o ∧ n ∈ sources) := by
  unfold uses
  rw [nodes_extendPhi]
  cases hx : g.nodes[n]? with
  | none =>
    have hn : n ∉ sources := fun h => by
      rw [Array.getElem?_eq_getElem (hs n h)] at hx
      cases hx
    simp [hn]
  | some x => simp [List.mem_replicate, and_comm, List.count_eq_zero]

/-- A new node has no operations yet, so that nothing changes for the others. -/
theorem Wired.pushNode (h : Wired g) (p : Program) (v : ValueId) :
    Wired { g with nodes := g.nodes.push (newNode p v) } := by
  have hNode (n : NodeId) : (g.nodes.push (newNode p v))[n]? =
      if n = g.nodes.size then some (newNode p v) else g.nodes[n]? :=
    Array.getElem?_push
  have hDefinition (n : NodeId) :
      (g.nodes.push (newNode p v))[n]?.bind (·.definition) = g.definition n := by
    rw [hNode]
    by_cases hn : n = g.nodes.size <;> simp [definition, hn, newNode]
  have hUses (n : NodeId) :
      ((g.nodes.push (newNode p v))[n]?.map (·.uses)).getD [] = g.uses n := by
    rw [hNode]
    by_cases hn : n = g.nodes.size <;> simp [uses, hn, newNode]
  have hBounds (n : NodeId) :
      ((g.nodes.push (newNode p v))[n]?.map (·.bounds)).getD [] = g.bounds n := by
    rw [hNode]
    by_cases hn : n = g.nodes.size <;> simp [bounds, hn, newNode]
  have hSize : g.nodes.size ≤ (g.nodes.push (newNode p v)).size := by
    rw [Array.size_push]
    exact Nat.le_add_right _ 1
  exact {
    sink_lt := fun ho => Nat.lt_of_lt_of_le (h.sink_lt ho) hSize
    operand_lt := fun ho hn => Nat.lt_of_lt_of_le (h.operand_lt ho hn) hSize
    bound_lt := fun ho hb => Nat.lt_of_lt_of_le (h.bound_lt ho hb) hSize
    definition_iff := fun n o => by
      rw [← h.definition_iff, ← hDefinition]
      rfl
    mem_uses := fun n o => by
      rw [← h.mem_uses, ← hUses]
      rfl
    mem_bounds := fun n o => by
      rw [← h.mem_bounds, ← hBounds]
      rfl }

theorem Wired.pushOperation (h : Wired g) {sink : NodeId} {kind : Kind} {r : Range}
    (hs : sink < g.nodes.size) (hFree : g.definition sink = none)
    (hk : Admissible p g v kind r) : Wired (g.pushOperation sink kind r) := by
  have hOps := ops_pushOperation g sink kind r
  have hSize := size_pushOperation g sink kind r
  refine ⟨⟨?_, ?_, ?_, ?_, ?_⟩, ?_⟩
  · intro o op ho
    rw [hSize]
    rcases (hOps o op).mp ho with ⟨-, rfl⟩ | ho
    · exact hs
    · exact h.sink_lt ho
  · intro o op n ho hn
    rw [hSize]
    rcases (hOps o op).mp ho with ⟨-, rfl⟩ | ho
    · exact hk.operand_lt n hn
    · exact h.operand_lt ho hn
  · intro o op n c ho hb
    rw [hSize]
    rcases (hOps o op).mp ho with ⟨-, rfl⟩ | ho
    · exact hk.bound_lt hb
    · exact h.bound_lt ho hb
  · intro n o
    simp only [mem_uses_pushOperation sink r hk.operand_lt, h.mem_uses, hOps]
    constructor
    · rintro (⟨op, ho, hn⟩ | ⟨rfl, hn⟩)
      · exact ⟨op, .inr ho, hn⟩
      · exact ⟨_, .inl ⟨rfl, rfl⟩, hn⟩
    · rintro ⟨op, ⟨rfl, rfl⟩ | ho, hn⟩
      · exact .inr ⟨rfl, hn⟩
      · exact .inl ⟨op, ho, hn⟩
  · intro n o
    simp only [mem_bounds_pushOperation sink r hk.bound_lt, h.mem_bounds, hOps]
    constructor
    · rintro (⟨op, c, ho, hb⟩ | ⟨rfl, c, hb⟩)
      · exact ⟨op, c, .inr ho, hb⟩
      · exact ⟨_, c, .inl ⟨rfl, rfl⟩, hb⟩
    · rintro ⟨op, c, ⟨rfl, rfl⟩ | ho, hb⟩
      · exact .inr ⟨rfl, c, hb⟩
      · exact .inl ⟨op, c, ho, hb⟩
  · intro n o
    simp only [definition_pushOperation kind r hs, hOps]
    constructor
    · intro hd
      by_cases hn : n = sink
      · rw [if_pos hn] at hd
        exact ⟨_, .inl ⟨(Option.some.inj hd).symm, rfl⟩, hn.symm⟩
      · rw [if_neg hn, h.definition_iff] at hd
        obtain ⟨op, ho, hop⟩ := hd
        exact ⟨op, .inr ho, hop⟩
    · rintro ⟨op, ⟨rfl, rfl⟩ | ho, rfl⟩
      · rw [if_pos rfl]
      · have hd := (h.definition_iff op.sink o).mpr ⟨op, ho, rfl⟩
        rw [if_neg, hd]
        -- the sink of the new operation had no definition
        intro hn
        rw [hn, hFree] at hd
        cases hd

theorem Wired.extendPhi (h : Wired g) {o : OpId} {sources : List NodeId}
    (hPhi : g.isPhi o = true) (hs : ∀ n ∈ sources, n < g.nodes.size) :
    Wired (g.extendPhi o sources) := by
  have hOps := ops_extendPhi g o sources
  have hSize : (g.extendPhi o sources).nodes.size = g.nodes.size := size_addUses o sources g.nodes
  have hDefinition (n : NodeId) : (g.extendPhi o sources).definition n = g.definition n := by
    unfold definition
    rw [nodes_extendPhi]
    cases g.nodes[n]? <;> rfl
  have hBounds (n : NodeId) : (g.extendPhi o sources).bounds n = g.bounds n := by
    unfold bounds
    rw [nodes_extendPhi]
    cases g.nodes[n]? <;> rfl
  refine ⟨⟨?_, ?_, ?_, ?_, ?_⟩, ?_⟩
  · intro o' op ho
    obtain ⟨old, hOld, rfl⟩ := (hOps o' op).mp ho
    rw [hSize, sink_withSources]
    exact h.sink_lt hOld
  · intro o' op n ho hn
    obtain ⟨old, hOld, rfl⟩ := (hOps o' op).mp ho
    rw [hSize]
    rcases (mem_operands_withSources hPhi hOld sources n).mp hn with hn | ⟨-, hn⟩
    · exact h.operand_lt hOld hn
    · exact hs n hn
  · intro o' op n c ho hb
    obtain ⟨old, hOld, rfl⟩ := (hOps o' op).mp ho
    rw [bound?_withSources] at hb
    rw [hSize]
    exact h.bound_lt hOld hb
  · intro n o'
    rw [mem_uses_extendPhi hs, h.mem_uses]
    constructor
    · rintro (⟨op, ho, hn⟩ | ⟨rfl, hn⟩)
      · exact ⟨_, (hOps o' _).mpr ⟨op, ho, rfl⟩,
          (mem_operands_withSources hPhi ho sources n).mpr (.inl hn)⟩
      · obtain ⟨op, ho⟩ := exists_of_isPhi hPhi
        exact ⟨_, (hOps o' _).mpr ⟨op, ho, rfl⟩,
          (mem_operands_withSources hPhi ho sources n).mpr (.inr ⟨rfl, hn⟩)⟩
    · rintro ⟨op, ho, hn⟩
      obtain ⟨old, hOld, rfl⟩ := (hOps o' op).mp ho
      rcases (mem_operands_withSources hPhi hOld sources n).mp hn with hn | hn
      · exact .inl ⟨old, hOld, hn⟩
      · exact .inr hn
  · intro n o'
    rw [hBounds, h.mem_bounds]
    constructor
    · rintro ⟨op, c, ho, hb⟩
      exact ⟨_, c, (hOps o' _).mpr ⟨op, ho, rfl⟩, (bound?_withSources o sources o' op).trans hb⟩
    · rintro ⟨op, c, ho, hb⟩
      obtain ⟨old, hOld, rfl⟩ := (hOps o' op).mp ho
      exact ⟨old, c, hOld, (bound?_withSources o sources o' old).symm.trans hb⟩
  · intro n o'
    rw [hDefinition, h.definition_iff]
    constructor
    · rintro ⟨op, ho, rfl⟩
      exact ⟨_, (hOps o' _).mpr ⟨op, ho, rfl⟩, sink_withSources o sources o' op⟩
    · rintro ⟨op, ho, rfl⟩
      obtain ⟨old, hOld, rfl⟩ := (hOps o' op).mp ho
      exact ⟨old, hOld, (sink_withSources o sources o' old).symm⟩

theorem Extension.wired (h : Extension p D g g') (hw : Wired g) : Wired g' := by
  cases h with
  | value hOpen hNew => exact hw.pushNode p _
  | operation hOpen hSink hDefined hFree hKind =>
    exact hw.pushOperation (lt_of_valueAt? hSink) hFree hKind
  | sources hOpen hPhi hSources => exact hw.extendPhi hPhi hSources
  | facts branches switches =>
    exact ⟨⟨hw.sink_lt, hw.operand_lt, hw.bound_lt, hw.mem_uses, hw.mem_bounds⟩,
      hw.definition_iff⟩

theorem wired_empty (s : Sentinels) (o : Options) : Wired (empty s o) := by
  refine ⟨⟨nofun, nofun, nofun, fun n o => ?_, fun n o => ?_⟩, fun n o => ?_⟩ <;>
    simp [empty, definition, uses, bounds]

end Steps

/-- The nodes of the graph say of their values what the program says, only values in `D` are
defined, conversions are between the types of their nodes, and only a sigma without a bound has an
intersection of its own. -/
structure Mirrors (p : Program) (D : ValueId → Prop) (g : Graph) : Prop where
  node {n : NodeId} {x : Node} : g.nodes[n]? = some x →
    x.type = p.typeOf x.value ∧ x.const = (p.value x.value).const ∧ x.hint = (p.value x.value).hint
  defined {n : NodeId} {x : Node} : g.nodes[n]? = some x → x.definition ≠ none → D x.value
  converts {o : OpId} {op : Operation} {u : UnaryOp} {n : NodeId} {source target : IntType} :
    g.ops[o]? = some op → op.kind = .unary u n source target →
      source = g.typeOf n ∧ target = g.typeOf op.sink
  whole {o : OpId} {op : Operation} : g.ops[o]? = some op → (∀ n, op.kind ≠ .sigma n none) →
    op.intersect = g.sentinels.max

namespace Mirrors

variable {p : Program} {D : ValueId → Prop} {g g' : Graph} {n : NodeId} {v : ValueId}

theorem typeOf_eq (h : Mirrors p D g) (hv : g.valueAt? n = some v) : g.typeOf n = p.typeOf v := by
  obtain ⟨x, hx, rfl⟩ := Option.map_eq_some_iff.mp hv
  rw [typeOf, hx]
  exact (h.node hx).1

theorem pushNode (h : Mirrors p D g) (hw : Wired g) (v : ValueId) :
    Mirrors p D { g with nodes := g.nodes.push (newNode p v) } := by
  have hNode {n : NodeId} {x : Node} (hx : (g.nodes.push (newNode p v))[n]? = some x) :
      x = newNode p v ∨ g.nodes[n]? = some x := by
    rw [Array.getElem?_push] at hx
    by_cases hn : n = g.nodes.size
    · rw [if_pos hn] at hx
      exact .inl (Option.some.inj hx).symm
    · rw [if_neg hn] at hx
      exact .inr hx
  have hType {n : NodeId} (hn : n < g.nodes.size) :
      (((g.nodes.push (newNode p v))[n]?).map (·.type)).getD .void = g.typeOf n := by
    rw [typeOf, Array.getElem?_push, if_neg (Nat.ne_of_lt hn)]
  refine ⟨?_, ?_, ?_, h.whole⟩
  · intro n x hx
    rcases hNode hx with rfl | hx
    · exact ⟨rfl, rfl, rfl⟩
    · exact h.node hx
  · intro n x hx hd
    rcases hNode hx with rfl | hx
    · exact absurd rfl hd
    · exact h.defined hx hd
  · intro o op u n source target ho hk
    obtain ⟨hSource, hTarget⟩ := h.converts ho hk
    have hn : n < g.nodes.size := hw.operand_lt ho (by rw [hk]; exact List.mem_singleton_self n)
    exact ⟨hSource.trans (hType hn).symm, hTarget.trans (hType (hw.sink_lt ho)).symm⟩

theorem typeOf_pushOperation (g : Graph) (sink : NodeId) (kind : Kind) (r : Range) (n : NodeId) :
    (g.pushOperation sink kind r).typeOf n = g.typeOf n := by
  unfold typeOf
  rw [nodes_pushOperation]
  cases g.nodes[n]? <;> rfl

theorem pushOperation (h : Mirrors p D g) {sink : NodeId} {kind : Kind} {r : Range}
    (hs : g.valueAt? sink = some v) (hv : D v) (hk : Admissible p g v kind r) :
    Mirrors p D (g.pushOperation sink kind r) := by
  refine ⟨?_, ?_, ?_, ?_⟩
  · intro n x hx
    rw [nodes_pushOperation] at hx
    obtain ⟨old, hOld, rfl⟩ := Option.map_eq_some_iff.mp hx
    have hNode := h.node hOld
    exact hNode
  · intro n x hx hd
    rw [nodes_pushOperation] at hx
    obtain ⟨old, hOld, rfl⟩ := Option.map_eq_some_iff.mp hx
    by_cases hn : n = sink
    · subst hn
      rw [Graph.valueAt?, hOld] at hs
      cases hs
      exact hv
    · have hDefined := h.defined hOld
      simp only [withOperation, hn, if_false] at hd
      exact hDefined hd
  · intro o op u n source target ho hu
    rw [typeOf_pushOperation, typeOf_pushOperation]
    rcases (ops_pushOperation g sink kind r o op).mp ho with ⟨-, rfl⟩ | ho
    · obtain ⟨⟨a, ha, hSource⟩, hTarget⟩ := hk.converts hu
      exact ⟨hSource.trans (h.typeOf_eq ha).symm, hTarget.trans (h.typeOf_eq hs).symm⟩
    · exact h.converts ho hu
  · intro o op ho hn
    rcases (ops_pushOperation g sink kind r o op).mp ho with ⟨-, rfl⟩ | ho
    · exact hk.whole hn
    · exact h.whole ho hn

theorem extendPhi (h : Mirrors p D g) {o : OpId} {sources : List NodeId} :
    Mirrors p D (g.extendPhi o sources) := by
  have hType (n : NodeId) : (g.extendPhi o sources).typeOf n = g.typeOf n := by
    unfold typeOf
    rw [nodes_extendPhi]
    cases g.nodes[n]? <;> rfl
  refine ⟨?_, ?_, ?_, ?_⟩
  · intro n x hx
    rw [nodes_extendPhi] at hx
    obtain ⟨old, hOld, rfl⟩ := Option.map_eq_some_iff.mp hx
    have hNode := h.node hOld
    exact hNode
  · intro n x hx hd
    rw [nodes_extendPhi] at hx
    obtain ⟨old, hOld, rfl⟩ := Option.map_eq_some_iff.mp hx
    have hDefined := h.defined hOld
    exact hDefined hd
  · intro o' op u n source target ho hk
    obtain ⟨old, hOld, rfl⟩ := (ops_extendPhi g o sources o' op).mp ho
    rw [hType, hType, sink_withSources]
    rcases withSources_cases o sources o' old with hSame | ⟨phi, -, hPhi⟩
    · rw [hSame] at hk
      exact h.converts hOld hk
    · rw [hPhi] at hk
      cases hk
  · intro o' op ho hn
    obtain ⟨old, hOld, rfl⟩ := (ops_extendPhi g o sources o' op).mp ho
    rcases withSources_cases o sources o' old with hSame | ⟨phi, hOldPhi, hPhi⟩
    · rw [hSame] at hn ⊢
      exact h.whole hOld hn
    · have hWhole : old.intersect = g.sentinels.max := h.whole hOld (by simp [hOldPhi])
      rw [hPhi]
      exact hWhole

end Mirrors

theorem Extension.mirrors {p : Program} {D : ValueId → Prop} {g g' : Graph}
    (h : Extension p D g g') (hw : Wired g) (hm : Mirrors p D g) : Mirrors p D g' := by
  cases h with
  | value hOpen hNew => exact hm.pushNode hw _
  | operation hOpen hSink hDefined hFree hKind => exact hm.pushOperation hSink hDefined hKind
  | sources hOpen hPhi hSources => exact hm.extendPhi
  | facts branches switches => exact ⟨hm.node, hm.defined, hm.converts, hm.whole⟩

/-- What holds of a graph before it is solved. -/
structure Ready (p : Program) (D : ValueId → Prop) (g : Graph) : Prop where
  wired : Wired g
  mirrors : Mirrors p D g
  started : g.started = false
  solved : g.solved = false

theorem ready_empty (p : Program) (D : ValueId → Prop) (s : Sentinels) (o : Options) :
    Ready p D (empty s o) :=
  ⟨wired_empty s o, ⟨nofun, nofun, nofun, nofun⟩, rfl, rfl⟩

theorem Growth.ready {p : Program} {D : ValueId → Prop} {g g' : Graph} (h : Growth p D g g')
    (hr : Ready p D g) : Ready p D g' := by
  induction h with
  | refl => exact hr
  | tail _ hStep ih =>
    have hFrame := hStep.sameFrame
    exact ⟨hStep.wired ih.wired, hStep.mirrors ih.wired ih.mirrors,
      hFrame.started.trans ih.started, hFrame.solved.trans ih.solved⟩

theorem Built.ready {p : Program} {D : ValueId → Prop} {g : Graph} (hD : Definable p D)
    (h : Built p g) : Ready p D g := by
  obtain ⟨s, o, hGrow⟩ := h.growth hD
  exact hGrow.ready (ready_empty p D s o)

end ValueRange.Graph
