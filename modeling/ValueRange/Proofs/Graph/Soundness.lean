import ValueRange.Proofs.Graph.Meaning

/-! Soundness of the solution. After each component the ranges of the solved nodes hold every value
that the nodes may take, and so do the intersections of the operations. Widening ends in a range
that holds what the operations give, and narrowing takes away only what they do not give. -/

namespace ValueRange.Graph

open Range

variable {g h h' b : Graph} {cs : Components} {k : Nat} {comp : List NodeId} {m : Meet}
variable {n : NodeId} {o : OpId} {op : Operation} {x z : Int}

/-- Conversions are between the types of their nodes, operations define integers, and all types are
narrower than the sentinels. -/
structure Typed (g : Graph) : Prop extends Unsolved g where
  converts {o : OpId} {op : Operation} {u : UnaryOp} {n : NodeId} {source target : IntType} :
    g.ops[o]? = some op → op.kind = .unary u n source target →
      source = g.typeOf n ∧ target = g.typeOf op.sink
  integer {o : OpId} {op : Operation} : g.ops[o]? = some op →
    (g.typeOf op.sink).isInteger = true
  narrower {n : NodeId} : n < g.nodes.size → (g.typeOf n).signedWidth < g.sentinels.bits

theorem Meaning.inner (hg : Typed g) (h : Meaning g n x) : g.sentinels.Inner x :=
  h.contains.inner (hg.narrower (h.lt_size hg.wired.toLinked))

/-- The state `h` of a solution has the operations of `g`, up to intersections, and its types. -/
structure Follows (g h : Graph) : Prop where
  sentinels : h.sentinels = g.sentinels
  size : h.nodes.size = g.nodes.size
  typeOf (n : NodeId) : h.typeOf n = g.typeOf n
  definition (n : NodeId) : h.definition n = g.definition n
  old {o : OpId} {op : Operation} : h.ops[o]? = some op →
    ∃ old, g.ops[o]? = some old ∧ old.sink = op.sink ∧ old.kind = op.kind
  new {o : OpId} {op : Operation} : g.ops[o]? = some op →
    ∃ new, h.ops[o]? = some new ∧ new.sink = op.sink ∧ new.kind = op.kind

theorem Unsolved.follows (hg : Unsolved g) (hShape : h.shape = (g.begun cs).shape) :
    Follows g h := by
  have hNode (n : NodeId) := getElem?_seed hg.started n
  refine ⟨(sentinels_of_shape hShape).trans (sentinels_seed hg.started), ?_, fun n => ?_, fun n => ?_,
    fun ho => ?_, fun ho => op_of_shape hShape.symm ((ops_seed hg.started).symm ▸ ho)⟩
  · refine (size_of_shape hShape).trans ?_
    rw [begun, seed_of_not_started hg.started]
    exact Array.size_map
  · refine (typeOf_of_shape hShape n).trans ?_
    rw [begun, Graph.typeOf, Graph.typeOf, hNode, Option.map_map]
    rfl
  · refine (definition_of_shape hShape n).trans ?_
    rw [begun, Graph.definition, Graph.definition, hNode]
    cases g.nodes[n]? <;> rfl
  · obtain ⟨old, hOld, hSame⟩ := op_of_shape hShape ho
    exact ⟨old, ops_seed hg.started ▸ hOld, hSame⟩

namespace Follows

theorem of_shape (hShape : h'.shape = h.shape) (hf : Follows g h) : Follows g h' := by
  refine ⟨(sentinels_of_shape hShape).trans hf.sentinels, (size_of_shape hShape).trans hf.size,
    fun n => (typeOf_of_shape hShape n).trans (hf.typeOf n),
    fun n => (definition_of_shape hShape n).trans (hf.definition n),
    fun {o op} ho => ?_, fun {o op} ho => ?_⟩
  · obtain ⟨old, hOld, hSink, hKind⟩ := op_of_shape hShape ho
    obtain ⟨first, hFirst, hSink', hKind'⟩ := hf.old hOld
    exact ⟨first, hFirst, hSink'.trans hSink, hKind'.trans hKind⟩
  · obtain ⟨new, hNew, hSink, hKind⟩ := hf.new ho
    obtain ⟨last, hLast, hSink', hKind'⟩ := op_of_shape hShape.symm hNew
    exact ⟨last, hLast, hSink'.trans hSink, hKind'.trans hKind⟩

theorem inner (hf : Follows g h) (hg : Typed g) (hx : Meaning g n x) : h.sentinels.Inner x := by
  rw [hf.sentinels]
  exact hx.inner hg

/-- What the sink of an operation takes is given by the operation. -/
theorem gives (hf : Follows g h) (hg : Unsolved g) (ho : h.ops[o]? = some op)
    (hz : Meaning g op.sink z) (hIntersect : z ∈ op.intersect) : Gives (Meaning g) op z := by
  obtain ⟨old, hOld, hSink, hKind⟩ := hf.old ho
  exact (Meaning.gives hg hOld (hSink ▸ hz)).of_kind hKind.symm hIntersect

/-- The range of an operation holds what the operation gives for members of the ranges of its
sources. -/
theorem mem_eval (hf : Follows g h) (hg : Typed g) (hr : Regular h) (ho : h.ops[o]? = some op)
    (hz : Meaning g op.sink z) (hIntersect : z ∈ op.intersect)
    (hGives : Gives (fun n x => Meaning g n x ∧ x ∈ h.range n) op z) : z ∈ h.eval op := by
  refine hr.mem_eval ?_ hIntersect
  obtain ⟨old, hOld, hSink, hKind⟩ := hf.old ho
  have hzInner := hf.inner hg hz
  have hzType : (h.typeOf op.sink).Contains z := hf.typeOf op.sink ▸ hz.contains
  unfold Gives at hGives
  cases hk : op.kind with
  | unary u a t t' =>
    obtain ⟨ht, ht'⟩ := hg.converts hOld (hKind.trans hk)
    rw [hk] at hGives
    obtain ⟨y, ⟨hy, hMem⟩, hOut⟩ := hGives
    exact mem_evalUnary (hr.range a) hMem (ht ▸ hy.contains) (ht' ▸ hg.integer hOld) hzInner hOut
  | sigma a bound =>
    rw [hk] at hGives
    cases bound with
    | none => exact hGives.1.2
    | some p => exact hGives.1.2
  | binary f a c =>
    rw [hk] at hGives
    obtain ⟨x, y, ⟨hx, hxMem⟩, ⟨hy, hyMem⟩, hOut⟩ := hGives
    exact mem_evalBinary (hr.range a) (hr.range c) hxMem hyMem (hf.inner hg hx) (hf.inner hg hy)
      hzInner hzType hOut
  | phi sources =>
    rw [hk] at hGives
    obtain ⟨a, ha, -, hMem⟩ := hGives
    exact mem_of_subset (hr.subset_phi op.sink ha) hMem

end Follows

/-- The ranges of the nodes below `k`, those of nodes without a definition, and all intersections
hold the values that the nodes may take. -/
structure Covers (g : Graph) (cs : Components) (k : Nat) (h : Graph) : Prop where
  follows : Follows g h
  regular : Regular h
  range {n : NodeId} {x : Int} : cs.number n < k → Meaning g n x → x ∈ h.range n
  fixed {n : NodeId} {x : Int} : g.definition n = none → Meaning g n x → x ∈ h.range n
  intersect {o : OpId} {op : Operation} {x : Int} : h.ops[o]? = some op → Meaning g op.sink x →
    x ∈ op.intersect

/-- An operation whose sources are covered gives only members of its range. -/
theorem Covers.mem_eval (hCovers : Covers g cs k h) (hg : Typed g) (ho : h.ops[o]? = some op)
    (hz : Meaning g op.sink z)
    (hGives : Gives (fun n x => Meaning g n x ∧ x ∈ h.range n) op z) : z ∈ h.eval op :=
  hCovers.follows.mem_eval hg hCovers.regular ho hz (hCovers.intersect ho hz) hGives

/-- What holds of the values of nodes without a definition, and of what the operations give for
values of which it holds, holds of all values. -/
theorem Covers.induct (hCovers : Covers g cs k h) {P : NodeId → Int → Prop} (hg : Unsolved g)
    (hBase : ∀ {n : NodeId} {x : Int}, Meaning g n x → g.definition n = none → P n x)
    (hOp : ∀ {o : OpId} {op : Operation} {z : Int}, h.ops[o]? = some op → Meaning g op.sink z →
      Gives (fun n x => Meaning g n x ∧ P n x) op z → P op.sink z)
    (hx : Meaning g n x) : P n x := by
  refine Meaning.le hg hBase (fun {o op z} ho hz hGives => ?_) hx
  obtain ⟨new, hNew, hSink, hKind⟩ := hCovers.follows.new ho
  rw [← hSink] at hz ⊢
  exact hOp hNew hz (hGives.of_kind hKind (hCovers.intersect hNew hz))

/-- Resolving the bounds of covered nodes keeps the intersections covered. -/
theorem Resolved.covers {picks : NodeId → OpId → Prop} (hr : Resolved h h' picks) (hg : Typed g)
    (hCovers : Covers g cs k h) (hPicks : ∀ b o, picks b o → cs.number b < k) :
    Covers g cs k h' := by
  have hf := hCovers.follows
  refine ⟨hf.of_shape hr.shape, hr.regular hCovers.regular, fun hn hx => hr.range _ ▸ hCovers.range hn hx,
    fun hn hx => hr.range _ ▸ hCovers.fixed hn hx, fun {o op x} ho hx => ?_⟩
  obtain ⟨old, hOld, hSink, hKind⟩ := op_of_shape hr.shape ho
  have hIntersect := hCovers.intersect hOld (hSink ▸ hx)
  by_cases hHit : ∃ b c, old.kind.bound? = some (b, c) ∧ picks b o
  · obtain ⟨b, c, hBound, hPick⟩ := hHit
    cases ho.symm.trans (hr.hit hOld hBound hPick)
    have hGives := hf.gives hg.toUnsolved hOld hx hIntersect
    obtain ⟨a, hk⟩ := exists_sigma_of_bound? hBound
    rw [Gives, hk] at hGives
    obtain ⟨-, y, hy, hHolds⟩ := hGives
    have hb := hCovers.regular.range b
    have hRegion := region_admits hb.sentinels_eq (.of_mem (hCovers.range (hPicks b o hPick) hy)) hHolds
    have hInner := hf.inner hg hx
    rw [← (hb.region c).sentinels_eq] at hInner
    exact hRegion.mem (Int.le_of_lt hInner.1) (Int.le_of_lt hInner.2)
  · have hSame := hr.miss hOld fun b c hBound hPick => hHit ⟨b, c, hBound, hPick⟩
    cases ho.symm.trans hSame
    exact hIntersect

/-- Before its component is solved, the range of a sink holds what its operation gives for values of
solved nodes. -/
theorem Stage.mem_of_solved (hs : Stage b cs k h) (hg : Typed g) (hCovers : Covers g cs k h)
    (ho : h.ops[o]? = some op) (hk : k ≤ cs.number op.sink) (hz : Meaning g op.sink z)
    (hGives : Gives (fun n x => Meaning g n x ∧ cs.number n < k) op z) :
    z ∈ h.range op.sink := by
  have hSeeded := hs.seeded ho hk
  have hEval (hAll : ∀ n ∈ op.kind.operands, cs.number n < k) : z ∈ h.range op.sink := by
    rw [hSeeded.eval hAll]
    exact hCovers.mem_eval hg ho hz (hGives.mono fun n _ x hx => ⟨hx.1, hCovers.range hx.2 hx.1⟩)
  rw [Gives] at hGives
  cases hKind : op.kind with
  | unary u a t t' =>
    rw [hKind] at hGives
    obtain ⟨x, hx, -⟩ := hGives
    exact hEval (by simp [hKind, Kind.operands, hx.2])
  | sigma a bound =>
    rw [hKind] at hGives
    cases bound with
    | none => exact hEval (by simp [hKind, Kind.operands, hGives.1.2])
    | some p => exact hEval (by simp [hKind, Kind.operands, hGives.1.2])
  | binary f a c =>
    rw [hKind] at hGives
    obtain ⟨x, y, hx, hy, -⟩ := hGives
    exact hEval (by simp [hKind, Kind.operands, hx.2, hy.2])
  | phi sources =>
    rw [hKind] at hGives
    obtain ⟨a, ha, hx, hlt⟩ := hGives
    exact mem_of_subset (hSeeded.phi hKind ha hlt) (hCovers.range hlt hx)

section Solving

variable {g₁ g₂ g₃ g₄ : Graph}

/-- A component without an entry takes no values. -/
theorem Stage.not_meaning (hs : Stage b cs k h) (hg : Typed g) (hCovers : Covers g cs k h)
    (hc : cs.members[k]? = some comp) (hEntry : h.hasEntry comp = false) (hn : cs.number n = k) :
    ¬ Meaning g n x := by
  have hEmpty {n : NodeId} {x : Int} (hx : Meaning g n x) (hn : cs.number n = k) :
      x ∉ h.range n := by
    intro hMem
    have hlt : n < h.nodes.size := hCovers.follows.size ▸ hx.lt_size hg.wired.toLinked
    have hNot := List.any_eq_false.mp hEntry n ((hs.layout.mem_iff hc n).mpr ⟨hlt, hn⟩)
    simp [hMem.1] at hNot
  intro hx
  refine hCovers.induct (P := fun n _ => cs.number n ≠ k) hg.toUnsolved (fun hx hd hn => ?_)
    (fun {o op z} ho hz hGives hn => ?_) hx hn
  · exact hEmpty hx hn (hCovers.fixed hd hx)
  · refine hEmpty hz hn (hs.mem_of_solved hg hCovers ho (Nat.le_of_eq hn.symm) hz ?_)
    refine hGives.mono fun a ha y hy => ⟨hy.1, ?_⟩
    exact Nat.lt_of_le_of_ne (hn ▸ hs.layout.number_le ho ha) hy.2

/-- A component that is widened holds what its operations give. -/
theorem Stage.covers_widened (hs : Stage b cs k h) (hg : Typed g) (hCovers : Covers g cs k h)
    (hc : cs.members[k]? = some comp) (hSolving : Solving m k comp h g₁ g₂ g₃ g₄) :
    Covers g cs (k + 1) g₁ := by
  have hShape := hSolving.shape₁
  have hRegular := hSolving.regular₁ hs.regular
  have hLayout := hs.layout.of_shape hShape
  have hSame {n : NodeId} (hn : n ∉ comp) : g₁.range n = h.range n :=
    (hSolving.range_outside hs.layout hn).1
  have hOld {n : NodeId} {x : Int} (hn : cs.number n < k) (hx : Meaning g n x) :
      x ∈ g₁.range n := by
    rw [hSame fun hMem => Nat.ne_of_lt hn ((hs.layout.mem_iff hc n).mp hMem).2]
    exact hCovers.range hn hx
  have hFixed {n : NodeId} {x : Int} (hd : g.definition n = none) (hx : Meaning g n x) :
      x ∈ g₁.range n := by
    rw [(hSolving.range_undefined hs.layout hc ((hCovers.follows.definition n).trans hd)).1]
    exact hCovers.fixed hd hx
  have hFirst : Covers g cs k g₁ :=
    ⟨hCovers.follows.of_shape hShape, hRegular, hOld, hFixed,
      fun ho => hCovers.intersect (updates_ops hSolving.widens ▸ ho)⟩
  refine ⟨hFirst.follows, hRegular, fun {n x} hn hx => ?_, hFixed, hFirst.intersect⟩
  cases hEntry : h.hasEntry comp with
  | true =>
    refine hFirst.induct (P := fun n x => cs.number n < k + 1 → x ∈ g₁.range n) hg.toUnsolved
      (fun hx hd _ => hFixed hd hx) (fun {o op z} ho hz hGives hn => ?_) hx hn
    rcases Nat.lt_succ_iff_lt_or_eq.mp hn with hn | hn
    · exact hOld hn hz
    · refine mem_of_subset (hSolving.eval_subset hs.layout hs.regular hc hEntry ho hn)
        (hFirst.mem_eval hg ho hz ?_)
      refine hGives.mono fun a ha y hy => ⟨hy.1, hy.2 ?_⟩
      exact Nat.lt_succ_of_le (hn ▸ hLayout.number_le ho ha)
  | false =>
    rcases Nat.lt_succ_iff_lt_or_eq.mp hn with hn | hn
    · exact hOld hn hx
    · exact absurd hx (hs.not_meaning hg hCovers hc hEntry hn)

/-- Narrowing takes no value away. -/
theorem covers_narrowed (hm : m.Tight) (hg : Typed g) (hLayout : Layout h cs)
    (hc : cs.members[k]? = some comp) (hCovers : Covers g cs (k + 1) h)
    (hNarrows : Relation.ReflTransGen (Update m (h.definitions comp)) h h') :
    Covers g cs (k + 1) h' := by
  induction hNarrows with
  | refl => exact hCovers
  | @tail h₁ h₂ hRun hStep ih =>
    have hShape₁ := updates_shape hRun
    have hLayout₁ := hLayout.of_shape hShape₁
    have hShape := hStep.shape
    have hRegular := hStep.regular hm.toLawful ih.regular
    obtain ⟨o, ho, op, r, hOp, hUpdate, rfl⟩ := hStep
    have hTightens := hm.tightens (ih.regular.range op.sink) (ih.regular.eval op) hUpdate
    obtain ⟨old, hOld, hMem⟩ := (hLayout.mem_definitions o).mp ho
    obtain ⟨new, hNew, hSink, -⟩ := op_of_shape hShape₁.symm hOld
    cases hOp.symm.trans hNew
    have hNumber := ((hLayout.mem_iff hc _).mp hMem).2
    -- the only range that changes is that of the sink, which its operation covers
    have hKeeps {n : NodeId} {x : Int} (hx : Meaning g n x) (hIn : x ∈ h₁.range n) :
        x ∈ (h₁.setRange op.sink r).range n := by
      by_cases hn : n = op.sink
      · subst hn
        rw [range_setRange (hLayout₁.wired.sink_lt hOp), if_pos rfl]
        refine hTightens.mem hIn (ih.mem_eval hg hOp hx ?_)
        have hGives := ih.follows.gives hg.toUnsolved hOp hx (ih.intersect hOp hx)
        refine hGives.mono fun a ha y hy => ⟨hy, ih.range ?_ hy⟩
        rw [← hNumber, ← hSink]
        exact Nat.lt_succ_of_le (hLayout₁.number_le hOp ha)
      · rw [range_setRange_of_ne _ _ hn]
        exact hIn
    exact ⟨ih.follows.of_shape hShape, hRegular, fun hn hx => hKeeps hx (ih.range hn hx),
      fun hd hx => hKeeps hx (ih.fixed hd hx), ih.intersect⟩

/-- Solving a component covers its nodes. -/
theorem Stage.covers_next (hs : Stage b cs k h) (hm : m.Tight) (hg : Typed g)
    (hCovers : Covers g cs k h) (hc : cs.members[k]? = some comp)
    (hSolving : Solving m k comp h g₁ g₂ g₃ g₄) : Covers g cs (k + 1) g₄ := by
  have hInComp {n : NodeId} (hn : n ∈ comp) : cs.number n < k + 1 :=
    Nat.lt_succ_of_le (Nat.le_of_eq ((hs.layout.mem_iff hc n).mp hn).2)
  have h₁ := hs.covers_widened hg hCovers hc hSolving
  have h₂ := hSolving.resolved.covers hg h₁ fun b _ hb => hInComp hb
  have hLayout := hs.layout.of_shape hSolving.shape₂
  have h₃ := covers_narrowed hm hg hLayout hc h₂
    (definitions_of_shape hSolving.shape₂ comp ▸ hSolving.narrows)
  obtain ⟨g', hResolved, hAssigned⟩ := hSolving.propagated
  have h' := hResolved.covers hg h₃ fun b _ hb => hInComp hb.1
  refine ⟨h₃.follows.of_shape (hAssigned.shape.trans hResolved.shape), hAssigned.regular,
    fun hn hx => ?_, fun hd hx => ?_, fun ho => h'.intersect (hAssigned.ops ▸ ho)⟩
  · rw [hSolving.range_solved hs.layout hc (Nat.le_of_lt_succ hn)]
    exact h₃.range hn hx
  · have hd' := (hCovers.follows.definition _).trans hd
    rw [(hSolving.range_undefined hs.layout hc hd').2.2]
    exact hCovers.fixed hd hx

end Solving

/-! ### The whole solution -/

theorem Built.typed {p : Program} (hp : p.Made) (h : Built p g)
    (hWidth : ∀ n < g.nodes.size, (g.typeOf n).signedWidth < g.sentinels.bits) : Typed g := by
  have hReady := h.ready (definable_of_made hp)
  refine ⟨h.unsolved hp, hReady.mirrors.converts, fun {o op} ho => ?_, hWidth _⟩
  have hDef := (hReady.wired.definition_iff op.sink o).mpr ⟨op, ho, rfl⟩
  obtain ⟨x, hx, hd⟩ := Option.bind_eq_some_iff.mp hDef
  rw [typeOf, hx, Option.map_some, Option.getD_some, (hReady.mirrors.node hx).1]
  exact (hReady.mirrors.defined hx (by simp [hd])).2

/-- The range that a node starts with holds what the node may be if it is not defined. -/
theorem mem_startRange (hg : Typed g) (hx : Meaning g n x) (hd : g.definition n = none) :
    x ∈ g.seed.range n := by
  have hInner := hx.inner hg
  have hLow := Int.le_of_lt hInner.1
  have hHigh := Int.le_of_lt hInner.2
  have hDefined {o : OpId} {op : Operation} (ho : g.ops[o]? = some op) :
      g.definition op.sink ≠ none := by
    rw [(hg.wired.definition_iff op.sink o).mpr ⟨op, ho, rfl⟩]
    exact nofun
  rw [range_seed hg.started]
  cases hx with
  | const hn hc =>
    rw [hn, Option.map_some, Option.getD_some, startRange, hc]
    exact Sentinels.mem_interval (Int.le_refl _) (Int.le_refl _) hLow hHigh
  | @free _ node _ hn hc hd hh =>
    rw [hn, Option.map_some, Option.getD_some, startRange, hc, hd]
    cases hHint : node.hint with
    | none => exact ⟨rfl, hLow, hHigh⟩
    | some hint =>
      obtain ⟨hLower, hUpper⟩ := hh hint hHint
      refine Sentinels.mem_interval ?_ ?_ hLow hHigh
      · cases hl : hint.lower with
        | none => exact hLow
        | some l => exact hLower l hl
      · cases hu : hint.upper with
        | none => exact hHigh
        | some u => exact hUpper u hu
  | unary ho | sigma ho | bounded ho | binary ho | phi ho => exact absurd hd (hDefined ho)

theorem Typed.covers_begun (hg : Typed g) (hs : Stage (g.begun cs) cs 0 (g.begun cs)) :
    Covers g cs 0 (g.begun cs) := by
  refine ⟨hg.toUnsolved.follows rfl, hs.regular, fun hn => absurd hn (Nat.not_lt_zero _),
    fun hd hx => mem_startRange hg hx hd, fun {o op x} ho hx => ?_⟩
  replace ho : g.ops[o]? = some op := ops_seed hg.started ▸ ho
  by_cases hk : ∃ a, op.kind = .sigma a none
  · obtain ⟨a, hk⟩ := hk
    have hGives := Meaning.gives hg.toUnsolved ho hx
    rw [Gives, hk] at hGives
    exact hGives.2
  · rw [hg.whole ho fun a ha => hk ⟨a, ha⟩]
    have hInner := hx.inner hg
    exact ⟨rfl, Int.le_of_lt hInner.1, Int.le_of_lt hInner.2⟩

theorem Progress.covers (h : Progress m cs b k h') (hs : Stage b cs 0 b) (hm : m.Tight)
    (hg : Typed g) (hCovers : Covers g cs 0 b) : Covers g cs k h' := by
  induction h with
  | start => exact hCovers
  | next hProgress hSame hc hSolving ih =>
    refine ((hProgress.stage hs).sameState hSame).covers_next hm hg ?_ hc hSolving
    exact ⟨ih.follows.of_shape hSame.shape, hSame.regular ih.regular,
      fun hn hx => hSame.range _ ▸ ih.range hn hx, fun hd hx => hSame.range _ ▸ ih.fixed hd hx,
      fun ho => ih.intersect (hSame.ops ▸ ho)⟩

/-- Solving a graph whose types are narrower than the sentinels gives every node a range that holds
all values that the node may take. -/
theorem solve_sound {p : Program} (hp : p.Made) (hBuilt : Built p g)
    (hNarrowing : g.narrowing = .cousot ∨ g.narrowing = .crop)
    (hWidth : ∀ n < g.nodes.size, (g.typeOf n).signedWidth < g.sentinels.bits) :
    ∃ g', solve.run.run g = (.ok (), g') ∧ ∀ n x, Meaning g n x → x ∈ g'.range n := by
  have hg := hBuilt.typed hp hWidth
  obtain ⟨m, hMeet, hm⟩ := exists_tight hNarrowing
  obtain ⟨cs, g', hStage, hProgress, hRun⟩ := hg.solve_run hm.toLawful hMeet
  refine ⟨_, hRun, fun n x hx => ?_⟩
  have hCovers := hProgress.covers hStage hm hg (hg.covers_begun hStage)
  refine hCovers.range (hStage.layout.number_lt ?_) hx
  rw [(hg.toUnsolved.follows rfl).size]
  exact hx.lt_size hg.wired.toLinked

/-- The graph of the loop between sentinels of nine bits. -/
def counting : Graph := (build Program.counting 0 ⟨.cousot, 9, false⟩).2

/-- One step of the loop leads from zero to one. -/
theorem meaning_counting : Meaning counting 2 1 := by
  let s := Sentinels.ofWidth 9
  have hNode {n : NodeId} (hn : n < counting.nodes.size) := Array.getElem?_eq_getElem hn
  have hZero : Meaning counting 1 0 :=
    .const (hNode (by decide +kernel)) (by decide +kernel) (by decide +kernel)
  have hOne : Meaning counting 5 1 :=
    .const (hNode (by decide +kernel)) (by decide +kernel) (by decide +kernel)
  have hLimit : Meaning counting 0 100 :=
    .free (hNode (by decide +kernel)) (by decide +kernel) (by decide +kernel)
      (fun h hh => nomatch hh.symm.trans (by decide +kernel : _ = none)) (by decide +kernel)
  have hPhi : Meaning counting 3 0 := @Meaning.phi _ 0 ⟨3, .phi [1, 2], s.max⟩ [1, 2] 1 0
    (by decide +kernel) rfl (by decide) hZero (by decide +kernel)
  have hSigma : Meaning counting 4 0 := @Meaning.bounded _ 1 ⟨4, .sigma 3 (some (0, .slt)), s.max⟩
    3 0 .slt 0 100 (by decide +kernel) rfl hPhi hLimit (show (0 : Int) < 100 by decide) (by decide +kernel)
  exact @Meaning.binary _ 2 ⟨2, .binary .add 4 5, s.max⟩ .add 4 5 0 1 1 (by decide +kernel) rfl
    hSigma hOne rfl (by decide +kernel)

/-- The solution of the loop holds what one step of it leads to. -/
theorem counting_sound : ∃ g', solve.run.run counting = (.ok (), g') ∧ 1 ∈ g'.range 2 := by
  obtain ⟨g', hRun, hSound⟩ := solve_sound Program.counting_made ⟨⟨.cousot, 9, false⟩, .inl ⟨0, rfl⟩⟩
    (.inl (by decide +kernel)) (by decide +kernel)
  exact ⟨g', hRun, hSound 2 1 meaning_counting⟩

end ValueRange.Graph
