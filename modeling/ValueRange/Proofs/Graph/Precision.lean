import ValueRange.Proofs.Graph.Acyclic
import ValueRange.Proofs.Graph.Course
import ValueRange.Proofs.Graph.Definitions

/-! No precision is lost outside of loops. When all that an operation reads is solved before its sink,
the last evaluation into the sink sees final ranges and, for a sigma, the region of its bound's final
range. A graph without loops is therefore solved by evaluating its operations once, in any order in
which each comes after those that it reads. -/

namespace ValueRange

/-- The operation reads the node or is bounded by it. -/
def Operation.Reads (op : Operation) (n : NodeId) : Prop :=
  n ∈ op.kind.operands ∨ ∃ c, op.kind.bound? = some (n, c)

theorem Operation.exists_reads {op : Operation} (h : op.kind ≠ .phi []) : ∃ n, op.Reads n := by
  have hOperands : op.kind.operands ≠ [] := by
    cases hk : op.kind with
    | unary | sigma | binary => simp [Kind.operands]
    | phi sources =>
      rw [hk] at h
      exact fun hNil => h (congrArg Kind.phi hNil)
  obtain ⟨n, hn⟩ := List.exists_mem_of_ne_nil _ hOperands
  exact ⟨n, .inl hn⟩

namespace Graph

open Range

variable {g g' b : Graph} {cs : Components} {k : Nat} {comp : List NodeId} {m : Meet} {t : Task}
variable {n : NodeId} {o : OpId} {op : Operation}

/-! ### Between components -/

/-- What the solution holds of operations outside of loops when the components below `k` are solved.
An intersection is derived from the range of its bound, and once all that an operation reads is
solved, its sink has its evaluation. -/
structure Sharp (b : Graph) (cs : Components) (k : Nat) (g : Graph) : Prop where
  shape : g.shape = b.shape
  undefined {n : NodeId} : g.definition n = none → g.range n = b.range n
  unbounded {o : OpId} {op : Operation} : g.ops[o]? = some op → op.kind.bound? = none →
    b.ops[o]? = some op
  resolved {o : OpId} {op : Operation} {n : NodeId} {c : Comparison} : g.ops[o]? = some op →
    op.kind.bound? = some (n, c) → cs.number n < cs.number op.sink → cs.number n < k →
      op.intersect = region g.sentinels c (g.range n)
  evaluated {o : OpId} {op : Operation} : g.ops[o]? = some op → Ahead cs op → (∃ n, op.Reads n) →
    (∀ n, op.Reads n → cs.number n < k) → g.range op.sink = g.eval op

theorem Sharp.sameState (hs : Sharp b cs k g) (h : SameState g g') : Sharp b cs k g' := by
  refine ⟨h.shape.trans hs.shape, fun hn => ?_, fun ho => hs.unbounded (h.ops ▸ ho),
    fun ho hb hlt hk => ?_, fun {o op} ho hAhead hReads hAll => ?_⟩
  · rw [h.range]
    exact hs.undefined (definition_of_shape h.shape _ ▸ hn)
  · rw [h.range, sentinels_of_shape h.shape]
    exact hs.resolved (h.ops ▸ ho) hb hlt hk
  · rw [h.range, hs.evaluated (h.ops ▸ ho) hAhead hReads hAll]
    exact (eval_congr h.shape op fun n _ => h.range n).symm

section Solving

variable {g₁ g₂ g₃ g₄ : Graph} (h : Solving m k comp g g₁ g₂ g₃ g₄) (hg : Layout g cs)
  (hc : cs.members[k]? = some comp)
include h

include hg hc

/-- The component gives a sigma of another component the region of its bound's final range. -/
theorem Solving.intersect_eq {c : Comparison} (ho : g₄.ops[o]? = some op)
    (hb : op.kind.bound? = some (n, c)) (hn : n ∈ comp) (hlt : k < cs.number op.sink) :
    op.intersect = region g₄.sentinels c (g₄.range n) := by
  obtain ⟨g', hResolved, hAssigned⟩ := h.propagated
  obtain ⟨old, hOld, hSink, hKind⟩ := op_of_shape h.shape₄ ho
  obtain ⟨op₃, ho₃, hSink₃, hKind₃⟩ := op_of_shape h.shape₃.symm hOld
  have hOutside : g.inside k o = false := by
    rw [← Bool.not_eq_true, hg.inside_iff hOld, hSink]
    exact Nat.ne_of_gt hlt
  have hHit := hResolved.hit ho₃ (by rw [hKind₃, hKind, hb]) ⟨hn, hOutside⟩
  rw [hAssigned.ops, hHit] at ho
  cases ho
  have hFinal := h.range_solved hg hc (Nat.le_of_eq ((hg.mem_iff hc n).mp hn).2)
  rw [hFinal, sentinels_of_shape (h.shape₄.trans h.shape₃.symm)]

/-- A node that was solved before keeps its range. -/
theorem Solving.range_before (hn : cs.number n < k) : g₄.range n = g.range n := by
  have hOut : n ∉ comp := fun hMem => Nat.ne_of_lt hn ((hg.mem_iff hc n).mp hMem).2
  rw [h.range_solved hg hc (Nat.le_of_lt hn)]
  exact (h.range_outside hg hOut).2.2

-- What the component feeds is evaluated after it is solved, and all other evaluations stay.
theorem Sharp.next (hs : Sharp b cs k g) (hr : Regular g) (hm : m.Tight) :
    Sharp b cs (k + 1) g₄ := by
  have hMem {n : NodeId} (hn : n < g.nodes.size) : n ∈ comp ↔ cs.number n = k := by
    rw [hg.mem_iff hc]
    exact and_iff_right hn
  refine ⟨h.shape₄.trans hs.shape, fun hn => ?_, fun {o op} ho hb => ?_,
    fun {o op n c} ho hb hlt hk => ?_, fun {o op} ho hAhead hReads hAll => ?_⟩
  · rw [definition_of_shape h.shape₄] at hn
    rw [(h.range_undefined hg hc hn).2.2, hs.undefined hn]
  · refine hs.unbounded (h.op_old ho ?_) hb
    intro n c hnc
    rw [hb] at hnc
    cases hnc
  · by_cases hn : n ∈ comp
    · refine h.intersect_eq hg hc ho hb hn ?_
      rwa [((hg.mem_iff hc n).mp hn).2] at hlt
    · have hOld := h.op_old ho fun n' c' hb' => by
        cases hb.symm.trans hb'
        exact hn
      have hk' : cs.number n < k := by
        have hne := mt (hMem (hg.wired.bound_lt hOld hb)).mpr hn
        omega
      rw [h.range_before hg hc hk', sentinels_of_shape h.shape₄]
      exact hs.resolved hOld hb hlt hk'
  · by_cases hFed : ∃ n, op.Reads n ∧ n ∈ comp
    · obtain ⟨n, hRead, hn⟩ := hFed
      obtain ⟨old, hOld, hSink, hKind⟩ := op_of_shape h.shape₄ ho
      have hlt := hAhead n hRead
      rw [((hg.mem_iff hc n).mp hn).2, ← hSink] at hlt
      refine h.range_fed hg hc ho ?_ fun n hn => hAll n (.inl hn)
      exact (hg.mem_fed hc o).mpr ⟨old, hOld, hlt, n, hn, hKind ▸ hRead⟩
    · have hOut {n : NodeId} (hRead : op.Reads n) : n ∉ comp := fun hn => hFed ⟨n, hRead, hn⟩
      have hOld := h.op_old ho fun n c hb => hOut (.inr ⟨c, hb⟩)
      have hBefore (n : NodeId) (hRead : op.Reads n) : cs.number n < k := by
        have hLt : n < g.nodes.size := by
          rcases hRead with hn | ⟨c, hb⟩
          · exact hg.wired.operand_lt hOld hn
          · exact hg.wired.bound_lt hOld hb
        have hne := mt (hMem hLt).mpr (hOut hRead)
        have hle := hAll n hRead
        omega
      have hEval := hs.evaluated hOld hAhead hReads hBefore
      by_cases hSink : cs.number op.sink < k + 1
      · exact (h.range_kept hg hr hm hc hOld hAhead hSink hEval).2
      · have hNot : op.sink ∉ comp := fun hn => by
          rw [((hg.mem_iff hc _).mp hn).2] at hSink
          omega
        rw [h.range_propagated, (h.range_outside hg hNot).2.2, hEval]
        · exact (eval_congr h.shape₄ op fun n hn =>
            h.range_before hg hc (hBefore n (.inl hn))).symm
        · intro o' ho' hSame
          obtain ⟨op', hOp', -, n, hn, hRead⟩ := (hg.mem_fed hc o').mp ho'
          rw [sink_eq hOp'] at hSame
          cases hg.wired.eq_of_sink hOld hOp' hSame.symm
          cases hOld.symm.trans hOp'
          exact hOut hRead hn

end Solving

theorem Task.Runs.solving (ht : t.Runs cs g) (hMeet : meetOf g.narrowing = .ok t.meet) :
    ∃ g₀ g₁ g₂ g₃, SameState g g₀ ∧ Solving t.meet t.pos t.comp g₀ g₁ g₂ g₃ (t.propagated g) := by
  obtain ⟨g₀, g₁, g₂, g₃, g₄, hSame, hSolving, hRun⟩ :=
    solveComponent_run ht.tight.toLawful hMeet ht.layout ht.regular ht.mem
  cases hRun.symm.trans (solveComponent_eq hMeet)
  exact ⟨g₀, g₁, g₂, g₃, hSame, hSolving⟩

theorem sharp_before (hLayout : Layout b cs) (hRegular : Regular b) (hm : m.Tight)
    (hMeet : meetOf b.narrowing = .ok m) (hk : k ≤ cs.members.size) :
    Sharp b cs k (before m cs b k) := by
  induction k with
  | zero =>
    refine ⟨rfl, fun _ => rfl, fun ho _ => ho, fun _ _ _ hk => absurd hk (Nat.not_lt_zero _),
      fun ho _ hReads hAll => ?_⟩
    obtain ⟨n, hn⟩ := hReads
    exact absurd (hAll n hn) (Nat.not_lt_zero _)
  | succ k ih =>
    have ht := runs_before hLayout hRegular hm hk
    have hMeet' : meetOf (before m cs b k).narrowing = .ok (taskOf m cs k).meet := by
      rw [narrowing_of_shape (shape_before m cs b k)]
      exact hMeet
    obtain ⟨g₀, g₁, g₂, g₃, hSame, hSolving⟩ := ht.solving hMeet'
    have hs := (ih (Nat.le_of_succ_le hk)).sameState hSame
    exact hs.next hSolving (ht.layout.of_shape hSame.shape) ht.mem (hSame.regular ht.regular) hm

/-! ### Nodes outside of loops -/

/-- No other node is in the component of the node. -/
def Alone (g : Graph) (v : NodeId) : Prop := ∀ w, g.componentOf w = g.componentOf v → w = v

/-- A node that is alone in its component, and is not read by the operation that defines it, has the
evaluation of that operation; and where the operation is a bounded sigma, its intersection is the
region of the bound's range. -/
def Precise (g : Graph) : Prop :=
  ∀ v o op, g.definition v = some o → g.ops[o]? = some op → g.Alone v → ¬ op.Reads v →
    g.range v = g.eval op ∧
      ∀ n c, op.kind.bound? = some (n, c) → op.intersect = region g.sentinels c (g.range n)

theorem Layout.componentOf_eq (hg : Layout g cs) (hn : n < g.nodes.size) :
    g.componentOf n = .ok (cs.number n) := by
  unfold componentOf
  rw [hg.components]
  dsimp only
  rw [hg.arranged.getElem?_numberOf hn]

theorem Layout.ahead_of_alone (hg : Layout g cs) (ho : g.ops[o]? = some op)
    (hAlone : g.Alone op.sink) (hNot : ¬ op.Reads op.sink) : Ahead cs op := by
  intro n hRead
  refine Nat.lt_of_le_of_ne (hg.number_le ho hRead) fun hEq => hNot ?_
  have hLt : n < g.nodes.size := by
    rcases hRead with hn | ⟨c, hb⟩
    · exact hg.wired.operand_lt ho hn
    · exact hg.wired.bound_lt ho hb
  rw [← hAlone n (by rw [hg.componentOf_eq hLt, hg.componentOf_eq (hg.wired.sink_lt ho), hEq])]
  exact hRead

theorem Full.exists_reads (hFull : Full g) (ho : g.ops[o]? = some op) : ∃ n, op.Reads n :=
  Operation.exists_reads (hFull op (Array.mem_of_getElem? ho))

theorem Sharp.precise (hs : Sharp b cs cs.members.size g) (hg : Layout g cs)
    (hFull : Full g) : Precise g := by
  intro v o op hDef ho hAlone hNot
  obtain ⟨op', ho', rfl⟩ := (hg.wired.definition_iff v o).mp hDef
  cases ho.symm.trans ho'
  have hAhead := hg.ahead_of_alone ho hAlone hNot
  have hLast {n : NodeId} (hRead : op.Reads n) : cs.number n < cs.members.size :=
    Nat.lt_trans (hAhead n hRead) (hg.number_lt (hg.wired.sink_lt ho))
  refine ⟨hs.evaluated ho hAhead (hFull.exists_reads ho) fun n hn => hLast hn, fun n c hb => ?_⟩
  exact hs.resolved ho hb (hAhead n (.inr ⟨c, hb⟩)) (hLast (.inr ⟨c, hb⟩))

/-! ### Graphs without loops -/

/-- The operation as the ranges of a graph bound it. -/
def bounded (g : Graph) (op : Operation) : Operation :=
  match op.kind.bound? with
  | some (n, c) => { op with intersect := region g.sentinels c (g.range n) }
  | none => op

/-- Evaluates an operation into its sink after its intersection is resolved. -/
def evaluate (g : Graph) (o : OpId) : Graph :=
  match g.ops[o]? with
  | some op => g.setRange op.sink (g.eval (g.bounded op))
  | none => g

/-- The ranges that come out when operations are evaluated one after the other, each once. -/
def evaluated (g : Graph) (order : List OpId) : Graph := order.foldl evaluate g.seed

/-- An order of all operations in which none reads the sink of a later one. -/
structure Topological (g : Graph) (order : List OpId) : Prop where
  perm : order.Perm (List.range g.ops.size)
  pairwise : order.Pairwise fun o o' => ¬ g.Feeds (g.sink o') (g.sink o)

/-- No node feeds itself along any path. -/
def Acyclic (g : Graph) : Prop := ∀ n, ¬ Relation.TransGen g.Feeds n n

/-- The ranges of `h` solve the equations of the graph `g`. A node without a definition has its first
range, and a sink has the evaluation of its operation. -/
structure Solves (h g : Graph) : Prop where
  sentinels : h.sentinels = g.sentinels
  typeOf (n : NodeId) : h.typeOf n = g.typeOf n
  undefined {n : NodeId} : g.definition n = none → h.range n = g.seed.range n
  defined {o : OpId} {op : Operation} : g.ops[o]? = some op →
    h.range op.sink = h.eval (h.bounded op)

theorem sink_bounded (g : Graph) (op : Operation) : (g.bounded op).sink = op.sink := by
  unfold bounded
  split <;> rfl

theorem kind_bounded (g : Graph) (op : Operation) : (g.bounded op).kind = op.kind := by
  unfold bounded
  split <;> rfl

/-- The evaluation of an operation with its bound depends on the ranges of what it reads. -/
theorem eval_bounded_congr (hs : g'.sentinels = g.sentinels)
    (ht : g'.typeOf op.sink = g.typeOf op.sink) (hRange : ∀ n, op.Reads n → g'.range n = g.range n) :
    g'.eval (g'.bounded op) = g.eval (g.bounded op) := by
  have hBounded : g'.bounded op = g.bounded op := by
    unfold bounded
    split
    case h_1 n c hb => rw [hs, hRange n (.inr ⟨c, hb⟩)]
    case h_2 => rfl
  rw [hBounded]
  refine eval_eq_eval _ hs ?_ fun n hn => hRange n (.inl ?_)
  · rw [sink_bounded, ht]
  · rwa [kind_bounded] at hn

/-- Equations without loops have one solution: by induction along the edges, whose ranks rise. -/
theorem Solves.range_eq {h h' : Graph} {rank : NodeId → Nat} (hw : Wired g)
    (hRank : ∀ {n m}, g.Feeds n m → rank n < rank m) (hh : Solves h g) (hh' : Solves h' g)
    (n : NodeId) : h.range n = h'.range n := by
  induction hr : rank n using Nat.strong_induction_on generalizing n with
  | _ r ih =>
    cases hDef : g.definition n with
    | none => rw [hh.undefined hDef, hh'.undefined hDef]
    | some o =>
      obtain ⟨op, ho, rfl⟩ := (hw.definition_iff n o).mp hDef
      rw [hh.defined ho, hh'.defined ho]
      refine eval_bounded_congr (hh.sentinels.trans hh'.sentinels.symm)
        ((hh.typeOf _).trans (hh'.typeOf _).symm) fun n hRead => ?_
      exact ih (rank n) (hr ▸ hRank ⟨o, op, ho, rfl, hRead⟩) n rfl

/-- What a pass of evaluations in order leaves: nodes that are no sinks keep their ranges, and the
sinks have the evaluations of their operations. -/
structure Evaluates (os : List OpId) (g h : Graph) : Prop where
  shape : h.shape = g.shape
  ops : h.ops = g.ops
  kept {n : NodeId} : (∀ o ∈ os, g.sink o ≠ n) → h.range n = g.range n
  defined {o : OpId} {op : Operation} : o ∈ os → g.ops[o]? = some op →
    h.range op.sink = h.eval (h.bounded op)

theorem evaluate_eq (ho : g.ops[o]? = some op) :
    g.evaluate o = g.setRange op.sink (g.eval (g.bounded op)) := by
  unfold evaluate
  rw [ho]

theorem evaluates_foldl (hw : Wired g) (hSelf : ∀ n, ¬ g.Feeds n n) (os : List OpId)
    (hos : ∀ o ∈ os, o < g.ops.size) (hNodup : os.Nodup)
    (hOrder : os.Pairwise fun o o' => ¬ g.Feeds (g.sink o') (g.sink o)) :
    Evaluates os g (os.foldl evaluate g) := by
  induction os using List.reverseRecOn with
  | nil => exact ⟨rfl, rfl, fun _ => rfl, nofun⟩
  | append_singleton os k ih =>
    obtain ⟨hNodup', -, hDisjoint⟩ := List.nodup_append.mp hNodup
    obtain ⟨hOrder', -, hLast⟩ := List.pairwise_append.mp hOrder
    have h := ih (fun o ho => hos o (List.mem_append_left _ ho)) hNodup' hOrder'
    rw [List.foldl_append, List.foldl_cons, List.foldl_nil]
    generalize os.foldl evaluate g = h₁ at h
    have hk : k < g.ops.size := hos k (List.mem_append_right _ (List.mem_singleton_self k))
    obtain ⟨last, hOp⟩ : ∃ op, g.ops[k]? = some op := ⟨_, Array.getElem?_eq_getElem hk⟩
    have hOp₁ : h₁.ops[k]? = some last := h.ops ▸ hOp
    rw [evaluate_eq hOp₁]
    have hShape := shape_setRange h₁ last.sink (h₁.eval (h₁.bounded last))
    -- the last evaluation changes nothing that an operation up to there reads
    have hCongr {o : OpId} {op : Operation} (ho : g.ops[o]? = some op)
        (hNot : ¬ g.Feeds last.sink op.sink) :
        (h₁.setRange last.sink (h₁.eval (h₁.bounded last))).eval
          ((h₁.setRange last.sink (h₁.eval (h₁.bounded last))).bounded op) =
        h₁.eval (h₁.bounded op) := by
      refine eval_bounded_congr (sentinels_of_shape hShape) (typeOf_of_shape hShape _)
        fun n hRead => range_setRange_of_ne h₁ _ ?_
      rintro rfl
      exact hNot ⟨o, op, ho, rfl, hRead⟩
    refine ⟨hShape.trans h.shape, h.ops, fun hn => ?_, fun {o op} ho hOp' => ?_⟩
    · rw [range_setRange_of_ne, h.kept fun o ho => hn o (List.mem_append_left _ ho)]
      rintro rfl
      exact hn k (List.mem_append_right _ (List.mem_singleton_self k)) (sink_eq hOp)
    · rcases List.mem_append.mp ho with ho | ho
      · have hNot := hLast o ho k (List.mem_singleton_self k)
        rw [sink_eq hOp, sink_eq hOp'] at hNot
        rw [hCongr hOp' hNot, range_setRange_of_ne, h.defined ho hOp']
        intro hSame
        exact hDisjoint o ho k (List.mem_singleton_self k) (hw.eq_of_sink hOp' hOp hSame)
      · cases List.mem_singleton.mp ho
        cases hOp.symm.trans hOp'
        rw [hCongr hOp (hSelf last.sink), range_setRange, if_pos rfl]
        rw [size_of_shape h.shape]
        exact hw.sink_lt hOp

section Seed

variable (hStarted : g.started = false)
include hStarted

theorem sink_seed (o : OpId) : g.seed.sink o = g.sink o := by
  unfold sink
  rw [ops_seed hStarted]

theorem feeds_seed : g.seed.Feeds = g.Feeds := by
  unfold Feeds
  rw [ops_seed hStarted]

/-- Evaluation in order solves a graph without loops. -/
theorem Topological.solves {order : List OpId} (hOrder : g.Topological order) (hw : Wired g)
    (hSelf : ∀ n, ¬ g.Feeds n n) : Solves (g.evaluated order) g := by
  have hMem (o : OpId) : o ∈ order ↔ o < g.ops.size := by
    rw [hOrder.perm.mem_iff, List.mem_range]
  have h := evaluates_foldl (hw.seed hStarted) (by rwa [feeds_seed hStarted]) order
    (fun o ho => by rw [ops_seed hStarted]; exact (hMem o).mp ho)
    (hOrder.perm.nodup_iff.mpr List.nodup_range)
    (by simpa only [feeds_seed hStarted, sink_seed hStarted] using hOrder.pairwise)
  refine ⟨(sentinels_of_shape h.shape).trans (sentinels_seed hStarted),
    fun n => (typeOf_of_shape h.shape n).trans (typeOf_seed hStarted n), fun {n} hn => ?_,
    fun {o op} ho => ?_⟩
  · refine h.kept fun o ho hSink => ?_
    obtain ⟨op, hOp⟩ : ∃ op, g.ops[o]? = some op :=
      ⟨_, Array.getElem?_eq_getElem ((hMem o).mp ho)⟩
    rw [sink_seed hStarted, sink_eq hOp] at hSink
    rw [(hw.definition_iff n o).mpr ⟨op, hOp, hSink⟩] at hn
    cases hn
  · refine h.defined ((hMem o).mpr (Array.getElem?_eq_some_iff.mp ho).1) ?_
    rw [ops_seed hStarted]
    exact ho

end Seed

/-- Without loops the components are numbered along the edges. -/
theorem Layout.number_lt_of_feeds (hg : Layout g cs) (hAcyclic : Acyclic g) {n m : NodeId}
    (h : g.Feeds n m) : cs.number n < cs.number m := by
  obtain ⟨o, op, ho, rfl, hRead⟩ := h
  have hSuccessors : (fun n m => m ∈ g.successors n) = g.Feeds := by
    funext n m
    exact propext (hg.wired.mem_successors n m)
  refine hg.ahead ho (fun n hRead hReach => ?_) n hRead
  unfold Reach at hReach
  rw [hSuccessors] at hReach
  exact hAcyclic n (.head' ⟨o, op, ho, rfl, hRead⟩ hReach)

/-- The operations can be put in order by the ranks of their sinks. -/
theorem exists_topological {rank : NodeId → Nat} (hRank : ∀ {n m}, g.Feeds n m → rank n < rank m) :
    ∃ order, g.Topological order := by
  let le (o o' : OpId) : Bool := decide (rank (g.sink o) ≤ rank (g.sink o'))
  refine ⟨(List.range g.ops.size).mergeSort le, List.mergeSort_perm _ le, ?_⟩
  have hSorted := @List.pairwise_mergeSort _ le
    (fun a b c hab hbc => by simp only [le, decide_eq_true_eq] at *; omega)
    (fun a b => by simp only [le, Bool.or_eq_true, decide_eq_true_eq]; omega)
    (List.range g.ops.size)
  refine hSorted.imp fun {o o'} hle hFeeds => ?_
  have hLt := hRank hFeeds
  simp only [le, decide_eq_true_eq] at hle
  omega

/-- If no operation is in a loop, the solution solves the equations of the graph. -/
theorem Sharp.solves (hStarted : g.started = false)
    (hs : Sharp (g.begun cs) cs cs.members.size g') (hg : Layout g' cs) (hFull : Full g')
    (hAhead : ∀ {o : OpId} {op : Operation}, g'.ops[o]? = some op → Ahead cs op) : Solves g' g := by
  refine ⟨(sentinels_of_shape hs.shape).trans (sentinels_seed hStarted),
    fun n => (typeOf_of_shape hs.shape n).trans (typeOf_seed hStarted n), fun {n} hn => ?_,
    fun {o op} ho => ?_⟩
  · refine hs.undefined ?_
    rw [definition_of_shape hs.shape]
    exact (definition_seed hStarted n).trans hn
  · have hBegun : (g.begun cs).ops[o]? = some op := (ops_seed hStarted).symm ▸ ho
    obtain ⟨last, hLast, hSink, hKind⟩ := op_of_shape hs.shape.symm hBegun
    have hAll {n : NodeId} (hRead : last.Reads n) : cs.number n < cs.members.size :=
      Nat.lt_trans (hAhead hLast n hRead) (hg.number_lt (hg.wired.sink_lt hLast))
    have hBounded : g'.bounded op = last := by
      unfold bounded
      split
      case h_1 n c hb =>
        rw [← hKind] at hb
        have hRead : last.Reads n := .inr ⟨c, hb⟩
        rw [← hs.resolved hLast hb (hAhead hLast n hRead) (hAll hRead), ← hSink, ← hKind]
      case h_2 hb =>
        rw [← hKind] at hb
        exact Option.some.inj (hBegun.symm.trans (hs.unbounded hLast hb))
    rw [hBounded, ← hSink]
    exact hs.evaluated hLast (hAhead hLast) (hFull.exists_reads hLast) fun n hn => hAll hn

theorem Acyclic.exists_rank (hAcyclic : Acyclic g) (hg : Wired g) (hStarted : g.started = false) :
    ∃ rank : NodeId → Nat, ∀ {n m}, g.Feeds n m → rank n < rank m := by
  obtain ⟨cs, -, hLayout⟩ := hg.layout_begun hStarted
  have hFeeds : (g.begun cs).Feeds = g.Feeds := feeds_seed hStarted
  have hBegun : Acyclic (g.begun cs) := by
    unfold Acyclic
    rwa [hFeeds]
  exact ⟨cs.number, fun h => hLayout.number_lt_of_feeds hBegun (hFeeds ▸ h)⟩

/-- A graph that was not started is solved, precisely outside of loops. -/
theorem solve_run_precise (hg : Wired g) (hStarted : g.started = false) (hSolved : g.solved = false)
    (hFull : Full g) (hNarrowing : g.narrowing = .cousot ∨ g.narrowing = .crop) :
    ∃ g', solve.run.run g = (.ok (), g') ∧ Precise g' ∧ (Acyclic g → Solves g' g) := by
  obtain ⟨m, hMeet, hm⟩ := exists_tight hNarrowing
  obtain ⟨cs, hFind, hLayout⟩ := hg.layout_begun hStarted
  have hRegular : Regular (g.begun cs) := ⟨(regular_seed hStarted).range⟩
  have hMeet' : meetOf (g.begun cs).narrowing = .ok m := by
    rw [begun, narrowing_seed hStarted]
    exact hMeet
  have hs := sharp_before hLayout hRegular hm hMeet' (Nat.le_refl _)
  have hLast := hLayout.of_shape hs.shape
  have hFullBegun : Full (g.begun cs) := fun op hOp => hFull op (ops_seed hStarted ▸ hOp)
  have hFullLast := hFullBegun.of_shape hs.shape
  refine ⟨_, solve_eq hSolved hFind hMeet, hs.precise hLast hFullLast, fun hAcyclic => ?_⟩
  have hBegun : Acyclic (g.begun cs) := by
    unfold Acyclic
    rwa [show (g.begun cs).Feeds = g.Feeds from feeds_seed hStarted]
  have hSolves := hs.solves hStarted hLast hFullLast fun {o op} ho n hRead => by
    obtain ⟨old, hOld, hSink, hKind⟩ := op_of_shape hs.shape ho
    rw [← hSink]
    exact hLayout.number_lt_of_feeds hBegun ⟨o, old, hOld, rfl, hKind ▸ hRead⟩
  exact ⟨hSolves.sentinels, hSolves.typeOf, hSolves.undefined, hSolves.defined⟩

/-- The equations of a graph do not depend on how it is to be narrowed. -/
theorem Solves.of_narrowing {h : Graph} {x : Narrowing} (hh : Solves h { g with narrowing := x }) :
    Solves h g := by
  refine ⟨hh.sentinels, hh.typeOf, fun hn => (hh.undefined hn).trans ?_, hh.defined⟩
  unfold seed
  cases g.started <;> rfl

/-- Nothing is lost outside of loops, whichever narrowing is chosen. A graph without loops is solved
by evaluating its operations in any topological order, so that the narrowings agree on it. -/
theorem solve_precise (hg : Wired g) (hStarted : g.started = false) (hSolved : g.solved = false)
    (hFull : Full g) : ∃ g₁ g₂,
      solve.run.run { g with narrowing := .cousot } = (.ok (), g₁) ∧
      solve.run.run { g with narrowing := .crop } = (.ok (), g₂) ∧ Precise g₁ ∧ Precise g₂ ∧
      (Acyclic g → (∃ order, g.Topological order) ∧
        (∀ order, g.Topological order → ∀ n, g₁.range n = (g.evaluated order).range n) ∧
        ∀ n, g₁.range n = g₂.range n) := by
  have hWired (x : Narrowing) : Wired { g with narrowing := x } :=
    ⟨⟨hg.sink_lt, hg.operand_lt, hg.bound_lt, hg.mem_uses, hg.mem_bounds⟩, hg.definition_iff⟩
  obtain ⟨g₁, hRun₁, hPrecise₁, hSolves₁⟩ :=
    solve_run_precise (hWired .cousot) hStarted hSolved hFull (.inl rfl)
  obtain ⟨g₂, hRun₂, hPrecise₂, hSolves₂⟩ :=
    solve_run_precise (hWired .crop) hStarted hSolved hFull (.inr rfl)
  refine ⟨g₁, g₂, hRun₁, hRun₂, hPrecise₁, hPrecise₂, fun hAcyclic => ?_⟩
  obtain ⟨rank, hRank⟩ := hAcyclic.exists_rank hg hStarted
  have hSelf (n : NodeId) : ¬ g.Feeds n n := fun h => Nat.lt_irrefl _ (hRank h)
  have h₁ := (hSolves₁ hAcyclic).of_narrowing
  have h₂ := (hSolves₂ hAcyclic).of_narrowing
  refine ⟨exists_topological hRank, fun order hOrder => ?_, h₁.range_eq hg hRank h₂⟩
  exact h₁.range_eq hg hRank (hOrder.solves hStarted hg hSelf)

theorem acyclic_of_rank (rank : NodeId → Nat) (h : ∀ {n m}, g.Feeds n m → rank n < rank m) :
    Acyclic g := by
  intro n hn
  have hLt {m : NodeId} (hm : Relation.TransGen g.Feeds n m) : rank n < rank m := by
    induction hm with
    | single hm => exact h hm
    | tail _ hm ih => exact ih.trans (h hm)
  exact Nat.lt_irrefl _ (hLt hn)

end Graph

namespace Program

/-- A value where it is below another one, and its successor. -/
def clipped : Program :=
  let t : IntType := .signed 8
  let p := ((addFunction 0 "clipped").run start).2
  let p := ((addParam 0 "x" t none).run p).2
  let p := ((addParam 0 "y" t (some ⟨none, some 10⟩)).run p).2
  let p := ((constant 0 t 1).run p).2
  let p := ((addBlock 0 "entry").run p).2
  let p := ((addBlock 0 "below").run p).2
  let p := ((addBlock 0 "above").run p).2
  let p := ((emit 1 .sigma "x.t" t [some 0] none none).run p).2
  let p := ((emit 1 (.binary .add) "z" t [some 3, some 2] none none).run p).2
  let p := p.terminate 0 (.test (.known .slt) (some 0) (some 1) 1 2)
  let p := p.terminate 1 (.ret [some 4])
  p.terminate 2 (.ret [])

theorem clipped_made : clipped.Made :=
  .terminate (.terminate (.terminate (.emit (.emit (.addBlock (.addBlock (.addBlock (.constant
    (.addParam (.addParam (.addFunction .start 0 _) 0 _ _ _) 0 _ _ _) 0 _ _) 0 _) 0 _) 0 _)
    1 _ _ _ _ _ _) 1 _ _ _ _ _ _) 0 _) 1 _) 2 _

end Program

namespace Graph

/-- The graph of a value that is bounded by another one. -/
def clipped : Graph := (build Program.clipped 0 ⟨.crop, 9, false⟩).2

theorem clipped_acyclic : Acyclic clipped := by
  have hOps : clipped.ops = #[⟨2, .sigma 0 (some (1, .slt)), clipped.sentinels.max⟩,
      ⟨4, .binary .add 2 3, clipped.sentinels.max⟩] := by
    decide +kernel
  refine acyclic_of_rank id fun {n m} hFeeds => ?_
  obtain ⟨o, op, ho, rfl, hRead⟩ := hFeeds
  rw [hOps] at ho
  match o with
  | 0 =>
    cases ho
    rcases hRead with hn | ⟨c, hb⟩
    · cases List.mem_singleton.mp hn
      decide
    · cases hb
      decide
  | 1 =>
    cases ho
    rcases hRead with hn | ⟨c, hb⟩
    · have hn : n = 2 ∨ n = 3 := by simpa [Kind.operands] using hn
      rcases hn with rfl | rfl <;> decide
    · cases hb
  | o + 2 => simp at ho

/-- The bounded value and its successor are solved by evaluation, with the region of the bound. -/
theorem clipped_precise : Wired clipped ∧ Full clipped ∧ Acyclic clipped ∧ ∃ g₁ g₂,
    solve.run.run { clipped with narrowing := .cousot } = (.ok (), g₁) ∧
    solve.run.run { clipped with narrowing := .crop } = (.ok (), g₂) ∧ Precise g₁ ∧ Precise g₂ ∧
    (∃ order, clipped.Topological order) ∧
    (∀ order, clipped.Topological order → ∀ n, g₁.range n = (clipped.evaluated order).range n) ∧
    ∀ n, g₁.range n = g₂.range n := by
  have hg := Built.unstarted Program.clipped_made ⟨⟨.crop, 9, false⟩, .inl ⟨0, rfl⟩⟩
  have hFull : Full clipped := by
    have hAll : (clipped.ops.all fun op => decide (op.kind ≠ .phi [])) = true := by decide +kernel
    intro op hOp
    exact of_decide_eq_true (Array.all_eq_true_iff_forall_mem.mp hAll op hOp)
  obtain ⟨g₁, g₂, hRun₁, hRun₂, hPrecise₁, hPrecise₂, hAcyclic⟩ :=
    solve_precise hg.wired hg.started hg.solved hFull
  exact ⟨hg.wired, hFull, clipped_acyclic, g₁, g₂, hRun₁, hRun₂, hPrecise₁, hPrecise₂,
    hAcyclic clipped_acyclic⟩

end Graph

end ValueRange
