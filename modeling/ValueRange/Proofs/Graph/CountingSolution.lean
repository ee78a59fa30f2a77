import ValueRange.Proofs.Graph.Counting

/-! Loops that count up are solved exactly. While the loop is widened, each of its nodes has the
right lower bound, and an upper bound that is one of a few integers or unbounded. Where widening has
nothing left to do, an upper bound is right or unbounded. Narrowing keeps that, and where it has
nothing left to do, no upper bound is unbounded. The order in which operations take their turns does
not matter. -/

namespace ValueRange.Graph

open Range

/-! ### Upper bounds -/

/-- The range from a lower bound up to one of some upper bounds. -/
def UpTo (s : Sentinels) (l : Int) (us : List Int) (r : Range) : Prop :=
  ∃ u ∈ us, r = ⟨s, l, u, false⟩

section UpTo

variable {s : Sentinels} {l : Int} {us us' : List Int} {old new r : Range}

theorem wellFormed_mk_iff {u : Int} :
    WellFormed s ⟨s, l, u, false⟩ ↔ s.negInf ≤ l ∧ l ≤ u ∧ u ≤ s.posInf := by
  refine ⟨fun h => ?_, fun h => .between h.1 h.2.1 h.2.2⟩
  generalize hr : (⟨s, l, u, false⟩ : Range) = r at h
  cases h with
  | empty => cases hr
  | between hl h hu =>
    cases hr
    exact ⟨hl, h, hu⟩

theorem exists_upper_of_subset {u : Int} (h : (⟨s, l, u, false⟩ : Range) ⊆ r)
    (hr : r = s.empty ∨ UpTo s l us r) : ∃ v ∈ us, r = ⟨s, l, v, false⟩ ∧ u ≤ v := by
  obtain ⟨hFull, -, hUpper⟩ := h.resolve_left Bool.false_ne_true
  rcases hr with rfl | ⟨v, hv, rfl⟩
  · cases hFull
  · exact ⟨v, hv, rfl, hUpper⟩

/-- What is widened keeps its upper bound or loses it. -/
theorem UpTo.widen (hOld : UpTo s l us old) (hNew : UpTo s l us' new) (hInf : s.posInf ∈ us)
    (hws : WellFormed s old) (hws' : WellFormed s new) (h : Graph.widen s old new = some r) :
    UpTo s l us r := by
  obtain ⟨u, hu, rfl⟩ := hOld
  obtain ⟨u', -, rfl⟩ := hNew
  obtain ⟨hl, hle, hMax⟩ := wellFormed_mk_iff.mp hws
  rw [widen_mk hl hle hMax hl (wellFormed_mk_iff.mp hws').2.2] at h
  split at h
  · cases h
  · cases h
    rw [if_neg (Int.lt_irrefl l)]
    split
    · exact ⟨_, hInf, rfl⟩
    · exact ⟨u, hu, rfl⟩

/-- What was empty has the new upper bound. -/
theorem UpTo.widens (hOld : old = s.empty ∨ UpTo s l us old)
    (hNew : new = s.empty ∨ UpTo s l us new) (hInf : s.posInf ∈ us)
    (hws : WellFormed s old) (hws' : WellFormed s new) (h : Graph.widen s old new = some r) :
    UpTo s l us r := by
  rcases hNew with rfl | hNew
  · rw [(widen_eq_none_iff hws hws').mpr (.inl rfl)] at h
    cases h
  · rcases hOld with rfl | hOld
    · have hFull : new.isEmpty = false := by
        obtain ⟨u, -, rfl⟩ := hNew
        rfl
      rw [widen_empty hFull] at h
      cases h
      exact hNew
    · exact hOld.widen hNew hInf hws hws' h

/-- What is tightened has the old or the new upper bound. -/
theorem UpTo.tightens (hOld : UpTo s l us old) (hNew : UpTo s l us new)
    (h : Tightens s old new r) : UpTo s l us r := by
  obtain ⟨u, hu, rfl⟩ := hOld
  obtain ⟨u', hu', rfl⟩ := hNew
  have hLower : r.lower = l := by
    rcases h.lower with h | h
    · exact h
    · exact h.1
  have hUpper : r.upper ∈ us := by
    rcases h.upper with h | h
    · exact h ▸ hu
    · exact h.1 ▸ hu'
  refine ⟨r.upper, hUpper, ?_⟩
  obtain ⟨s', l', u', e⟩ := r
  cases h.wellFormed.sentinels_eq
  cases h.nonempty
  cases hLower
  rfl

end UpTo

/-- While the loop is widened, the upper bounds are those after some turns without widening, those
that the test of the index leaves, or unbounded. -/
structure Rising (c : Counter) (s : Sentinels) (a n : Int) (g : Graph) : Prop
    extends Counts c s a n g where
  index : UpTo s a [a, s.posInf] (g.range c.index)
  taken : g.range c.taken = s.empty ∨ UpTo s a [a, n - 1, s.posInf] (g.range c.taken)
  next : g.range c.next = s.empty ∨ UpTo s (a + 1) [a + 1, n, s.posInf] (g.range c.next)

/-- While the loop is narrowed, the upper bounds are right or unbounded. -/
structure Falling (c : Counter) (s : Sentinels) (a n : Int) (g : Graph) : Prop
    extends Counts c s a n g where
  index : UpTo s a [n, s.posInf] (g.range c.index)
  taken : UpTo s a [n - 1, s.posInf] (g.range c.taken)
  next : UpTo s (a + 1) [n, s.posInf] (g.range c.next)

section Loop

variable {c : Counter} {s : Sentinels} {a n l u : Int} {g g' : Graph} {o : OpId} {op : Operation}
variable {m : Meet} {defs : List OpId}

theorem Counts.bounds (hg : Counts c s a n g) {v : NodeId} (hv : g.range v = ⟨s, l, u, false⟩) :
    s.negInf ≤ l ∧ l ≤ u ∧ u ≤ s.posInf :=
  wellFormed_mk_iff.mp (hv ▸ hg.wellFormed v)

theorem Counts.upTo_eval_index {us : List Int} (hg : Counts c s a n g)
    (hNext : UpTo s (a + 1) us (g.range c.next)) :
    UpTo s a us (g.eval ⟨c.index, .phi [c.first, c.next], s.max⟩) := by
  obtain ⟨u, hu, hRange⟩ := hNext
  obtain ⟨-, hle, hMax⟩ := hg.bounds hRange
  exact ⟨u, hu, hg.eval_index hRange hle hMax⟩

/-! #### Widening -/

namespace Rising

variable (hg : Rising c s a n g)
include hg

theorem upTo_eval_index : UpTo s a [a, a + 1, n, s.posInf]
    (g.eval ⟨c.index, .phi [c.first, c.next], s.max⟩) := by
  rcases hg.next with hNext | hNext
  · exact ⟨a, List.mem_cons_self, hg.eval_index_of_empty hNext⟩
  · obtain ⟨u, hu, hEval⟩ := hg.toCounts.upTo_eval_index hNext
    exact ⟨u, List.mem_cons_of_mem a hu, hEval⟩

theorem upTo_eval_taken : UpTo s a [a, n - 1, s.posInf]
    (g.eval ⟨c.taken, .sigma c.index none, ⟨s, s.negInf, n - 1, false⟩⟩) := by
  have := hg.countable.less
  have := hg.countable.high
  obtain ⟨u, hu, hIndex⟩ := hg.index
  refine ⟨_, ?_, hg.eval_taken hIndex (hg.bounds hIndex).2.1⟩
  simp only [List.mem_cons, List.not_mem_nil, or_false] at hu ⊢
  omega

theorem upTo_eval_next :
    g.eval ⟨c.next, .binary .add c.taken c.step, s.max⟩ = s.empty ∨
      UpTo s (a + 1) [a + 1, n, s.posInf] (g.eval ⟨c.next, .binary .add c.taken c.step, s.max⟩) := by
  have := hg.countable.less
  have := hg.countable.high
  rcases hg.taken with hTaken | ⟨u, hu, hTaken⟩
  · exact .inl (hg.eval_next_of_empty hTaken)
  · simp only [List.mem_cons, List.not_mem_nil, or_false] at hu
    refine .inr ⟨_, ?_, hg.eval_next hTaken (hg.bounds hTaken).2.1 (by omega)⟩
    simp only [List.mem_cons, List.not_mem_nil, or_false]
    split <;> omega

/-- A turn of widening keeps the bounds among those. -/
theorem update (h : Update .widening defs g g') : Rising c s a n g' := by
  have hSink {o : OpId} {op : Operation} (ho : g.ops[o]? = some op) :
      g'.range op.sink = g.range op.sink ∨
        widen s (g.range op.sink) (g.eval op) = some (g'.range op.sink) := by
    rw [← hg.sentinels]
    exact h.range_sink hg.wired ho
  refine ⟨hg.toCounts.update lawful_widening h, ?_, ?_, ?_⟩
  · rcases hSink hg.op_index with hSame | hWiden
    · exact hSame ▸ hg.index
    · exact hg.index.widen hg.upTo_eval_index (by simp) (hg.wellFormed _) (hg.wellFormed_eval _)
        hWiden
  · rcases hSink hg.op_taken with hSame | hWiden
    · exact hSame ▸ hg.taken
    · exact .inr (UpTo.widens hg.taken (.inr hg.upTo_eval_taken) (by simp) (hg.wellFormed _)
        (hg.wellFormed_eval _) hWiden)
  · rcases hSink hg.op_next with hSame | hWiden
    · exact hSame ▸ hg.next
    · exact .inr (UpTo.widens hg.next hg.upTo_eval_next (by simp) (hg.wellFormed _)
        (hg.wellFormed_eval _) hWiden)

omit hg in
theorem updates (hg : Rising c s a n g)
    (h : Relation.ReflTransGen (Update .widening defs) g g') : Rising c s a n g' := by
  induction h with
  | refl => exact hg
  | tail _ hStep ih => exact ih.update hStep

/-- Where nothing is left to widen, the index is unbounded: a bound would be passed by the next
index. The others are what the test leaves of it, or unbounded as well. -/
theorem falling (hIndex : Quiet .widening g 0) (hTaken : Quiet .widening g 1)
    (hNext : Quiet .widening g 2) : Falling c s a n g := by
  have hLess := hg.countable.less
  have hHigh := hg.countable.high
  obtain ⟨u, hu, hIndexRange⟩ := hg.index
  have hSubset := hTaken.eval_subset hg.regular hg.op_taken
  rw [hg.eval_taken hIndexRange (hg.bounds hIndexRange).2.1] at hSubset
  obtain ⟨v, hv, hTakenRange, hTakenLe⟩ := exists_upper_of_subset hSubset hg.taken
  simp only [List.mem_cons, List.not_mem_nil, or_false] at hu hv
  have hSubset := hNext.eval_subset hg.regular hg.op_next
  rw [hg.eval_next hTakenRange (hg.bounds hTakenRange).2.1 (by omega)] at hSubset
  obtain ⟨w, hw, hNextRange, hNextLe⟩ := exists_upper_of_subset hSubset hg.next
  simp only [List.mem_cons, List.not_mem_nil, or_false] at hw
  obtain ⟨-, hLower, hUpper⟩ := hg.bounds hNextRange
  have hSubset := hIndex.eval_subset hg.regular hg.op_index
  rw [hg.eval_index hNextRange hLower hUpper] at hSubset
  obtain ⟨u', -, hRange, hIndexLe⟩ := exists_upper_of_subset hSubset (.inr hg.index)
  cases hIndexRange.symm.trans hRange
  have hInf : u = s.posInf := by omega
  have hAbove : n - 1 ≤ v := by omega
  have hNextAbove : n ≤ w := by
    split at hNextLe <;> omega
  refine ⟨hg.toCounts, ⟨u, ?_, hIndexRange⟩, ⟨v, ?_, hTakenRange⟩, ⟨w, ?_, hNextRange⟩⟩ <;>
    simp only [List.mem_cons, List.not_mem_nil, or_false] <;> omega

end Rising

/-! #### Narrowing -/

namespace Falling

variable (hg : Falling c s a n g)
include hg

theorem eval_taken : g.eval ⟨c.taken, .sigma c.index none, ⟨s, s.negInf, n - 1, false⟩⟩ =
    ⟨s, a, n - 1, false⟩ := by
  have := hg.countable.less
  have := hg.countable.high
  obtain ⟨u, hu, hIndex⟩ := hg.index
  simp only [List.mem_cons, List.not_mem_nil, or_false] at hu
  rw [hg.toCounts.eval_taken hIndex (hg.bounds hIndex).2.1, Int.min_eq_right (by omega)]

theorem upTo_eval_next : UpTo s (a + 1) [n, s.posInf]
    (g.eval ⟨c.next, .binary .add c.taken c.step, s.max⟩) := by
  have := hg.countable.less
  have := hg.countable.high
  obtain ⟨u, hu, hTaken⟩ := hg.taken
  simp only [List.mem_cons, List.not_mem_nil, or_false] at hu
  refine ⟨_, ?_, hg.eval_next hTaken (hg.bounds hTaken).2.1 (by omega)⟩
  simp only [List.mem_cons, List.not_mem_nil, or_false]
  split <;> omega

theorem sameState (h : SameState g g') : Falling c s a n g' :=
  ⟨hg.toCounts.sameState h, h.range c.index ▸ hg.index, h.range c.taken ▸ hg.taken,
    h.range c.next ▸ hg.next⟩

/-- A turn of narrowing keeps the bounds among those. -/
theorem update (hm : m.Tight) (h : Update m defs g g') : Falling c s a n g' := by
  have hSink {o : OpId} {op : Operation} {l : Int} {us : List Int} (ho : g.ops[o]? = some op)
      (hOld : UpTo s l us (g.range op.sink)) (hNew : UpTo s l us (g.eval op)) :
      UpTo s l us (g'.range op.sink) := by
    rcases h.range_sink hg.wired ho with hSame | hStep
    · exact hSame ▸ hOld
    · rw [hg.sentinels] at hStep
      exact hOld.tightens hNew (hm.tightens (hg.wellFormed _) (hg.wellFormed_eval _) hStep)
  exact ⟨hg.toCounts.update hm.toLawful h, hSink hg.op_index hg.index (hg.upTo_eval_index hg.next),
    hSink hg.op_taken hg.taken ⟨n - 1, List.mem_cons_self, hg.eval_taken⟩,
    hSink hg.op_next hg.next hg.upTo_eval_next⟩

omit hg in
theorem updates (hg : Falling c s a n g) (hm : m.Tight)
    (h : Relation.ReflTransGen (Update m defs) g g') : Falling c s a n g' := by
  induction h with
  | refl => exact hg
  | tail _ hStep ih => exact ih.update hm hStep

theorem range_eq (hm : m.Recovers) (ho : g.ops[o]? = some op) (hQuiet : Quiet m g o)
    (hTrend : (g.range op.sink).upperUnbounded = true → (g.trend op.sink).any Trend.raises = true)
    (hEval : g.eval op = ⟨s, l, u, false⟩) (hu : u < s.posInf)
    (hRange : UpTo s l [u, s.posInf] (g.range op.sink)) : g.range op.sink = ⟨s, l, u, false⟩ := by
  obtain ⟨v, hv, hRange⟩ := hRange
  rcases List.mem_pair.mp hv with rfl | rfl
  · exact hRange
  · obtain ⟨hl, hle, -⟩ := wellFormed_mk_iff.mp (hEval ▸ hg.wellFormed_eval op)
    have hNone := hQuiet op ho
    rw [hRange, upperUnbounded_mk, decide_eq_true_eq] at hTrend
    rw [hg.sentinels, hRange, hEval] at hNone
    exact absurd hNone (hm.recovers hl hle hu (hTrend rfl))

/-- Where nothing is left to narrow, the bounds are right: the test bounds the index where the loop
goes on, that bounds the next index, and that bounds the index. -/
theorem solved (hm : m.Recovers) (hQuiet : ∀ o < 3, Quiet m g o)
    (hTrend : ∀ v ∈ [c.index, c.taken, c.next], (g.range v).upperUnbounded = true →
      (g.trend v).any Trend.raises = true) :
    g.range c.index = ⟨s, a, n, false⟩ ∧ g.range c.taken = ⟨s, a, n - 1, false⟩ ∧
      g.range c.next = ⟨s, a + 1, n, false⟩ := by
  have hLess := hg.countable.less
  have hHigh := hg.countable.high
  have hTaken : g.range c.taken = ⟨s, a, n - 1, false⟩ :=
    hg.range_eq hm hg.op_taken (hQuiet 1 (by decide)) (hTrend _ (by simp)) hg.eval_taken (by omega)
      hg.taken
  have hEval : g.eval ⟨c.next, .binary .add c.taken c.step, s.max⟩ = ⟨s, a + 1, n, false⟩ := by
    rw [hg.eval_next hTaken (by omega) (by omega), if_neg (by omega), Int.sub_add_cancel]
  have hNext : g.range c.next = ⟨s, a + 1, n, false⟩ :=
    hg.range_eq hm hg.op_next (hQuiet 2 (by decide)) (hTrend _ (by simp)) hEval hHigh hg.next
  refine ⟨?_, hTaken, hNext⟩
  exact hg.range_eq hm hg.op_index (hQuiet 0 (by decide)) (hTrend _ (by simp))
    (hg.eval_index hNext (by omega) (by omega)) hHigh hg.index

end Falling

/-- A side that is unbounded after narrowing was so after widening, and has the trend of that. -/
theorem Envelope.raises {wide r : Range} (h : Envelope wide r) (hr : r.upperUnbounded = true)
    (hSentinels : r.sentinels = wide.sentinels) : (trendOf wide).raises = true := by
  obtain ⟨hFull, hUpper⟩ := Bool.and_eq_true_iff.mp hr
  rw [raises_trendOf, upperUnbounded, Bool.and_eq_true]
  constructor
  · rwa [Bool.not_eq_true', ← Bool.not_eq_true, ← h.isEmpty_iff, Bool.not_eq_true,
      ← Bool.not_eq_true']
  · rw [beq_iff_eq] at hUpper ⊢
    by_contra hne
    exact hne ((h.upper hne).symm.trans (hSentinels ▸ hUpper))

variable {t : Task} {cs : Components}

/-- A component that has the loop in it is solved exactly if it is started with the first index. -/
theorem Fresh.solved (hg : Fresh c s a n g) (ht : t.Runs cs g) (hm : t.meet.Recovers)
    (hIndex : g.range c.index = ⟨s, a, a, false⟩)
    (hComp : ∀ v ∈ [c.index, c.taken, c.next], v ∈ t.comp ∧ g.trend v = none) :
    (t.narrowed g).range c.index = ⟨s, a, n, false⟩ ∧
      (t.narrowed g).range c.taken = ⟨s, a, n - 1, false⟩ ∧
      (t.narrowed g).range c.next = ⟨s, a + 1, n, false⟩ := by
  have hSame : SameState g (t.discovered g) := sameState_record _ _ _ g
  have hEntry : (t.discovered g).hasEntry t.comp = true := by
    refine hasEntry_of_mem (hComp c.index (by simp)).1 ?_
    rw [hSame.range, hIndex]
  have hDefs {o : OpId} (ho : o < 3) : o ∈ g.definitions t.comp := by
    refine (ht.layout.mem_definitions o).mpr ?_
    match o with
    | 0 => exact ⟨_, hg.op_index, (hComp _ (by simp)).1⟩
    | 1 => exact ⟨_, hg.op_taken, (hComp _ (by simp)).1⟩
    | 2 => exact ⟨_, hg.op_next, (hComp _ (by simp)).1⟩
  have hStart : Rising c s a n (t.discovered g) :=
    ⟨hg.toCounts.sameState hSame, ⟨a, List.mem_cons_self, (hSame.range _).trans hIndex⟩,
      .inl ((hSame.range _).trans hg.taken), .inl ((hSame.range _).trans hg.next)⟩
  have hQuiet {o : OpId} (ho : o < 3) : Quiet .widening (t.widened g) o :=
    ht.quiet_iterated hEntry lawful_widening hSame.shape hStart.regular (hDefs ho)
  have hWide : Falling c s a n (t.widened g) :=
    (hStart.updates (ht.widens _)).falling (hQuiet (by decide)) (hQuiet (by decide))
      (hQuiet (by decide))
  have hFixed := hg.sameState_fixed ht
  have hLast : Falling c s a n (t.iterated g t.meet (t.fixed g)) :=
    (hWide.sameState hFixed).updates hm.toTight (ht.narrows _)
  simp only [Task.Runs.range_narrowed]
  refine hLast.solved hm (fun o ho => ?_) fun v hv hOpen => ?_
  · exact ht.quiet_iterated hEntry hm.toLawful (t.shape_fixed g) ht.regular_fixed (hDefs ho)
  · obtain ⟨hMem, hNone⟩ := hComp v hv
    obtain ⟨hEnvelope, hTrend⟩ :=
      ht.envelope hm.toRegains hMem hNone (i := .narrowing _) (by simp)
    have hSentinels := (hLast.wellFormed v).sentinels_eq.trans (hWide.wellFormed v).sentinels_eq.symm
    exact hTrend ▸ hEnvelope.raises hOpen hSentinels

end Loop

/-! ### The whole solution -/

/-- A graph as it is built from a loop that counts from `a` up to `n`. -/
structure Counting (c : Counter) (a n : Int) (g : Graph) : Prop where
  ops : g.ops = c.ops g.sentinels n
  first : ∃ x, g.nodes[c.first]? = some x ∧ x.const = some a
  step : ∃ x, g.nodes[c.step]? = some x ∧ x.const = some 1
  countable : Countable g.sentinels (g.typeOf c.next) a n

section Whole

variable {c : Counter} {a n : Int} {g b : Graph} {cs : Components} {m : Meet} {k : Nat}

/-- A constant is not defined and starts with its integer. -/
theorem Unsolved.const_begun {v : NodeId} {i : Int} (hg : Unsolved g) (cs : Components)
    (hv : ∃ x, g.nodes[v]? = some x ∧ x.const = some i) (hLow : g.sentinels.negInf < i)
    (hHigh : i < g.sentinels.posInf) : (g.begun cs).definition v = none ∧
      (g.begun cs).range v = ⟨g.sentinels, i, i, false⟩ := by
  obtain ⟨x, hx, hConst⟩ := hv
  constructor
  · refine (definition_seed hg.started v).trans ?_
    by_contra hne
    rw [definition, hx] at hne
    rw [hg.const hx hne] at hConst
    cases hConst
  · show g.seed.range v = _
    rw [range_seed hg.started, hx, Option.map_some, Option.getD_some, startRange, hConst]
    exact Sentinels.interval_of_between (by omega) (by omega) (by omega)

theorem Counting.fresh (h : Counting c a n g) (hg : Unsolved g) (hLayout : Layout (g.begun cs) cs) :
    Fresh c g.sentinels a n (g.begun cs) := by
  obtain ⟨hLow, hLess, hHigh, hOne, -, -⟩ := h.countable
  have hNeg := g.sentinels.negInf_neg
  obtain ⟨hFreeFirst, hFirst⟩ := hg.const_begun cs h.first hLow (by omega)
  obtain ⟨hFreeStep, hStep⟩ := hg.const_begun cs h.step (by omega) hOne
  have hOps : (g.begun cs).ops = c.ops g.sentinels n := (ops_seed hg.started).trans h.ops
  have hType : (g.begun cs).typeOf c.next = g.typeOf c.next := typeOf_seed hg.started c.next
  have hSink {o : OpId} {op : Operation} (ho : (c.ops g.sentinels n)[o]? = some op) :
      (g.begun cs).range op.sink = g.sentinels.empty :=
    hg.range_seed_sink (h.ops ▸ ho)
  exact {
    wired := hLayout.wired
    regular := ⟨(regular_seed hg.started).range⟩
    sentinels := sentinels_seed hg.started
    ops := hOps
    first := hFirst
    step := hStep
    free_first := hFreeFirst
    free_step := hFreeStep
    countable := hType ▸ h.countable
    index := .inl (hSink (o := 0) rfl)
    taken := hSink (o := 1) rfl
    next := hSink (o := 2) rfl }

theorem stage_before (hStage : Stage b cs 0 b) (hm : m.Tight) (hMeet : meetOf b.narrowing = .ok m)
    (hk : k ≤ cs.members.size) : Stage b cs k (before m cs b k) := by
  induction k with
  | zero => exact hStage
  | succ k ih =>
    have ht := runs_before hStage.layout hStage.regular hm hk
    have hMeet' : meetOf (before m cs b k).narrowing = .ok (taskOf m cs k).meet := by
      rw [narrowing_of_shape (shape_before m cs b k)]
      exact hMeet
    obtain ⟨g₀, g₁, g₂, g₃, hSame, hSolving⟩ := ht.solving hMeet'
    exact ((ih (Nat.le_of_succ_le hk)).sameState hSame).next hSolving ht.mem

/-- Before the loop is solved, its index is the first one. -/
theorem Fresh.range_index {s : Sentinels} (hFresh : Fresh c s a n g) (hStage : Stage b cs k g)
    (hk : cs.number c.index = k) : g.range c.index = ⟨s, a, a, false⟩ := by
  refine hFresh.index.resolve_left fun hEmpty => ?_
  have hFirst := hFresh.number_first hStage.layout
  have hSubset := (hStage.seeded hFresh.op_index (Nat.le_of_eq hk.symm)).phi rfl
    (n := c.first) List.mem_cons_self (hk ▸ hFirst)
  rw [hFresh.first, hEmpty] at hSubset
  exact Bool.false_ne_true (hSubset.resolve_left Bool.false_ne_true).1.symm

/-- A loop that counts up is solved exactly, whichever narrowing is chosen. -/
theorem Counting.solve (h : Counting c a n g) (hg : Unsolved g) (hTrend : ∀ v, g.trend v = none)
    (hNarrowing : g.narrowing = .cousot ∨ g.narrowing = .crop) :
    ∃ g', solve.run.run g = (.ok (), g') ∧ Answers g g' ∧
      g'.range c.index = ⟨g.sentinels, a, n, false⟩ ∧
      g'.range c.taken = ⟨g.sentinels, a, n - 1, false⟩ ∧
      g'.range c.next = ⟨g.sentinels, a + 1, n, false⟩ ∧
      g'.range c.last = ⟨g.sentinels, n, n, false⟩ := by
  obtain ⟨m, hMeet, hm⟩ := exists_recovers hNarrowing
  obtain ⟨cs, hFind, hLayout⟩ := hg.layout_begun
  have hFresh := h.fresh hg hLayout
  have hStage := hg.stage_begun hLayout
  have hRegular := hFresh.regular
  have hMeet' : meetOf (g.begun cs).narrowing = .ok m := by
    rw [begun, narrowing_seed hg.started]
    exact hMeet
  obtain ⟨hTaken, hNext⟩ := hFresh.number_loop hLayout
  have hLt : cs.number c.index < cs.members.size :=
    hLayout.number_lt (hLayout.wired.sink_lt hFresh.op_index)
  have ht := runs_before hLayout hRegular hm.toTight hLt
  have hStart := hFresh.before hLayout hm.toTight (Nat.le_refl (cs.number c.index))
  have hIndex := hStart.range_index (stage_before hStage hm.toTight hMeet' (Nat.le_of_lt hLt)) rfl
  obtain ⟨hSolvedIndex, hSolvedTaken, hSolvedNext⟩ :=
      hStart.solved ht hm hIndex fun v hv => by
    obtain ⟨hLt, hNumber⟩ := hFresh.number_of_mem hLayout hv
    refine ⟨(ht.layout.mem_iff ht.mem v).mpr (hStart.number_of_mem ht.layout hv), ?_⟩
    refine (trend_before hLayout hRegular hm.toRegains hLt (Nat.le_of_eq hNumber.symm)).trans ?_
    exact (trend_seed hg.started v).trans (hTrend v)
  have hKept {v : NodeId} (hv : cs.number v = cs.number c.index) :
      (before m cs (g.begun cs) cs.members.size).range v =
        ((taskOf m cs (cs.number c.index)).narrowed
          (before m cs (g.begun cs) (cs.number c.index))).range v := by
    rw [range_before hLayout hRegular hm.toTight (Nat.lt_succ_of_le (Nat.le_of_eq hv)) hLt
      (Nat.le_refl _), before, (Task.Runs.sameState_propagated _ _).range]
    exact ht.range_propagating (Nat.le_of_eq hv) _
  have hLast := hFresh.toCounts.before hLayout hm.toTight (Nat.le_refl cs.members.size)
  have hSharp := sharp_before hLayout hRegular hm.toTight hMeet' (Nat.le_refl _)
  have hEval := hSharp.evaluated hLast.op_last (hFresh.ahead_last hLayout)
    ⟨c.index, .inl (List.mem_singleton_self _)⟩ fun v hRead => by
      rcases hRead with hv | ⟨b, ⟨⟩⟩
      rw [List.mem_singleton.mp hv]
      exact hLt
  have hAnswers := hg.answers (stage_before hStage hm.toTight hMeet' (Nat.le_refl _))
  refine ⟨_, solve_eq hg.solved hFind hMeet, hAnswers.finish, (hKept rfl).trans hSolvedIndex,
    (hKept hTaken).trans hSolvedTaken, (hKept hNext).trans hSolvedNext, ?_⟩
  exact hEval.trans (hLast.eval_last ((hKept rfl).trans hSolvedIndex))

end Whole

end ValueRange.Graph
