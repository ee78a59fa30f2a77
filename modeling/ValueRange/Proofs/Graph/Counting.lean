import ValueRange.Proofs.Graph.Envelope
import ValueRange.Proofs.Graph.Points
import ValueRange.Proofs.Graph.Precision

/-! The graph of a loop that counts up. Its nodes are evaluated to intervals, whose lower bounds are
right at once. Until the component of the loop is solved, no more than the first index is known of
it. -/

namespace ValueRange.Graph

open Range

/-- Where no end of the operands leads out of the type, the result is spanned by what they lead to. -/
theorem evalWrapping_of_corners {r o : Range} {f : Corner} {t : IntType} {a b c d : Extended}
    (s : Sentinels) (hr : r.isEmpty = false) (ho : o.isEmpty = false)
    (ha : f r.ends.1 o.ends.1 = some a) (hb : f r.ends.1 o.ends.2 = some b)
    (hc : f r.ends.2 o.ends.1 = some c) (hd : f r.ends.2 o.ends.2 = some d)
    (hFits : ∀ m, .fin m ∈ [a, b, c, d] → t.Contains m) :
    evalWrapping s f t r o = r.sentinels.span (Min.min (Min.min a b) (Min.min c d))
      (Max.max (Max.max a b) (Max.max c d)) := by
  have hCorners : ∀ p ∈ r.corners o, ∃ e ∈ [a, b, c, d], f p.1 p.2 = some e := by
    simp [corners, ha, hb, hc, hd]
  have hOverflows : ¬ r.overflows o f t = true := by
    unfold overflows
    rw [Bool.and_eq_true, List.any_eq_true]
    rintro ⟨-, p, hp, hOut⟩
    obtain ⟨e, he, hEq⟩ := hCorners p hp
    rw [hEq] at hOut
    cases e with
    | fin m =>
      have hOut : m < t.minValue ∨ t.maxValue < m := of_decide_eq_true hOut
      have := hFits m he
      unfold IntType.Contains at this
      omega
    | _ => cases hOut
  rw [evalWrapping, if_neg hOverflows, combine_of_some hr ho ha hb hc hd]

/-! ### The end of an iteration -/

/-- An operator that regains an upper side whose trend is to rise, where a finite one is there. -/
structure Meet.Recovers (m : Meet) : Prop extends Meet.Regains m where
  recovers {s : Sentinels} {t : Option Trend} {l u : Int} : s.negInf ≤ l → l ≤ u → u < s.posInf →
    t.any Trend.raises = true → m.step s t ⟨s, l, s.posInf, false⟩ ⟨s, l, u, false⟩ ≠ none

theorem recovers_narrowing : Meet.narrowing.Recovers where
  toRegains := regains_narrowing
  recovers {s t l u} hl hle hu _ := by
    have := s.negInf_lt_posInf
    show narrow s ⟨s, l, s.posInf, false⟩ ⟨s, l, u, false⟩ ≠ none
    rw [narrow_mk, ite_self, if_pos ⟨rfl, by omega⟩, update_mk hl (by omega) (by omega) (by omega),
      if_neg (by omega)]
    exact Option.some_ne_none _

theorem recovers_cropping : Meet.cropping.Recovers where
  toRegains := regains_cropping
  recovers {s t l u} hl hle hu ht := by
    simp only [Meet.cropping, crop_mk, ht, if_true]
    rw [Int.min_eq_right (by omega), Int.max_self, ite_self,
      update_mk hl (by omega) (by omega) (by omega), if_neg (by omega)]
    exact Option.some_ne_none _

theorem exists_recovers {g : Graph} (h : g.narrowing = .cousot ∨ g.narrowing = .crop) :
    ∃ m : Meet, meetOf g.narrowing = .ok m ∧ m.Recovers := by
  rcases h with h | h
  · exact ⟨.narrowing, by rw [h, meetOf], recovers_narrowing⟩
  · exact ⟨.cropping, by rw [h, meetOf], recovers_cropping⟩

section Iterated

variable {g g' h : Graph} {cs : Components} {t : Task} {m : Meet} {o : OpId} {op : Operation}

theorem hasEntry_of_mem {comp : List NodeId} {n : NodeId} (hn : n ∈ comp)
    (h : (g.range n).isEmpty = false) : g.hasEntry comp = true :=
  List.any_eq_true.mpr ⟨n, hn, by rw [h]; rfl⟩

/-- In a component that is started with a range, iterating goes on until nothing is left to do. -/
theorem Task.Runs.quiet_iterated (ht : t.Runs cs g)
    (hEntry : (t.discovered g).hasEntry t.comp = true) (hm : m.Lawful) (hShape : h.shape = g.shape)
    (hr : Regular h) (ho : o ∈ g.definitions t.comp) : Quiet m (t.iterated g m h) o := by
  have hArea := (ht.layout.of_shape hShape).area ht.mem
  rw [← definitions_of_shape hShape] at ho
  unfold Task.iterated Task.turned
  rw [if_pos hEntry]
  exact (iterate_spec hm hArea hr).2 o ho

/-- An update changes the sink of an operation only by that operation. -/
theorem Update.range_sink {defs : List OpId} (hUpdate : Update m defs g g') (hw : Wired g)
    (ho : g.ops[o]? = some op) : g'.range op.sink = g.range op.sink ∨
      m.step g.sentinels (g.trend op.sink) (g.range op.sink) (g.eval op) =
        some (g'.range op.sink) := by
  obtain ⟨o', -, op', r, ho', hStep, rfl⟩ := hUpdate
  by_cases hSame : op'.sink = op.sink
  · cases hw.eq_of_sink ho' ho hSame
    cases ho'.symm.trans ho
    rw [range_setRange (hw.sink_lt ho), if_pos rfl]
    exact .inr hStep
  · exact .inl (range_setRange_of_ne g r (Ne.symm hSame))

/-- Where no operation is bounded, there are no bounds to resolve. -/
theorem resolveBounds_of_unbounded
    (h : ∀ {o : OpId} {op : Operation}, g.ops[o]? = some op → op.kind.bound? = none)
    (test : Graph → OpId → Bool) (comp : List NodeId) : g.resolveBounds test comp = g := by
  have hResolve (n : NodeId) (o : OpId) : g.resolve n o = g := by
    unfold resolve
    cases ho : g.ops[o]? with
    | none => rfl
    | some op =>
      rw [Option.bind_some, h ho]
  have hInner (n : NodeId) (os : List OpId) :
      os.foldl (fun g o => if test g o then g.resolve n o else g) g = g := by
    induction os with
    | nil => rfl
    | cons o os ih => rw [List.foldl_cons, hResolve, ite_self, ih]
  unfold resolveBounds
  induction comp with
  | nil => rfl
  | cons n comp ih => rw [List.foldl_cons, hInner, ih]

end Iterated

/-! ### The graph of the loop -/

/-- The nodes of a loop that counts up: the constants that the index starts with and that is added,
the index, the index where the loop goes on, the next index, and the index where the loop ends. -/
structure Counter where
  first : NodeId
  step : NodeId
  index : NodeId
  taken : NodeId
  next : NodeId
  last : NodeId

/-- The operations of the loop while the index is less than `n`. -/
def Counter.ops (c : Counter) (s : Sentinels) (n : Int) : Array Operation :=
  #[⟨c.index, .phi [c.first, c.next], s.max⟩,
    ⟨c.taken, .sigma c.index none, ⟨s, s.negInf, n - 1, false⟩⟩,
    ⟨c.next, .binary .add c.taken c.step, s.max⟩,
    ⟨c.last, .sigma c.index none, ⟨s, n, s.posInf, false⟩⟩]

/-- A loop can count from `a` up to `n` within the sentinels and a type. -/
structure Countable (s : Sentinels) (t : IntType) (a n : Int) : Prop where
  low : s.negInf < a
  less : a < n
  high : n < s.posInf
  one : 1 < s.posInf
  type_low : t.minValue ≤ a + 1
  type_high : n ≤ t.maxValue

/-- The graph is that of a loop that counts from `a` up to `n`. -/
structure Counts (c : Counter) (s : Sentinels) (a n : Int) (g : Graph) : Prop where
  wired : Wired g
  regular : Regular g
  sentinels : g.sentinels = s
  ops : g.ops = c.ops s n
  first : g.range c.first = ⟨s, a, a, false⟩
  step : g.range c.step = ⟨s, 1, 1, false⟩
  free_first : g.definition c.first = none
  free_step : g.definition c.step = none
  countable : Countable s (g.typeOf c.next) a n

namespace Counts

variable {c : Counter} {s : Sentinels} {a n u : Int} {g g' : Graph} (hg : Counts c s a n g)
include hg

theorem op_index : g.ops[0]? = some ⟨c.index, .phi [c.first, c.next], s.max⟩ := by
  rw [hg.ops]
  rfl

theorem op_taken :
    g.ops[1]? = some ⟨c.taken, .sigma c.index none, ⟨s, s.negInf, n - 1, false⟩⟩ := by
  rw [hg.ops]
  rfl

theorem op_next : g.ops[2]? = some ⟨c.next, .binary .add c.taken c.step, s.max⟩ := by
  rw [hg.ops]
  rfl

theorem op_last : g.ops[3]? = some ⟨c.last, .sigma c.index none, ⟨s, n, s.posInf, false⟩⟩ := by
  rw [hg.ops]
  rfl

theorem ne_of_free {v : NodeId} (hv : g.definition v = none) {o : OpId} {op : Operation}
    (ho : g.ops[o]? = some op) : v ≠ op.sink := by
  rintro rfl
  rw [(hg.wired.definition_iff op.sink o).mpr ⟨op, ho, rfl⟩] at hv
  cases hv

theorem setRange {o : OpId} {op : Operation} {r : Range} (ho : g.ops[o]? = some op)
    (hr : WellFormed s r) : Counts c s a n (g.setRange op.sink r) where
  wired := hg.wired.of_shape (shape_setRange g op.sink r)
  regular := hg.regular.setRange op.sink (hg.sentinels.symm ▸ hr)
  sentinels := hg.sentinels
  ops := hg.ops
  first := (range_setRange_of_ne g r (hg.ne_of_free hg.free_first ho)).trans hg.first
  step := (range_setRange_of_ne g r (hg.ne_of_free hg.free_step ho)).trans hg.step
  free_first := (definition_of_shape (shape_setRange g op.sink r) _).trans hg.free_first
  free_step := (definition_of_shape (shape_setRange g op.sink r) _).trans hg.free_step
  countable := typeOf_of_shape (shape_setRange g op.sink r) c.next ▸ hg.countable

theorem sameState (h : SameState g g') : Counts c s a n g' where
  wired := hg.wired.of_shape h.shape
  regular := h.regular hg.regular
  sentinels := (sentinels_of_shape h.shape).trans hg.sentinels
  ops := h.ops.trans hg.ops
  first := (h.range _).trans hg.first
  step := (h.range _).trans hg.step
  free_first := (definition_of_shape h.shape _).trans hg.free_first
  free_step := (definition_of_shape h.shape _).trans hg.free_step
  countable := typeOf_of_shape h.shape c.next ▸ hg.countable

theorem wellFormed (v : NodeId) : WellFormed s (g.range v) := hg.sentinels ▸ hg.regular.range v

theorem wellFormed_eval (op : Operation) : WellFormed s (g.eval op) :=
  hg.sentinels ▸ hg.regular.eval op

/-! #### Evaluation -/

theorem eval_index_of_empty (hNext : g.range c.next = s.empty) :
    g.eval ⟨c.index, .phi [c.first, c.next], s.max⟩ = ⟨s, a, a, false⟩ := by
  rw [eval_of_max (hg.sentinels ▸ rfl), evalKind, List.map_cons, List.map_cons, hg.first, hNext]
  rfl

/-- The index is the first one or the next one. -/
theorem eval_index (hNext : g.range c.next = ⟨s, a + 1, u, false⟩) (hl : a + 1 ≤ u)
    (hu : u ≤ s.posInf) :
    g.eval ⟨c.index, .phi [c.first, c.next], s.max⟩ = ⟨s, a, u, false⟩ := by
  have := hg.countable.low
  rw [eval_of_max (hg.sentinels ▸ rfl), evalKind, List.map_cons, List.map_cons, hg.first, hNext]
  show s.interval (Min.min a (a + 1)) (Max.max a u) = _
  rw [Int.min_eq_left (by omega), Int.max_eq_right (by omega)]
  exact Sentinels.interval_of_between (by omega) (by omega) hu

theorem eval_taken (hIndex : g.range c.index = ⟨s, a, u, false⟩) (hl : a ≤ u) :
    g.eval ⟨c.taken, .sigma c.index none, ⟨s, s.negInf, n - 1, false⟩⟩ =
      ⟨s, a, Min.min u (n - 1), false⟩ := by
  have := hg.countable.low
  have := hg.countable.less
  have := hg.countable.high
  have hMax : (⟨s, s.negInf, n - 1, false⟩ : Range).isMax = false := by
    unfold isMax
    rw [upperUnbounded_mk, decide_eq_false (by omega), Bool.and_false]
  unfold eval
  rw [hMax, if_neg Bool.false_ne_true, evalKind, hIndex]
  show s.interval (Max.max a s.negInf) (Min.min u (n - 1)) = _
  rw [Int.max_eq_left (by omega)]
  exact Sentinels.interval_of_between (by omega) (by omega) (by omega)

theorem eval_last (hIndex : g.range c.index = ⟨s, a, n, false⟩) :
    g.eval ⟨c.last, .sigma c.index none, ⟨s, n, s.posInf, false⟩⟩ = ⟨s, n, n, false⟩ := by
  have := hg.countable.low
  have := hg.countable.less
  have := hg.countable.high
  have hMax : (⟨s, n, s.posInf, false⟩ : Range).isMax = false := by
    unfold isMax
    rw [lowerUnbounded_mk, decide_eq_false (by omega), Bool.false_and]
  unfold eval
  rw [hMax, if_neg Bool.false_ne_true, evalKind, hIndex]
  show s.interval (Max.max a n) (Min.min n s.posInf) = _
  rw [Int.max_eq_right (by omega), Int.min_eq_left (by omega)]
  exact Sentinels.interval_of_between (by omega) (by omega) (by omega)

theorem eval_next_of_empty (hTaken : g.range c.taken = s.empty) :
    g.eval ⟨c.next, .binary .add c.taken c.step, s.max⟩ = s.empty := by
  rw [eval_of_max (hg.sentinels ▸ rfl), evalKind, hTaken]
  rfl

/-- The next index is one more. An unbounded one stays unbounded, for the sum of infinities does not
overflow. -/
theorem eval_next (hTaken : g.range c.taken = ⟨s, a, u, false⟩) (hl : a ≤ u)
    (hu : u < n ∨ u = s.posInf) : g.eval ⟨c.next, .binary .add c.taken c.step, s.max⟩ =
      ⟨s, a + 1, if u = s.posInf then s.posInf else u + 1, false⟩ := by
  have hLow := hg.countable.low
  have hLess := hg.countable.less
  have hHigh := hg.countable.high
  have hOne := hg.countable.one
  have hNeg := s.negInf_neg
  have hTypeLow := hg.countable.type_low
  have hTypeHigh := hg.countable.type_high
  have hEnd : s.toExtended a = .fin a := Sentinels.toExtended_of_inner ⟨hLow, by omega⟩
  have hStep : s.toExtended 1 = .fin 1 := Sentinels.toExtended_of_inner ⟨by omega, hOne⟩
  have hEnds : Extended.add (s.toExtended a) (s.toExtended 1) = some (.fin (a + 1)) := by
    rw [hEnd, hStep]
    rfl
  obtain ⟨e, hSum, hLe, hOf, hType⟩ : ∃ e : Extended,
      Extended.add (s.toExtended u) (s.toExtended 1) = some e ∧ .fin (a + 1) ≤ e ∧
      s.ofExtended e = (if u = s.posInf then s.posInf else u + 1) ∧
      ∀ m, e = .fin m → a + 1 ≤ m ∧ m ≤ n := by
    rw [hStep]
    rcases hu with hu | rfl
    · rw [Sentinels.toExtended_of_inner ⟨by omega, by omega⟩, if_neg (by omega)]
      refine ⟨.fin (u + 1), rfl, by simpa using hl, ?_, ?_⟩
      · exact Sentinels.clamp_of_between (by omega) (by omega)
      · rintro m ⟨⟩
        omega
    · rw [s.toExtended_posInf, if_pos rfl]
      exact ⟨.posInf, rfl, by simp, rfl, by simp⟩
  have hFits : ∀ m, Extended.fin m ∈ [.fin (a + 1), .fin (a + 1), e, e] →
      (g.typeOf c.next).Contains m := by
    intro m hm
    have hm : Extended.fin m = .fin (a + 1) ∨ .fin m = e := by simpa using hm
    rcases hm with hm | hm
    · cases Extended.fin.inj hm
      exact ⟨by omega, by omega⟩
    · have := hType m hm.symm
      exact ⟨by omega, by omega⟩
  have hSpan := evalWrapping_of_corners (r := ⟨s, a, u, false⟩) (o := ⟨s, 1, 1, false⟩) g.sentinels
    rfl rfl hEnds hEnds hSum hSum hFits
  rw [min_self, min_self, max_self, max_self, min_eq_left hLe, max_eq_right hLe] at hSpan
  rw [eval_of_max (hg.sentinels ▸ rfl), evalKind, hTaken, hg.step]
  refine hSpan.trans ?_
  show s.interval (s.clamp (a + 1)) (s.ofExtended e) = _
  rw [hOf, Sentinels.clamp_of_between (by omega) (by omega)]
  exact Sentinels.interval_of_between (by omega) (by split <;> omega) (by split <;> omega)

/-! #### Phases -/

theorem unbounded {o : OpId} {op : Operation} (ho : g.ops[o]? = some op) :
    op.kind.bound? = none := by
  rw [hg.ops] at ho
  have hMem := Array.mem_of_getElem? ho
  simp only [Counter.ops, List.mem_toArray, List.mem_cons, List.not_mem_nil, or_false] at hMem
  rcases hMem with rfl | rfl | rfl | rfl <;> rfl

theorem sink_ne {o o' : OpId} {op op' : Operation} (ho : g.ops[o]? = some op)
    (ho' : g.ops[o']? = some op') (hne : o ≠ o') : op.sink ≠ op'.sink :=
  fun h => hne (hg.wired.eq_of_sink ho ho' h)

theorem assign (o : OpId) : Counts c s a n (g.assign o) := by
  cases ho : g.ops[o]? with
  | none =>
    unfold Graph.assign
    rw [ho]
    exact hg
  | some op =>
    rw [assign_eq ho]
    exact hg.setRange ho (hg.sentinels ▸ hg.regular.eval op)

theorem range_assign {o : OpId} {op : Operation} (ho : g.ops[o]? = some op) :
    (g.assign o).range op.sink = g.eval op := by
  rw [assign_eq ho, range_setRange (hg.wired.sink_lt ho), if_pos rfl]

theorem range_assign_of_ne {o o' : OpId} {op : Operation} (ho : g.ops[o]? = some op)
    (hne : o ≠ o') : (g.assign o').range op.sink = g.range op.sink := by
  cases ho' : g.ops[o']? with
  | none =>
    unfold Graph.assign
    rw [ho']
  | some op' =>
    rw [assign_eq ho']
    exact range_setRange_of_ne g _ (hg.sink_ne ho ho' hne)

theorem update {m : Meet} {defs : List OpId} (hm : m.Lawful) (h : Update m defs g g') :
    Counts c s a n g' := by
  obtain ⟨o, -, op, r, ho, hStep, rfl⟩ := h
  refine hg.setRange ho ?_
  rw [← hg.sentinels]
  exact hm.wellFormed (hg.regular.range op.sink) (hg.regular.eval op) hStep

theorem updates {m : Meet} {defs : List OpId} (hm : m.Lawful)
    (h : Relation.ReflTransGen (Update m defs) g g') : Counts c s a n g' := by
  induction h with
  | refl => exact hg
  | tail _ hStep ih => exact ih.update hm hStep

section Phases

variable {t : Task} {cs : Components} (ht : t.Runs cs g)
include ht

theorem widened : Counts c s a n (t.widened g) :=
  (hg.sameState (sameState_record _ _ _ g)).updates lawful_widening (ht.widens _)

/-- No intersection is fixed between widening and narrowing. -/
theorem sameState_fixed : SameState (t.widened g) (t.fixed g) := by
  have hFrozen : SameState (t.widened g) (t.frozen g) :=
    (sameState_freeze _ _).trans (sameState_record _ _ _ _)
  unfold Task.fixed
  rw [resolveBounds_of_unbounded ((hg.widened ht).sameState hFrozen).unbounded]
  exact hFrozen.trans (sameState_record _ _ _ _)

theorem fixed : Counts c s a n (t.fixed g) := (hg.widened ht).sameState (hg.sameState_fixed ht)

theorem iterated : Counts c s a n (t.iterated g t.meet (t.fixed g)) :=
  (hg.fixed ht).updates ht.tight.toLawful (ht.narrows _)

theorem sameState_resolved :
    SameState (t.iterated g t.meet (t.fixed g)) (t.resolved g) := by
  have hNarrowed := sameState_record t.pos t.comp .narrowed (t.iterated g t.meet (t.fixed g))
  unfold Task.resolved Task.narrowed
  rw [resolveBounds_of_unbounded ((hg.iterated ht).sameState hNarrowed).unbounded]
  exact hNarrowed

theorem propagated : Counts c s a n (t.propagated g) := by
  have hFold {h : Graph} (hh : Counts c s a n h) (os : List OpId) :
      Counts c s a n (os.foldl Graph.assign h) := by
    induction os generalizing h with
    | nil => exact hh
    | cons o os ih => exact ih (hh.assign o)
  have hResolved := (hg.iterated ht).sameState (hg.sameState_resolved ht)
  rw [Task.propagated, propagate_eq]
  exact (hFold hResolved _).sameState (sameState_record _ _ _ _)

end Phases

end Counts

/-! ### Before the loop -/

/-- Until the loop is solved, no more than the first index is known. -/
structure Fresh (c : Counter) (s : Sentinels) (a n : Int) (g : Graph) : Prop
    extends Counts c s a n g where
  index : g.range c.index = s.empty ∨ g.range c.index = ⟨s, a, a, false⟩
  taken : g.range c.taken = s.empty
  next : g.range c.next = s.empty

section Before

variable {c : Counter} {s : Sentinels} {a n : Int} {g g' : Graph} {o : OpId}

theorem Fresh.sameState (hg : Fresh c s a n g) (h : SameState g g') : Fresh c s a n g' :=
  ⟨hg.toCounts.sameState h, (h.range c.index).symm ▸ hg.index, (h.range c.taken).trans hg.taken,
    (h.range c.next).trans hg.next⟩

/-- The constants may lead to the index, and what leads to the next index is still empty. -/
theorem Fresh.assign (hg : Fresh c s a n g) (ho : o ≠ 1) : Fresh c s a n (g.assign o) := by
  have hAssign := hg.toCounts.assign o
  have hKept {o' : OpId} {op : Operation} (ho' : g.ops[o']? = some op) (hne : o' ≠ o) :
      (g.assign o).range op.sink = g.range op.sink := hg.range_assign_of_ne ho' hne
  match o with
  | 0 =>
    have hIndex := (hg.range_assign hg.op_index).trans (hg.eval_index_of_empty hg.next)
    exact ⟨hAssign, .inr hIndex, (hKept hg.op_taken (by decide)).trans hg.taken,
      (hKept hg.op_next (by decide)).trans hg.next⟩
  | 1 => exact absurd rfl ho
  | 2 =>
    have hNext := (hg.range_assign hg.op_next).trans (hg.eval_next_of_empty hg.taken)
    exact ⟨hAssign, hKept hg.op_index (by decide) ▸ hg.index,
      (hKept hg.op_taken (by decide)).trans hg.taken, hNext⟩
  | o + 3 =>
    exact ⟨hAssign, hKept hg.op_index nofun ▸ hg.index, (hKept hg.op_taken nofun).trans hg.taken,
      (hKept hg.op_next nofun).trans hg.next⟩

theorem Fresh.foldl_assign (hg : Fresh c s a n g) (os : List OpId) (hos : 1 ∉ os) :
    Fresh c s a n (os.foldl Graph.assign g) := by
  induction os generalizing g with
  | nil => exact hg
  | cons o os ih =>
    rw [List.mem_cons, not_or] at hos
    exact ih (hg.assign (Ne.symm hos.1)) hos.2

variable {t : Task} {cs : Components}

/-- A component that does not have the index in it leaves no more than the first index known. -/
theorem Fresh.propagated (hg : Fresh c s a n g) (ht : t.Runs cs g) (hIndex : c.index ∉ t.comp)
    (hTaken : c.taken ∉ t.comp) (hNext : c.next ∉ t.comp) : Fresh c s a n (t.propagated g) := by
  have hSame := hg.sameState_resolved ht
  have hOutside {v : NodeId} (hv : v ∉ t.comp) : (t.resolved g).range v = g.range v := by
    have hWidened : (t.widened g).range v = g.range v :=
      (ht.range_outside (shape_record _ _ _ g) hv (ht.widens _)).trans
        (Task.Runs.range_discovered t g v)
    have hFixed : (t.fixed g).range v = g.range v := (Task.Runs.range_fixed t g v).trans hWidened
    exact (hSame.range v).trans
      ((ht.range_outside (t.shape_fixed g) hv (ht.narrows _)).trans hFixed)
  have hResolved : Fresh c s a n (t.resolved g) :=
    ⟨(hg.iterated ht).sameState hSame, hOutside hIndex ▸ hg.index,
      (hOutside hTaken).trans hg.taken, (hOutside hNext).trans hg.next⟩
  have hFed : 1 ∉ (t.narrowed g).fed t.pos t.comp := fun hFed => by
    obtain ⟨op, ho, -, v, hv, hRead⟩ :=
      ((ht.layout.of_shape (t.shape_narrowed g)).mem_fed ht.mem 1).mp hFed
    obtain ⟨op', ho', -, hKind⟩ := op_of_shape (t.shape_narrowed g) ho
    cases hg.op_taken.symm.trans ho'
    rw [← hKind] at hRead
    rcases hRead with hRead | ⟨b, ⟨⟩⟩
    cases List.mem_singleton.mp hRead
    exact hIndex hv
  have hAssigned := hResolved.foldl_assign _ hFed
  rw [Task.propagated, propagate_eq]
  exact hAssigned.sameState (sameState_record _ _ _ _)

section Numbers

variable (hg : Counts c s a n g) (hLayout : Layout g cs)
include hg hLayout

theorem Counts.number_loop :
    cs.number c.taken = cs.number c.index ∧ cs.number c.next = cs.number c.index := by
  have hIndex : cs.number c.index ≤ cs.number c.taken :=
    hLayout.number_le hg.op_taken (.inl (List.mem_singleton_self _))
  have hTaken : cs.number c.taken ≤ cs.number c.next :=
    hLayout.number_le hg.op_next (.inl List.mem_cons_self)
  have hNext : cs.number c.next ≤ cs.number c.index :=
    hLayout.number_le hg.op_index (.inl (List.mem_cons_of_mem _ List.mem_cons_self))
  omega

/-- The first index is known before the loop, for no path leads to a constant. -/
theorem Counts.number_first : cs.number c.first < cs.number c.index := by
  have hRead : c.first ∈ (Kind.phi [c.first, c.next]).operands := List.mem_cons_self
  refine Nat.lt_of_le_of_ne (hLayout.number_le hg.op_index (.inl hRead)) fun hEq => ?_
  have hReach := ((hLayout.arranged.number_eq_iff hLayout.wired.successors_lt
    (hLayout.wired.operand_lt hg.op_index hRead) (hLayout.wired.sink_lt hg.op_index)).mp hEq).2
  rcases hReach.cases_tail with hSame | ⟨v, -, hEdge⟩
  · exact hg.ne_of_free hg.free_first hg.op_index hSame
  · obtain ⟨o, op, ho, hSink, -⟩ := (hLayout.wired.mem_successors _ _).mp hEdge
    exact hg.ne_of_free hg.free_first ho hSink.symm

theorem Counts.number_of_mem {v : NodeId} (hv : v ∈ [c.index, c.taken, c.next]) :
    v < g.nodes.size ∧ cs.number v = cs.number c.index := by
  obtain ⟨hTaken, hNext⟩ := hg.number_loop hLayout
  simp only [List.mem_cons, List.not_mem_nil, or_false] at hv
  rcases hv with rfl | rfl | rfl
  · exact ⟨hg.wired.sink_lt hg.op_index, rfl⟩
  · exact ⟨hg.wired.sink_lt hg.op_taken, hTaken⟩
  · exact ⟨hg.wired.sink_lt hg.op_next, hNext⟩

omit hLayout in
/-- Nothing reads the index where the loop ends. -/
theorem Counts.not_feeds_last (v : NodeId) : ¬ g.Feeds c.last v := by
  rintro ⟨o, op, ho, -, hRead⟩
  have hBound := hg.unbounded ho
  have hFirst := hg.ne_of_free hg.free_first hg.op_last
  have hStep := hg.ne_of_free hg.free_step hg.op_last
  have hNe {o : OpId} {op : Operation} (ho : g.ops[o]? = some op) (hne : o ≠ 3) :
      op.sink ≠ c.last := hg.sink_ne ho hg.op_last hne
  have hIndex := hNe hg.op_index (by decide)
  have hTaken := hNe hg.op_taken (by decide)
  have hNext := hNe hg.op_next (by decide)
  rw [hg.ops] at ho
  have hMem := Array.mem_of_getElem? ho
  simp only [Counter.ops, List.mem_toArray, List.mem_cons, List.not_mem_nil, or_false] at hMem
  rcases hMem with rfl | rfl | rfl | rfl <;> simp_all [Kind.operands, Ne.symm]

theorem Counts.ahead_last : Ahead cs ⟨c.last, .sigma c.index none, ⟨s, n, s.posInf, false⟩⟩ := by
  refine hLayout.ahead hg.op_last fun v hRead hReach => ?_
  rcases hReach.cases_head with hSame | ⟨w, hEdge, -⟩
  · subst hSame
    exact hg.not_feeds_last _ ⟨3, _, hg.op_last, rfl, hRead⟩
  · exact hg.not_feeds_last w ((hLayout.wired.mem_successors _ _).mp hEdge)

end Numbers

variable {b : Graph} {m : Meet} {k : Nat}

theorem Counts.before (hb : Counts c s a n b) (hLayout : Layout b cs) (hm : m.Tight)
    (hk : k ≤ cs.members.size) : Counts c s a n (before m cs b k) := by
  induction k with
  | zero => exact hb
  | succ k ih =>
    exact (ih (Nat.le_of_succ_le hk)).propagated (runs_before hLayout hb.regular hm hk)

theorem Fresh.before (hb : Fresh c s a n b) (hLayout : Layout b cs) (hm : m.Tight)
    (hk : k ≤ cs.number c.index) : Fresh c s a n (before m cs b k) := by
  induction k with
  | zero => exact hb
  | succ k ih =>
    have hg := ih (Nat.le_of_succ_le hk)
    have hLt : k < cs.members.size :=
      Nat.lt_trans hk (hLayout.number_lt (hLayout.wired.sink_lt hb.op_index))
    have ht := runs_before hLayout hb.regular hm hLt
    have hOut {v : NodeId} (hv : cs.number v = cs.number c.index) : v ∉ (taskOf m cs k).comp :=
      fun hMem => by
        have hNumber : cs.number v = k := ((ht.layout.mem_iff ht.mem v).mp hMem).2
        omega
    obtain ⟨hTaken, hNext⟩ := hb.number_loop hLayout
    exact hg.propagated ht (hOut rfl) (hOut hTaken) (hOut hNext)

end Before

end ValueRange.Graph
