import Mathlib.Algebra.BigOperators.Group.List.Basic
import Mathlib.Data.Finset.Card
import ValueRange.Proofs.Graph.Order
import ValueRange.Proofs.Graph.State

/-! Iterating an operator over the operations of a component. Each change of a range lowers its rank,
so that the queue runs empty; an operation that is not queued then has nothing left to change. -/

namespace ValueRange.Graph

open Range

variable {s : Sentinels} {t : Option Trend} {old new r : Range}

/-! ### The operators -/

/-- An operator keeps ranges well formed, lowers the rank of what it changes, and has nothing left
to change where it just did. -/
structure Meet.Lawful (m : Meet) : Prop where
  wellFormed {s : Sentinels} {t : Option Trend} {old new r : Range} : WellFormed s old →
    WellFormed s new → m.step s t old new = some r → WellFormed s r
  rank_lt {s : Sentinels} {t : Option Trend} {old new r : Range} : WellFormed s old →
    WellFormed s new → m.step s t old new = some r → m.rank r < m.rank old
  stable {s : Sentinels} {t : Option Trend} {old new r : Range} : WellFormed s old →
    WellFormed s new → m.step s t old new = some r → m.step s t r new = none

theorem lowerUnbounded_mk (s : Sentinels) (l u : Int) :
    (⟨s, l, u, false⟩ : Range).lowerUnbounded = decide (l = s.negInf) := rfl

theorem upperUnbounded_mk (s : Sentinels) (l u : Int) :
    (⟨s, l, u, false⟩ : Range).upperUnbounded = decide (u = s.posInf) := rfl

theorem same_mk (s : Sentinels) (l u l' u' : Int) :
    (⟨s, l, u, false⟩ : Range).Same ⟨s, l', u', false⟩ ↔ l = l' ∧ u = u' := Iff.rfl

section Widening

variable {l u l' u' : Int}

/-- A side moves to its sentinel if the new range lies beyond it. -/
theorem widen_mk (hl : s.negInf ≤ l) (h : l ≤ u) (hu : u ≤ s.posInf) (hl' : s.negInf ≤ l')
    (hu' : u' ≤ s.posInf) : widen s ⟨s, l, u, false⟩ ⟨s, l', u', false⟩ =
      if l ≤ l' ∧ u' ≤ u then none
      else some ⟨s, if l' < l then s.negInf else l, if u < u' then s.posInf else u, false⟩ := by
  have hLow : s.interval s.negInf u = ⟨s, s.negInf, u, false⟩ :=
    Sentinels.interval_of_between (Int.le_refl _) (by omega) hu
  have hHigh : s.interval l s.posInf = ⟨s, l, s.posInf, false⟩ :=
    Sentinels.interval_of_between hl (by omega) (Int.le_refl _)
  have hMax : s.max = ⟨s, s.negInf, s.posInf, false⟩ := rfl
  unfold widen
  simp only [hLow, hHigh, hMax, Bool.false_eq_true, if_false]
  by_cases hLower : l' < l
  · have hNot : ¬ (l ≤ l' ∧ u' ≤ u) := by omega
    by_cases hUpper : u < u'
    · simp only [hLower, hUpper, hNot, if_true, if_false, same_mk]
      rw [if_neg (by omega)]
    · simp only [hLower, hUpper, hNot, if_true, if_false, same_mk]
      rw [if_neg (by omega)]
  · by_cases hUpper : u < u'
    · have hNot : ¬ (l ≤ l' ∧ u' ≤ u) := by omega
      simp only [hLower, hUpper, hNot, if_true, if_false, same_mk]
      rw [if_neg (by omega)]
    · have hWithin : l ≤ l' ∧ u' ≤ u := by omega
      simp only [hLower, hUpper, hWithin, if_false, and_self, if_true, same_mk]

theorem widen_empty (hn : new.isEmpty = false) : widen s s.empty new = some new := by
  unfold widen
  rw [hn]
  rfl

/-- Nothing is left to widen if and only if the old range holds the new one. -/
theorem widen_eq_none_iff (hOld : WellFormed s old) (hNew : WellFormed s new) :
    widen s old new = none ↔ new ⊆ old := by
  cases hNew with
  | empty => exact ⟨fun _ => .inl rfl, fun _ => rfl⟩
  | between hl' h' hu' =>
    cases hOld with
    | empty =>
      rw [widen_empty rfl]
      refine ⟨nofun, fun h => ?_⟩
      rcases h with h | ⟨h, -⟩ <;> cases h
    | between hl h hu =>
      rw [widen_mk hl h hu hl' hu']
      split
      case isTrue hWithin => exact ⟨fun _ => .inr ⟨rfl, hWithin⟩, fun _ => rfl⟩
      case isFalse hNot =>
        refine ⟨nofun, fun hSub => ?_⟩
        rcases hSub with hSub | ⟨-, hSub⟩
        · cases hSub
        · exact absurd hSub hNot

/-- Widening holds both ranges. -/
theorem widen_subset (hOld : WellFormed s old) (hNew : WellFormed s new)
    (h : widen s old new = some r) : WellFormed s r ∧ old ⊆ r ∧ new ⊆ r := by
  cases hNew with
  | empty => cases h
  | between hl' h' hu' =>
    cases hOld with
    | empty =>
      rw [widen_empty rfl] at h
      cases h
      exact ⟨.between hl' h' hu', empty_subset s _, subset_refl _⟩
    | @between l u hl hle hu =>
      rw [widen_mk hl hle hu hl' hu'] at h
      split at h
      case isTrue => cases h
      case isFalse hNot =>
        cases h
        refine ⟨?_, .inr ⟨rfl, ?_⟩, .inr ⟨rfl, ?_⟩⟩
        · exact .between (by split <;> omega) (by split <;> split <;> omega) (by split <;> omega)
        · constructor <;> simp only <;> split <;> omega
        · constructor <;> simp only <;> split <;> omega

theorem lawful_widening : Meet.widening.Lawful where
  wellFormed hOld hNew h := (widen_subset hOld hNew h).1
  rank_lt {s t old new r} hOld hNew h := by
    replace h : widen s old new = some r := h
    cases hNew with
    | empty => cases h
    | @between l' u' hl' h' hu' =>
      cases hOld with
      | empty =>
        rw [widen_empty rfl] at h
        cases h
        simp only [Meet.widening, Sentinels.empty, lowerUnbounded_mk, upperUnbounded_mk,
          decide_eq_true_eq, Bool.false_eq_true, if_false, if_true]
        split_ifs <;> omega
      | @between l u hl hle hu =>
        rw [widen_mk hl hle hu hl' hu'] at h
        split at h
        case isTrue => cases h
        case isFalse hNot =>
          cases h
          simp only [Meet.widening, lowerUnbounded_mk, upperUnbounded_mk, decide_eq_true_eq,
            Bool.false_eq_true, if_false]
          split_ifs <;> omega
  stable {s t old new r} hOld hNew h := by
    obtain ⟨hr, -, hSub⟩ := widen_subset hOld hNew h
    exact (widen_eq_none_iff hr hNew).mpr hSub

end Widening

section Tightening

variable {l u l' u' lo hi : Int}

/-- Each side of the range is the old one, or the new one where that lies further in. -/
structure Tightens (s : Sentinels) (old new r : Range) : Prop where
  wellFormed : WellFormed s r
  nonempty : r.isEmpty = false
  old_nonempty : old.isEmpty = false
  new_nonempty : new.isEmpty = false
  lower : r.lower = old.lower ∨ (r.lower = new.lower ∧ old.lower < new.lower)
  upper : r.upper = old.upper ∨ (r.upper = new.upper ∧ new.upper < old.upper)

theorem Tightens.subset (h : Tightens s old new r) : r ⊆ old := by
  refine .inr ⟨h.old_nonempty, ?_, ?_⟩
  · rcases h.lower with h | ⟨h, h'⟩ <;> omega
  · rcases h.upper with h | ⟨h, h'⟩ <;> omega

theorem Tightens.mem {x : Int} (h : Tightens s old new r) (hOld : x ∈ old) (hNew : x ∈ new) :
    x ∈ r := by
  obtain ⟨-, hl, hu⟩ := hOld
  obtain ⟨-, hl', hu'⟩ := hNew
  refine ⟨h.nonempty, ?_, ?_⟩
  · rcases h.lower with h | ⟨h, -⟩ <;> omega
  · rcases h.upper with h | ⟨h, -⟩ <;> omega

theorem update_mk (hl : s.negInf ≤ lo) (hl' : lo ≤ s.posInf) (hu : s.negInf ≤ hi)
    (hu' : hi ≤ s.posInf) : update s ⟨s, l, u, false⟩ lo hi =
      if hi < lo ∨ lo = l ∧ hi = u then none else some ⟨s, lo, hi, false⟩ := by
  unfold update Sentinels.interval
  simp only [Sentinels.clamp_of_between hl hl', Sentinels.clamp_of_between hu hu']
  by_cases h : hi < lo
  · simp [h, Sentinels.empty]
  · simp only [h, if_false, Bool.false_or, decide_eq_true_eq, same_mk, false_or]

/-- New sides that are old ones, or new ones further in, tighten the range. -/
theorem tightens_update (hl : s.negInf ≤ l) (h : l ≤ u) (hu : u ≤ s.posInf) (hl' : s.negInf ≤ l')
    (h' : l' ≤ u') (hu' : u' ≤ s.posInf) (hLower : lo = l ∨ lo = l' ∧ l < l')
    (hUpper : hi = u ∨ hi = u' ∧ u' < u) (hr : update s ⟨s, l, u, false⟩ lo hi = some r) :
    r = ⟨s, lo, hi, false⟩ ∧ lo ≤ hi ∧ (lo ≠ l ∨ hi ≠ u) ∧
      Tightens s ⟨s, l, u, false⟩ ⟨s, l', u', false⟩ r := by
  rw [update_mk (by omega) (by omega) (by omega) (by omega)] at hr
  split at hr
  case isTrue => cases hr
  case isFalse hNot =>
    cases hr
    have hle : lo ≤ hi := by omega
    exact ⟨rfl, hle, by omega,
      ⟨.between (by omega) hle (by omega), rfl, rfl, rfl, hLower, hUpper⟩⟩

theorem narrow_mk (s : Sentinels) (l u l' u' : Int) :
    narrow s ⟨s, l, u, false⟩ ⟨s, l', u', false⟩ = update s ⟨s, l, u, false⟩
      (if l = s.negInf ∧ l' ≠ s.negInf then l' else l)
      (if u = s.posInf ∧ u' ≠ s.posInf then u' else u) := by
  simp [narrow, lowerUnbounded_mk, upperUnbounded_mk]

theorem crop_mk (s : Sentinels) (t : Option Trend) (l u l' u' : Int) :
    crop s t ⟨s, l, u, false⟩ ⟨s, l', u', false⟩ = update s ⟨s, l, u, false⟩
      (if t.any Trend.lowers then Max.max l l' else l)
      (if t.any Trend.raises then Min.min u u' else u) := rfl

/-- An operator that only tightens ranges. -/
structure Meet.Tight (m : Meet) : Prop extends Meet.Lawful m where
  tightens {s : Sentinels} {t : Option Trend} {old new r : Range} : WellFormed s old →
    WellFormed s new → m.step s t old new = some r → Tightens s old new r

theorem tight_narrowing : Meet.narrowing.Tight := by
  have hStep {s : Sentinels} {old new r : Range} (hOld : WellFormed s old)
      (hNew : WellFormed s new) (h : narrow s old new = some r) : Tightens s old new r ∧
        Meet.narrowing.rank r < Meet.narrowing.rank old ∧ narrow s r new = none := by
    cases hOld with
    | empty => cases h
    | @between l u hl hle hu =>
      cases hNew with
      | empty => cases h
      | @between l' u' hl' hle' hu' =>
        rw [narrow_mk] at h
        obtain ⟨rfl, hlohi, hne, hTight⟩ := tightens_update hl hle hu hl' hle' hu'
          (by split <;> omega) (by split <;> omega) h
        refine ⟨hTight, ?_, ?_⟩
        · simp only [Meet.narrowing, lowerUnbounded_mk, upperUnbounded_mk, decide_eq_true_eq]
          split_ifs <;> omega
        · rw [narrow_mk, update_mk, if_pos]
          all_goals split_ifs <;> omega
  exact {
    wellFormed := fun hOld hNew h => (hStep hOld hNew h).1.wellFormed
    rank_lt := fun hOld hNew h => (hStep hOld hNew h).2.1
    stable := fun hOld hNew h => (hStep hOld hNew h).2.2
    tightens := fun hOld hNew h => (hStep hOld hNew h).1 }

theorem tight_cropping : Meet.cropping.Tight := by
  have hStep {s : Sentinels} {t : Option Trend} {old new r : Range} (hOld : WellFormed s old)
      (hNew : WellFormed s new) (h : crop s t old new = some r) : Tightens s old new r ∧
        Meet.cropping.rank r < Meet.cropping.rank old ∧ crop s t r new = none := by
    cases hOld with
    | empty => cases h
    | @between l u hl hle hu =>
      cases hNew with
      | empty => cases h
      | @between l' u' hl' hle' hu' =>
        rw [crop_mk] at h
        obtain ⟨rfl, hlohi, hne, hTight⟩ := tightens_update hl hle hu hl' hle' hu'
          (by split <;> omega) (by split <;> omega) h
        refine ⟨hTight, ?_, ?_⟩
        · simp only [Meet.cropping]
          split_ifs at hlohi hne ⊢ <;> omega
        · rw [crop_mk, update_mk, if_pos]
          all_goals split_ifs at hlohi ⊢ <;> omega
  exact {
    wellFormed := fun hOld hNew h => (hStep hOld hNew h).1.wellFormed
    rank_lt := fun hOld hNew h => (hStep hOld hNew h).2.1
    stable := fun hOld hNew h => (hStep hOld hNew h).2.2
    tightens := fun hOld hNew h => (hStep hOld hNew h).1 }

end Tightening

/-! ### The queue -/

section Queue

variable {m : Meet} {pos : Nat} {defs queue : List OpId} {g g' : Graph}

/-- One of the operations updates its sink. -/
def Update (m : Meet) (defs : List OpId) (g g' : Graph) : Prop :=
  ∃ o ∈ defs, ∃ op r, g.ops[o]? = some op ∧
    m.step g.sentinels (g.trend op.sink) (g.range op.sink) (g.eval op) = some r ∧
    g' = g.setRange op.sink r

/-- The operator has nothing to change at an operation. -/
def Quiet (m : Meet) (g : Graph) (o : OpId) : Prop :=
  ∀ op, g.ops[o]? = some op →
    m.step g.sentinels (g.trend op.sink) (g.range op.sink) (g.eval op) = none

/-- Where nothing is left to widen, the sink holds what the operation evaluates to. -/
theorem Quiet.eval_subset {o : OpId} {op : Operation} (h : Quiet .widening g o) (hg : Regular g)
    (ho : g.ops[o]? = some op) : g.eval op ⊆ g.range op.sink :=
  (widen_eq_none_iff (hg.range op.sink) (hg.eval op)).mp (h op ho)

theorem Update.shape (h : Update m defs g g') : g'.shape = g.shape := by
  obtain ⟨o, -, op, r, -, -, rfl⟩ := h
  exact shape_setRange g op.sink r

theorem Update.ops (h : Update m defs g g') : g'.ops = g.ops := by
  obtain ⟨o, -, op, r, -, -, rfl⟩ := h
  rfl

theorem Update.regular (hm : m.Lawful) (h : Update m defs g g') (hg : Regular g) : Regular g' := by
  obtain ⟨o, -, op, r, -, hStep, rfl⟩ := h
  exact hg.setRange op.sink (hm.wellFormed (hg.range op.sink) (hg.eval op) hStep)

theorem inside_of_shape (h : g'.shape = g.shape) (pos : Nat) : g'.inside pos = g.inside pos := by
  funext o
  unfold inside
  rw [components_of_shape h, sink_of_shape h]

theorem enqueue_spec (queue os : List OpId) (hNodup : queue.Nodup) :
    (enqueue queue os).Nodup ∧ ∀ o, o ∈ enqueue queue os ↔ o ∈ queue ∨ o ∈ os := by
  have hCollect := collect_spec (P := fun _ => False)
    (f := fun q k => if k ∈ q then q else q ++ [k]) (fun acc k => ?_) os queue hNodup
  · simpa [enqueue] using hCollect
  · by_cases hk : k ∈ acc
    · exact .inl ⟨if_pos hk, .inr hk⟩
    · exact .inr ⟨if_neg hk, not_false, hk⟩

/-- The operations of a component: those that define its nodes, each of them once. -/
structure Area (g : Graph) (pos : Nat) (defs : List OpId) : Prop where
  wired : Wired g
  nodup : defs.Nodup
  mem_iff (o : OpId) : o ∈ defs ↔ o < g.ops.size ∧ g.inside pos o = true

theorem Area.of_shape (h : g'.shape = g.shape) (hArea : Area g pos defs) : Area g' pos defs := by
  refine ⟨hArea.wired.of_shape h, hArea.nodup, fun o => ?_⟩
  rw [ops_size_of_shape h, inside_of_shape h]
  exact hArea.mem_iff o

/-- Two operations with one sink are the same. -/
theorem Wired.eq_of_sink (hg : Wired g) {o o' : OpId} {op op' : Operation}
    (ho : g.ops[o]? = some op) (ho' : g.ops[o']? = some op') (h : op.sink = op'.sink) : o = o' := by
  have hDef := (hg.definition_iff op.sink o).mpr ⟨op, ho, rfl⟩
  have hDef' := (hg.definition_iff op.sink o').mpr ⟨op', ho', h.symm⟩
  rw [hDef] at hDef'
  exact Option.some.inj hDef'

/-- The ranks of the ranges that the operations define. -/
def totalRank (m : Meet) (defs : List OpId) (g : Graph) : Nat :=
  (defs.map fun o => m.rank (g.range (g.sink o))).sum

theorem stepBound_eq (g : Graph) (m : Meet) (defs : List OpId) :
    g.stepBound m defs = defs.length + totalRank m defs g * g.ops.size := by
  have hFold (k : Nat) : defs.foldl (fun n o => n + m.rank (g.range (g.sink o))) k =
      k + totalRank m defs g := by
    unfold totalRank
    induction defs generalizing k with
    | nil => rfl
    | cons o defs ih => rw [List.foldl_cons, ih, List.map_cons, List.sum_cons, Nat.add_assoc]
  rw [stepBound, hFold, Nat.zero_add]

/-- A change of a range lowers the sum of the ranks. -/
theorem totalRank_setRange (hArea : Area g pos defs) {o : OpId} {op : Operation} {r : Range}
    (ho : o ∈ defs) (hOp : g.ops[o]? = some op) (hr : m.rank r < m.rank (g.range op.sink)) :
    totalRank m defs (g.setRange op.sink r) < totalRank m defs g := by
  have hSink : g.sink o = op.sink := by simp [sink, hOp]
  have hShape := shape_setRange g op.sink r
  unfold totalRank
  rw [← List.sum_map_erase _ ho, ← List.sum_map_erase _ ho]
  refine Nat.add_lt_add_of_lt_of_le ?_ (Nat.le_of_eq ?_)
  · rw [sink_of_shape hShape, hSink, range_setRange (hArea.wired.sink_lt hOp), if_pos rfl]
    exact hr
  · refine congrArg List.sum (List.map_congr_left fun k hk => ?_)
    obtain ⟨hne, hk⟩ := hArea.nodup.mem_erase_iff.mp hk
    obtain ⟨op', hOp'⟩ : ∃ op', g.ops[k]? = some op' :=
      ⟨_, Array.getElem?_eq_getElem ((hArea.mem_iff k).mp hk).1⟩
    rw [sink_of_shape hShape, range_setRange_of_ne]
    intro hSame
    refine hne (hArea.wired.eq_of_sink hOp' hOp ?_)
    rw [← hSame]
    simp [sink, hOp']

/-- The queue holds operations of a component, each once. -/
structure Queued (defs queue : List OpId) : Prop where
  nodup : queue.Nodup
  subset {o : OpId} : o ∈ queue → o ∈ defs

namespace Queued

variable {o : OpId}

theorem tail (h : Queued defs (o :: queue)) : Queued defs queue :=
  ⟨(List.nodup_cons.mp h.nodup).2, fun hk => h.subset (List.mem_cons_of_mem o hk)⟩

/-- The operations of the component that read a node are queued. -/
theorem enqueue (h : Queued defs queue) (hArea : Area g pos defs) (n : NodeId) :
    Queued defs (Graph.enqueue queue ((g.uses n).filter (g.inside pos))) := by
  obtain ⟨hNodup, hMem⟩ := enqueue_spec queue ((g.uses n).filter (g.inside pos)) h.nodup
  refine ⟨hNodup, fun {k} hk => ?_⟩
  rcases (hMem k).mp hk with hk | hk
  · exact h.subset hk
  · obtain ⟨hUse, hIn⟩ := List.mem_filter.mp hk
    obtain ⟨op, hOp, -⟩ := (hArea.wired.mem_uses n k).mp hUse
    exact (hArea.mem_iff k).mpr ⟨(Array.getElem?_eq_some_iff.mp hOp).1, hIn⟩

theorem length_le (h : Queued defs queue) (hArea : Area g pos defs) :
    queue.length ≤ g.ops.size := by
  rw [← List.toFinset_card_of_nodup h.nodup, ← Finset.card_range g.ops.size]
  refine Finset.card_le_card fun o ho => ?_
  rw [Finset.mem_range]
  exact ((hArea.mem_iff o).mp (h.subset (List.mem_toFinset.mp ho))).1

end Queued

/-! A queue without repetitions may as well flag the operations that it holds. -/

/-- A queue with a flag for each operation. -/
structure FlaggedQueue where
  queue : List OpId
  queued : OpId → Bool

namespace FlaggedQueue

/-- Queues an operation that has no flag. -/
def push (q : FlaggedQueue) (o : OpId) : FlaggedQueue :=
  if q.queued o then q else ⟨q.queue ++ [o], Function.update q.queued o true⟩

/-- Applies an operator to the operations of a queue. The flag of an operation is cleared when it
is taken from the queue. -/
def iterate (m : Meet) (pos : Nat) : (steps : Nat) → FlaggedQueue → Graph → Graph
  | 0, _, g => g
  | _, ⟨[], _⟩, g => g
  | steps + 1, ⟨o :: queue, queued⟩, g =>
    let q : FlaggedQueue := ⟨queue, Function.update queued o false⟩
    match g.ops[o]? with
    | none => iterate m pos steps q g
    | some op =>
      match m.step g.sentinels (g.trend op.sink) (g.range op.sink) (g.eval op) with
      | none => iterate m pos steps q g
      | some r =>
        let g := g.setRange op.sink r
        iterate m pos steps (((g.uses op.sink).filter (g.inside pos)).foldl push q) g

/-- The queue holds the operations with flags, each once. -/
structure Accurate (q : FlaggedQueue) : Prop where
  nodup : q.queue.Nodup
  mem_iff (o : OpId) : q.queued o = true ↔ o ∈ q.queue

variable {q : FlaggedQueue} {o : OpId} {queued : OpId → Bool}

theorem Accurate.pop (h : Accurate ⟨o :: queue, queued⟩) :
    Accurate ⟨queue, Function.update queued o false⟩ := by
  obtain ⟨hNot, hNodup⟩ := List.nodup_cons.mp h.nodup
  refine ⟨hNodup, fun k => ?_⟩
  by_cases hk : k = o
  · subst hk
    simp [hNot]
  · simpa [Function.update_of_ne hk, hk] using h.mem_iff k

theorem Accurate.push (h : Accurate q) (o : OpId) : Accurate (q.push o) ∧
    (q.push o).queue = if o ∈ q.queue then q.queue else q.queue ++ [o] := by
  unfold FlaggedQueue.push
  by_cases ho : o ∈ q.queue
  · rw [if_pos ((h.mem_iff o).mpr ho), if_pos ho]
    exact ⟨h, rfl⟩
  · rw [if_neg (mt (h.mem_iff o).mp ho), if_neg ho]
    refine ⟨⟨?_, fun k => ?_⟩, rfl⟩
    · exact List.nodup_append.mpr ⟨h.nodup, List.nodup_singleton o, fun a ha b hb => by
        rw [List.mem_singleton.mp hb]
        exact ne_of_mem_of_not_mem ha ho⟩
    · by_cases hk : k = o
      · subst hk
        simp
      · simpa [Function.update_of_ne hk, hk] using h.mem_iff k

theorem Accurate.foldl_push (h : Accurate q) (os : List OpId) :
    Accurate (os.foldl FlaggedQueue.push q) ∧
      (os.foldl FlaggedQueue.push q).queue = enqueue q.queue os := by
  induction os generalizing q with
  | nil => exact ⟨h, rfl⟩
  | cons o os ih =>
    obtain ⟨hPush, hQueue⟩ := h.push o
    obtain ⟨hAll, hEq⟩ := ih hPush
    rw [hQueue] at hEq
    exact ⟨hAll, hEq⟩

/-- Looking at the flags and looking into the queue come to the same. -/
theorem Accurate.iterate_eq (h : Accurate q) (m : Meet) (pos steps : Nat) (g : Graph) :
    q.iterate m pos steps g = iterateQueue m pos steps q.queue g := by
  induction steps generalizing q g with
  | zero => rfl
  | succ steps ih =>
    obtain ⟨queue, queued⟩ := q
    cases queue with
    | nil => rfl
    | cons o queue =>
      have hPop := h.pop
      rw [FlaggedQueue.iterate, iterateQueue]
      dsimp only
      cases g.ops[o]? with
      | none => exact ih hPop g
      | some op =>
        dsimp only
        cases m.step g.sentinels (g.trend op.sink) (g.range op.sink) (g.eval op) with
        | none => exact ih hPop g
        | some r =>
          dsimp only
          obtain ⟨hAll, hQueue⟩ := hPop.foldl_push
            (((g.setRange op.sink r).uses op.sink).filter ((g.setRange op.sink r).inside pos))
          rw [ih hAll, hQueue]

end FlaggedQueue

/-- The operations of a component are iterated as with flags, all of which are set at first. -/
theorem Area.iterate_eq_flagged (hArea : Area g pos defs) (m : Meet) :
    iterate m pos defs g =
      FlaggedQueue.iterate m pos (g.stepBound m defs) ⟨defs, fun o => defs.contains o⟩ g := by
  have hAccurate : FlaggedQueue.Accurate ⟨defs, fun o => defs.contains o⟩ :=
    ⟨hArea.nodup, fun _ => List.contains_iff_mem⟩
  exact (hAccurate.iterate_eq m pos _ g).symm

/-- The queue holds all operations of the component that may have something to change. -/
structure Working (m : Meet) (defs queue : List OpId) (g : Graph) : Prop
    extends Queued defs queue where
  waits {o : OpId} : o ∈ defs → o ∈ queue ∨ Quiet m g o

/-- An operation whose sources keep their ranges, and whose sink does, stays quiet. -/
theorem Quiet.setRange {n : NodeId} {r : Range} {o : OpId} {op : Operation}
    (h : Quiet m g o) (ho : g.ops[o]? = some op) (hSink : op.sink ≠ n)
    (hOperands : n ∉ op.kind.operands) : Quiet m (g.setRange n r) o := by
  intro op' ho'
  cases ho.symm.trans ho'
  have hEval := eval_congr (shape_setRange g n r) op fun k hk =>
    range_setRange_of_ne g r (ne_of_mem_of_not_mem hk hOperands)
  rw [hEval, range_setRange_of_ne g r hSink, trend_setRange]
  exact h op ho

/-- The first operation of the queue has nothing to change. -/
theorem Working.skip {o : OpId} (h : Working m defs (o :: queue) g) (hQuiet : Quiet m g o) :
    Working m defs queue g := by
  refine ⟨h.tail, fun {k} hk => ?_⟩
  rcases h.waits hk with hMem | hq
  · rcases List.mem_cons.mp hMem with rfl | hMem
    · exact .inr hQuiet
    · exact .inl hMem
  · exact .inr hq

/-- The first operation of the queue updates its sink. What reads the sink is queued again; the
operation itself is quiet unless it does so. -/
theorem Working.update (hm : m.Lawful) (hArea : Area g pos defs) (hg : Regular g) {o : OpId}
    {op : Operation} {r : Range} (h : Working m defs (o :: queue) g) (ho : g.ops[o]? = some op)
    (hStep : m.step g.sentinels (g.trend op.sink) (g.range op.sink) (g.eval op) = some r) :
    Working m defs (enqueue queue ((g.uses op.sink).filter (g.inside pos)))
      (g.setRange op.sink r) := by
  obtain ⟨-, hMem⟩ :=
    enqueue_spec queue ((g.uses op.sink).filter (g.inside pos)) h.tail.nodup
  refine ⟨h.tail.enqueue hArea op.sink, fun {k} hk => ?_⟩
  obtain ⟨hkLt, hkIn⟩ := (hArea.mem_iff k).mp hk
  obtain ⟨op', hOp'⟩ : ∃ op', g.ops[k]? = some op' := ⟨_, Array.getElem?_eq_getElem hkLt⟩
  by_cases hReads : op.sink ∈ op'.kind.operands
  · refine .inl ((hMem k).mpr (.inr (List.mem_filter.mpr ⟨?_, hkIn⟩)))
    exact (hArea.wired.mem_uses _ k).mpr ⟨op', hOp', hReads⟩
  · by_cases hko : k = o
    · subst hko
      cases ho.symm.trans hOp'
      refine .inr fun op' hOp' => ?_
      cases ho.symm.trans hOp'
      have hEval := eval_congr (shape_setRange g op.sink r) op fun n hn =>
        range_setRange_of_ne g r (ne_of_mem_of_not_mem hn hReads)
      rw [hEval, trend_setRange, range_setRange (hArea.wired.sink_lt ho), if_pos rfl]
      exact hm.stable (hg.range op.sink) (hg.eval op) hStep
    · rcases h.waits hk with hWait | hQuiet
      · exact .inl ((hMem k).mpr (.inl ((List.mem_cons.mp hWait).resolve_left hko)))
      · refine .inr (hQuiet.setRange hOp' (fun hSink => hko ?_) hReads)
        exact hArea.wired.eq_of_sink hOp' ho hSink

theorem iterateQueue_nil (m : Meet) (pos steps : Nat) (g : Graph) :
    iterateQueue m pos steps [] g = g := by
  cases steps <;> rfl

/-- With enough steps the queue runs empty, so that more of them change nothing. The measure is the
length of the queue plus the ranks times the number of operations: a change may queue all operations,
but lowers the ranks. -/
theorem iterateQueue_spec (hm : m.Lawful) (steps : Nat) (hArea : Area g pos defs) (hg : Regular g)
    (h : Working m defs queue g)
    (hSteps : queue.length + totalRank m defs g * g.ops.size ≤ steps) :
    Relation.ReflTransGen (Update m defs) g (iterateQueue m pos steps queue g) ∧
      (∀ o ∈ defs, Quiet m (iterateQueue m pos steps queue g) o) ∧
      ∀ more, iterateQueue m pos (steps + more) queue g = iterateQueue m pos steps queue g := by
  induction steps generalizing queue g with
  | zero =>
    have hEmpty : queue = [] := List.length_eq_zero_iff.mp (by omega)
    subst hEmpty
    exact ⟨.refl, fun o ho => (h.waits ho).resolve_left nofun, fun _ => iterateQueue_nil _ _ _ g⟩
  | succ steps ih =>
    match queue, h with
    | [], h =>
      exact ⟨.refl, fun o ho => (h.waits ho).resolve_left nofun, fun _ => iterateQueue_nil _ _ _ g⟩
    | o :: queue, h =>
      have ho := h.subset List.mem_cons_self
      obtain ⟨op, hOp⟩ : ∃ op, g.ops[o]? = some op :=
        ⟨_, Array.getElem?_eq_getElem ((hArea.mem_iff o).mp ho).1⟩
      rw [List.length_cons] at hSteps
      simp only [Nat.add_right_comm steps 1, iterateQueue, hOp]
      cases hStep : m.step g.sentinels (g.trend op.sink) (g.range op.sink) (g.eval op) with
      | none =>
        have hQuiet : Quiet m g o := fun op' hOp' => by
          cases hOp.symm.trans hOp'
          exact hStep
        exact ih hArea hg (h.skip hQuiet) (by omega)
      | some r =>
        have hShape := shape_setRange g op.sink r
        have hRank := totalRank_setRange hArea ho hOp
          (hm.rank_lt (hg.range op.sink) (hg.eval op) hStep)
        have hUpdate : Update m defs g (g.setRange op.sink r) := ⟨o, ho, op, r, hOp, hStep, rfl⟩
        have hNext := h.update hm hArea hg hOp hStep
        have hLength := hNext.length_le (hArea.of_shape hShape)
        have hProduct : (totalRank m defs (g.setRange op.sink r) + 1) * g.ops.size ≤
            totalRank m defs g * g.ops.size := Nat.mul_le_mul_right _ hRank
        rw [Nat.add_mul, Nat.one_mul] at hProduct
        have hSize : (g.setRange op.sink r).ops.size = g.ops.size := rfl
        simp only [uses_of_shape hShape, inside_of_shape hShape]
        obtain ⟨hRun, hQuiet, hMore⟩ := ih (hArea.of_shape hShape) (hUpdate.regular hm hg) hNext
          (by rw [hSize] at hLength ⊢; omega)
        exact ⟨.head hUpdate hRun, hQuiet, hMore⟩

/-- Iterating takes updates until all operations of the component are quiet. -/
theorem iterate_spec (hm : m.Lawful) (hArea : Area g pos defs) (hg : Regular g) :
    Relation.ReflTransGen (Update m defs) g (iterate m pos defs g) ∧
      ∀ o ∈ defs, Quiet m (iterate m pos defs g) o := by
  obtain ⟨hRun, hQuiet, -⟩ := iterateQueue_spec hm _ hArea hg ⟨⟨hArea.nodup, id⟩, .inl⟩
    (Nat.le_of_eq (g.stepBound_eq m defs).symm)
  exact ⟨hRun, hQuiet⟩

theorem iterateQueue_of_le (hm : m.Lawful) (hArea : Area g pos defs) (hg : Regular g) {steps : Nat}
    (hSteps : g.stepBound m defs ≤ steps) :
    iterateQueue m pos steps defs g = iterateQueue m pos (g.stepBound m defs) defs g := by
  obtain ⟨-, -, hMore⟩ := iterateQueue_spec hm _ hArea hg ⟨⟨hArea.nodup, id⟩, .inl⟩
    (Nat.le_of_eq (g.stepBound_eq m defs).symm)
  rw [← hMore (steps - g.stepBound m defs), Nat.add_sub_cancel' hSteps]

end Queue

end ValueRange.Graph
