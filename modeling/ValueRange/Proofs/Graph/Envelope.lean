import ValueRange.Proofs.Graph.Course

/-! The envelope of widening. While its component is widened, the range of a node only grows. From
the end of widening to the end of the solution it stays within the range that was reached then, and
differs from it at most on the sides that its frozen trend names. -/

namespace ValueRange.Graph

open Range

variable {g g' h b : Graph} {cs : Components} {m : Meet} {t : Task} {k : Nat} {n : NodeId}

/-! ### The operators -/

theorem lowers_trendOf (r : Range) : (trendOf r).lowers = r.lowerUnbounded := by
  unfold trendOf isMax
  cases r.lowerUnbounded <;> cases r.upperUnbounded <;> rfl

theorem raises_trendOf (r : Range) : (trendOf r).raises = r.upperUnbounded := by
  unfold trendOf isMax
  cases r.lowerUnbounded <;> cases r.upperUnbounded <;> rfl

/-- An operator that tightens only sides that are unbounded or that the trend names. -/
structure Meet.Regains (m : Meet) : Prop extends Meet.Tight m where
  lower {s : Sentinels} {t : Option Trend} {old new r : Range} : WellFormed s old →
    WellFormed s new → m.step s t old new = some r → r.lower ≠ old.lower →
    old.lowerUnbounded = true ∨ t.any Trend.lowers = true
  upper {s : Sentinels} {t : Option Trend} {old new r : Range} : WellFormed s old →
    WellFormed s new → m.step s t old new = some r → r.upper ≠ old.upper →
    old.upperUnbounded = true ∨ t.any Trend.raises = true

/-- What an update of the bounds leaves. -/
theorem bounds_of_update {s : Sentinels} {l u lo hi : Int} {r : Range} (hl : s.negInf ≤ lo)
    (hl' : lo ≤ s.posInf) (hu : s.negInf ≤ hi) (hu' : hi ≤ s.posInf)
    (h : update s ⟨s, l, u, false⟩ lo hi = some r) : r.lower = lo ∧ r.upper = hi := by
  rw [update_mk hl hl' hu hu'] at h
  split at h
  · cases h
  · cases h
    exact ⟨rfl, rfl⟩

theorem regains_narrowing : Meet.narrowing.Regains := by
  have hSides {s : Sentinels} {old new r : Range} (hOld : WellFormed s old)
      (hNew : WellFormed s new) (h : narrow s old new = some r) :
      (r.lower ≠ old.lower → old.lowerUnbounded = true) ∧
        (r.upper ≠ old.upper → old.upperUnbounded = true) := by
    cases hOld with
    | empty => cases h
    | @between l u hl hle hu =>
      cases hNew with
      | empty => cases h
      | @between l' u' hl' hle' hu' =>
        rw [narrow_mk] at h
        obtain ⟨hLower, hUpper⟩ := bounds_of_update (by split <;> omega) (by split <;> omega)
          (by split <;> omega) (by split <;> omega) h
        rw [hLower, hUpper, lowerUnbounded_mk, upperUnbounded_mk, decide_eq_true_eq,
          decide_eq_true_eq]
        constructor <;> split <;> simp_all
  exact {
    tight_narrowing with
    lower := fun hOld hNew h hne => .inl ((hSides hOld hNew h).1 hne)
    upper := fun hOld hNew h hne => .inl ((hSides hOld hNew h).2 hne) }

theorem regains_cropping : Meet.cropping.Regains := by
  have hSides {s : Sentinels} {t : Option Trend} {old new r : Range} (hOld : WellFormed s old)
      (hNew : WellFormed s new) (h : crop s t old new = some r) :
      (r.lower ≠ old.lower → t.any Trend.lowers = true) ∧
        (r.upper ≠ old.upper → t.any Trend.raises = true) := by
    cases hOld with
    | empty => cases h
    | @between l u hl hle hu =>
      cases hNew with
      | empty => cases h
      | @between l' u' hl' hle' hu' =>
        rw [crop_mk] at h
        obtain ⟨hLower, hUpper⟩ := bounds_of_update (by split <;> omega) (by split <;> omega)
          (by split <;> omega) (by split <;> omega) h
        rw [hLower, hUpper]
        constructor <;> split <;> simp_all
  exact {
    tight_cropping with
    lower := fun hOld hNew h hne => .inr ((hSides hOld hNew h).1 hne)
    upper := fun hOld hNew h hne => .inr ((hSides hOld hNew h).2 hne) }

theorem exists_regains (h : g.narrowing = .cousot ∨ g.narrowing = .crop) :
    ∃ m : Meet, meetOf g.narrowing = .ok m ∧ m.Regains := by
  rcases h with h | h
  · exact ⟨.narrowing, by rw [h, meetOf], regains_narrowing⟩
  · exact ⟨.cropping, by rw [h, meetOf], regains_cropping⟩

/-! ### Envelopes -/

/-- The range lies within a widened one, is empty exactly if that is, and keeps each bound of it that
is not a sentinel on its own side. -/
structure Envelope (wide r : Range) : Prop where
  subset : r ⊆ wide
  isEmpty_iff : r.isEmpty = true ↔ wide.isEmpty = true
  lower : wide.lower ≠ wide.sentinels.negInf → r.lower = wide.lower
  upper : wide.upper ≠ wide.sentinels.posInf → r.upper = wide.upper

theorem Envelope.refl (r : Range) : Envelope r r :=
  ⟨subset_refl r, Iff.rfl, fun _ => rfl, fun _ => rfl⟩

/-- The sides that the trend of the widened range does not name are its own. -/
theorem Envelope.sides {wide r : Range} (h : Envelope wide r) {s : Sentinels}
    (hWide : WellFormed s wide) :
    ((trendOf wide).lowers = false → r.lower = wide.lower) ∧
      ((trendOf wide).raises = false → r.upper = wide.upper) := by
  have := s.negInf_lt_posInf
  rw [lowers_trendOf, raises_trendOf]
  cases hWide with
  | empty => exact ⟨fun _ => h.lower (by simp [Sentinels.empty]; omega),
      fun _ => h.upper (by simp [Sentinels.empty]; omega)⟩
  | between hl hle hu =>
    rw [lowerUnbounded_mk, upperUnbounded_mk, decide_eq_false_iff_not, decide_eq_false_iff_not]
    exact ⟨h.lower, h.upper⟩

/-- An update keeps to the envelope. -/
theorem Envelope.update {s : Sentinels} {wide old new r : Range} (hEnvelope : Envelope wide old)
    (hm : m.Regains) (hWide : WellFormed s wide) (hOld : WellFormed s old)
    (hNew : WellFormed s new) (h : m.step s (some (trendOf wide)) old new = some r) :
    Envelope wide r := by
  have hTightens := hm.tightens hOld hNew h
  have hSame (hs : wide.isEmpty = false) : wide.sentinels = s := hWide.sentinels_eq
  have hFull : wide.isEmpty = false := by
    rw [← Bool.not_eq_true, ← hEnvelope.isEmpty_iff, Bool.not_eq_true]
    exact hTightens.old_nonempty
  refine ⟨subset_trans hTightens.subset hEnvelope.subset, ?_, fun hl => ?_, fun hu => ?_⟩
  · rw [hTightens.nonempty, hFull]
  · by_contra hne
    have hLower := hEnvelope.lower hl
    rcases hm.lower hOld hNew h (hLower ▸ hne) with hOpen | hTrend
    · refine hl (hLower.symm.trans ?_)
      rw [hSame hFull, ← hOld.sentinels_eq]
      exact (beq_iff_eq.mp (Bool.and_eq_true_iff.mp hOpen).2)
    · rw [Option.any_some, lowers_trendOf] at hTrend
      exact hl (beq_iff_eq.mp (Bool.and_eq_true_iff.mp hTrend).2)
  · by_contra hne
    have hUpper := hEnvelope.upper hu
    rcases hm.upper hOld hNew h (hUpper ▸ hne) with hOpen | hTrend
    · refine hu (hUpper.symm.trans ?_)
      rw [hSame hFull, ← hOld.sentinels_eq]
      exact (beq_iff_eq.mp (Bool.and_eq_true_iff.mp hOpen).2)
    · rw [Option.any_some, raises_trendOf] at hTrend
      exact hu (beq_iff_eq.mp (Bool.and_eq_true_iff.mp hTrend).2)

/-! ### Phases -/

theorem updates_trend {defs : List OpId} (hRun : Relation.ReflTransGen (Update m defs) g g')
    (n : NodeId) : g'.trend n = g.trend n := by
  induction hRun with
  | refl => rfl
  | tail _ hStep ih =>
    obtain ⟨o, -, op, r, -, -, rfl⟩ := hStep
    exact (trend_setRange _ _ _ n).trans ih

/-- While a component is widened, no range shrinks. -/
theorem updates_widening {defs : List OpId} (hw : Wired g) (hr : Regular g)
    (hRun : Relation.ReflTransGen (Update .widening defs) g g') (n : NodeId) :
    g.range n ⊆ g'.range n := by
  induction hRun with
  | refl => exact subset_refl _
  | @tail g₁ g₂ hRun hStep ih =>
    have hRegular := updates_regular lawful_widening hRun hr
    refine subset_trans ih ?_
    obtain ⟨o, -, op, r, hOp, hWiden, rfl⟩ := hStep
    have hLt := (hw.of_shape (updates_shape hRun)).sink_lt hOp
    rw [range_setRange hLt]
    split
    case isTrue hn =>
      rw [hn]
      exact (widen_subset (hRegular.range op.sink) (hRegular.eval op) hWiden).2.1
    case isFalse => exact subset_refl _

/-- While a component is narrowed, a range keeps to the envelope that its trend stands for. -/
theorem updates_envelope {defs : List OpId} {wide : Range} (hm : m.Regains) (hw : Wired g)
    (hr : Regular g) (hTrend : g.trend n = some (trendOf wide))
    (hWide : WellFormed g.sentinels wide) (hEnvelope : Envelope wide (g.range n))
    (hRun : Relation.ReflTransGen (Update m defs) g g') : Envelope wide (g'.range n) := by
  induction hRun with
  | refl => exact hEnvelope
  | @tail g₁ g₂ hRun hStep ih =>
    have hShape := updates_shape hRun
    have hRegular := updates_regular hm.toLawful hRun hr
    obtain ⟨o, -, op, r, hOp, hUpdate, rfl⟩ := hStep
    rw [range_setRange ((hw.of_shape hShape).sink_lt hOp)]
    split
    case isTrue hn =>
      subst hn
      rw [updates_trend hRun, hTrend] at hUpdate
      rw [← sentinels_of_shape hShape] at hWide
      exact ih.update hm hWide (hRegular.range op.sink) (hRegular.eval op) hUpdate
    case isFalse => exact ih

namespace Task

theorem trend_turned (t : Task) (g : Graph) (m : Meet) (turns : Nat) (h : Graph) (n : NodeId) :
    (t.turned g m turns h).trend n = h.trend n := by
  unfold turned
  split
  · exact trend_iterateQueue _ _ _ _ _ n
  · rfl

theorem trend_widening (t : Task) (g : Graph) (turns : Nat) (n : NodeId) :
    (t.state g (.widening turns)).trend n = g.trend n :=
  (t.trend_turned g _ turns _ n).trans (trend_of_nodes (nodes_record _ _ _ g) n)

/-- The trends of a component are frozen when it is widened. -/
theorem trend_frozen (t : Task) (hn : n < g.nodes.size) : (t.frozen g).trend n =
    if n ∈ t.comp then some ((g.trend n).getD (trendOf ((t.widened g).range n)))
    else g.trend n := by
  have hTrend : (t.widened g).trend n = g.trend n := t.trend_widening g _ n
  have hSize : n < (t.widened g).nodes.size := by
    rw [widened, iterated, size_of_shape (t.shape_turned g _ _ _), discovered, nodes_record]
    exact hn
  rw [frozen, trend_of_nodes (nodes_record _ _ _ _), trend_freeze _ _ _ hSize, hTrend]

/-- From the end of widening on, trends stay. -/
theorem trend_state (t : Task) {i : Moment}
    (hi : ∀ turns, i ≠ .widening turns) : (t.state g i).trend n = (t.frozen g).trend n := by
  have hFixed : (t.fixed g).trend n = (t.frozen g).trend n := by
    refine trend_of_nodes ?_ n
    rw [fixed, nodes_record, nodes_resolveBounds]
  have hNarrowed (turns : Nat) :
      (t.turned g t.meet turns (t.fixed g)).trend n = (t.frozen g).trend n :=
    (t.trend_turned g t.meet turns _ n).trans hFixed
  cases i with
  | widening turns => exact absurd rfl (hi turns)
  | frozen => rfl
  | narrowing turns => exact hNarrowed turns
  | propagating evaluations =>
    rw [state, trend_foldl_assign, ← hNarrowed]
    refine trend_of_nodes ?_ n
    rw [resolved, nodes_resolveBounds, narrowed, nodes_record]
    rfl

/-- The trends of other components stay at every moment. -/
theorem trend_outside (t : Task) (hn : n < g.nodes.size) (hOut : n ∉ t.comp) (i : Moment) :
    (t.state g i).trend n = g.trend n := by
  by_cases hi : ∃ turns, i = .widening turns
  · obtain ⟨turns, rfl⟩ := hi
    exact t.trend_widening g turns n
  · rw [t.trend_state fun turns h => hi ⟨turns, h⟩, t.trend_frozen hn, if_neg hOut]

theorem trend_propagated (t : Task) (g : Graph) (n : NodeId) :
    (t.propagated g).trend n = (t.frozen g).trend n := by
  rw [Runs.propagated_eq, trend_of_nodes (nodes_record _ _ _ _)]
  exact t.trend_state nofun

variable {i : Moment}

/-- From the end of its widening on, a node of the component keeps to its envelope. -/
theorem Runs.envelope (ht : t.Runs cs g) (hm : t.meet.Regains) (hn : n ∈ t.comp)
    (hTrend : g.trend n = none) (hi : ∀ turns, i ≠ .widening turns) :
    Envelope ((t.widened g).range n) ((t.state g i).range n) ∧
      (t.state g i).trend n = some (trendOf ((t.widened g).range n)) := by
  obtain ⟨hLt, hNumber⟩ := (ht.layout.mem_iff ht.mem n).mp hn
  have hFrozen : (t.frozen g).trend n = some (trendOf ((t.widened g).range n)) := by
    rw [t.trend_frozen hLt, if_pos hn, hTrend, Option.getD_none]
  have hFixed : (t.fixed g).trend n = some (trendOf ((t.widened g).range n)) := by
    rw [← hFrozen, ← t.trend_turned g t.meet 0 (t.fixed g) n]
    exact t.trend_state (i := .narrowing 0) nofun
  have hWide : WellFormed (t.fixed g).sentinels ((t.widened g).range n) := by
    rw [← Runs.range_fixed t g n]
    exact ht.regular_fixed.range n
  have hNarrowing (turns : Nat) :
      Envelope ((t.widened g).range n) ((t.state g (.narrowing turns)).range n) := by
    refine updates_envelope hm (ht.layout.of_shape (t.shape_fixed g)).wired ht.regular_fixed hFixed
      hWide ?_ (ht.narrows turns)
    rw [Runs.range_fixed]
    exact .refl _
  refine ⟨?_, (t.trend_state hi).trans hFrozen⟩
  cases i with
  | widening turns => exact absurd rfl (hi turns)
  | frozen =>
    rw [state, Runs.range_frozen]
    exact .refl _
  | narrowing turns => exact hNarrowing turns
  | propagating evaluations =>
    rw [ht.range_propagating (Nat.le_of_eq hNumber), Runs.range_narrowed]
    exact hNarrowing _

end Task

/-! ### The whole solution -/

section Before

variable (hLayout : Layout b cs) (hRegular : Regular b) (hm : m.Regains)
include hLayout hRegular hm

/-- Until its component is widened, a node keeps the trend that it began with. -/
theorem trend_before (hn : n < b.nodes.size) (hk : k ≤ cs.number n) :
    (before m cs b k).trend n = b.trend n := by
  induction k with
  | zero => rfl
  | succ k ih =>
    have hSize : n < (before m cs b k).nodes.size := by
      rw [size_of_shape (shape_before m cs b k)]
      exact hn
    have hLt : k < cs.members.size := Nat.lt_trans hk (hLayout.number_lt hn)
    have ht := runs_before hLayout hRegular hm.toTight hLt
    have hOut : n ∉ (taskOf m cs k).comp := fun hMem => by
      have hNumber : cs.number n = k := ((ht.layout.mem_iff ht.mem n).mp hMem).2
      omega
    rw [before, Task.trend_propagated, Task.trend_frozen _ hSize, if_neg hOut]
    exact ih (Nat.le_of_succ_le hk)

/-- Once its component is solved, a node keeps its trend. -/
theorem trend_solved {k' : Nat} (hn : n < b.nodes.size) (hNumber : cs.number n < k) (hle : k ≤ k')
    (hk' : k' ≤ cs.members.size) : (before m cs b k').trend n = (before m cs b k).trend n := by
  induction k', hle using Nat.le_induction with
  | base => rfl
  | succ k' hle ih =>
    have hSize : n < (before m cs b k').nodes.size := by
      rw [size_of_shape (shape_before m cs b k')]
      exact hn
    have ht := runs_before hLayout hRegular hm.toTight hk'
    have hOut : n ∉ (taskOf m cs k').comp := fun hMem => by
      have hSame : cs.number n = k' := ((ht.layout.mem_iff ht.mem n).mp hMem).2
      omega
    rw [before, Task.trend_propagated, Task.trend_frozen _ hSize, if_neg hOut]
    exact ih (Nat.le_of_succ_le hk')

end Before

/-- Moment `i` of component `k'` comes after the widening of component `k`. -/
def AfterWidening (k k' : Nat) (i : Moment) : Prop :=
  k < k' ∨ k' = k ∧ ∀ turns, i ≠ .widening turns

/-- The widening of a component never shrinks a node of it. From its end on the node keeps to the
envelope of the range that it has then, and differs from it only on the sides that its frozen trend
names; after the component is solved its range stays as it is. -/
theorem solve_envelope (hg : Unstarted g)
    (hNarrowing : g.narrowing = .cousot ∨ g.narrowing = .crop) :
    ∃ m cs, meetOf g.narrowing = .ok m ∧ g.seed.findComponents = .ok cs ∧
      solve.run.run g =
        (.ok (), { before m cs (g.begun cs) cs.members.size with solved := true }) ∧
      ∀ k < cs.members.size, ∀ n ∈ (taskOf m cs k).comp,
        let start := before m cs (g.begun cs) k
        let wide := ((taskOf m cs k).widened start).range n
        (∀ turns, start.range n ⊆ ((taskOf m cs k).state start (.widening turns)).range n) ∧
        (∀ k' < cs.members.size, ∀ i, AfterWidening k k' i →
          let now := (taskOf m cs k').state (before m cs (g.begun cs) k') i
          Envelope wide (now.range n) ∧ now.trend n = some (trendOf wide) ∧
            ((trendOf wide).lowers = false → (now.range n).lower = wide.lower) ∧
            ((trendOf wide).raises = false → (now.range n).upper = wide.upper)) ∧
        (before m cs (g.begun cs) cs.members.size).range n =
          (before m cs (g.begun cs) (k + 1)).range n := by
  obtain ⟨m, hMeet, hm⟩ := exists_regains hNarrowing
  obtain ⟨cs, hFind, hLayout⟩ := hg.wired.layout_begun hg.started
  have hRegular : Regular (g.begun cs) := ⟨(regular_seed hg.started).range⟩
  refine ⟨m, cs, hMeet, hFind, solve_eq hg.solved hFind hMeet, fun k hk n hn => ?_⟩
  have ht := runs_before hLayout hRegular hm.toTight hk
  obtain ⟨hSize, hNumber⟩ := (ht.layout.mem_iff ht.mem n).mp hn
  replace hNumber : cs.number n = k := hNumber
  have hLt : n < (g.begun cs).nodes.size := by
    rw [← size_of_shape (shape_before m cs (g.begun cs) k)]
    exact hSize
  have hNone : (before m cs (g.begun cs) k).trend n = none :=
    (trend_before hLayout hRegular hm hLt (Nat.le_of_eq hNumber.symm)).trans
      ((trend_seed hg.started n).trans (hg.trend n))
  have hOwn {i : Moment} (hi : ∀ turns, i ≠ .widening turns) := ht.envelope hm hn hNone hi
  have hLast : cs.number n < k + 1 := Nat.lt_succ_of_le (Nat.le_of_eq hNumber)
  intro start wide
  refine ⟨fun turns => ?_, fun k' hk' i hAfter => ?_,
    range_before hLayout hRegular hm.toTight hLast hk (Nat.le_refl _)⟩
  · rw [← Task.Runs.range_discovered (taskOf m cs k)]
    exact updates_widening (ht.layout.of_shape (shape_record _ _ _ _)).wired ht.regular_discovered
      (ht.widens turns) n
  · intro now
    have hKept : Envelope wide (now.range n) ∧ now.trend n = some (trendOf wide) := by
      rcases hAfter with hLater | ⟨rfl, hi⟩
      · -- a later component leaves the node as it is
        have ht' := runs_before hLayout hRegular hm.toTight hk'
        have hOut : n ∉ (taskOf m cs k').comp := fun hMem => by
          have hSame : cs.number n = k' := ((ht'.layout.mem_iff ht'.mem n).mp hMem).2
          omega
        have hBefore : cs.number n < (taskOf m cs k').pos := hNumber ▸ hLater
        have hSize' : n < (before m cs (g.begun cs) k').nodes.size := by
          rw [size_of_shape (shape_before m cs (g.begun cs) k')]
          exact hLt
        have hRange : now.range n = (before m cs (g.begun cs) (k + 1)).range n :=
          (ht'.range_state hBefore i).trans
            (range_before hLayout hRegular hm.toTight hLast hLater (Nat.le_of_lt hk'))
        have hTrend : now.trend n = (before m cs (g.begun cs) (k + 1)).trend n :=
          (Task.trend_outside _ hSize' hOut i).trans
            (trend_solved hLayout hRegular hm hLt hLast hLater (Nat.le_of_lt hk'))
        rw [hRange, hTrend, before, Task.trend_propagated,
          (Task.Runs.sameState_propagated _ _).range]
        exact ⟨(hOwn (by simp)).1, (hOwn (i := .frozen) (by simp)).2⟩
      · exact hOwn hi
    exact ⟨hKept.1, hKept.2, hKept.1.sides (ht.regular_widening _ |>.range n)⟩

/-- Cropping keeps the nodes of the loop within their widened ranges. -/
theorem looping_enveloped : looping.narrowing = .crop ∧
    ∃ cs, looping.seed.findComponents = .ok cs ∧
      ∀ k < cs.members.size, ∀ n ∈ (taskOf .cropping cs k).comp, ∀ turns,
        let start := before .cropping cs (looping.begun cs) k
        Envelope (((taskOf .cropping cs k).widened start).range n)
          (((taskOf .cropping cs k).state start (.narrowing turns)).range n) := by
  have hCrop : looping.narrowing = .crop := by decide +kernel
  obtain ⟨m, cs, hMeet, hFind, -, hNodes⟩ := solve_envelope looping_unstarted (.inr hCrop)
  rw [hCrop] at hMeet
  cases hMeet
  refine ⟨hCrop, cs, hFind, fun k hk n hn turns => ?_⟩
  exact ((hNodes k hk n hn).2.1 k hk (.narrowing turns) (.inr ⟨rfl, nofun⟩)).1

end ValueRange.Graph
