import ValueRange.Proofs.Graph.Course

/-! The end of every iteration. A turn of the loop takes the first operation that waits; if what it
evaluates to changes its sink, the operations of the component that read the sink wait again. Whatever
the operations evaluate to, each change lowers the rank of a range, which bounds the changes of each
node and the number of all turns. -/

namespace ValueRange

/-- The number of steps of a sequence that have a property. -/
def steps {α : Type} (P : α → α → Prop) [DecidableRel P] : List α → Nat
  | a :: b :: rest => (if P a b then 1 else 0) + steps P (b :: rest)
  | _ => 0

/-- What lowers a rank happens no more often than the first rank says. -/
theorem steps_le {α : Type} {P : α → α → Prop} [DecidableRel P] (rank : α → Nat) {a : α}
    {l : List α} (h : (a :: l).IsChain fun a b => rank b + (if P a b then 1 else 0) ≤ rank a) :
    steps P (a :: l) ≤ rank a := by
  induction l generalizing a with
  | nil => exact Nat.zero_le _
  | cons b l ih =>
    rw [List.isChain_cons_cons] at h
    have hRest := ih h.2
    have hFirst := h.1
    rw [steps]
    omega

namespace Graph

open Range

/-! ### Turns -/

/-- The state of an iteration: the operations that wait, and the graph. -/
structure Worklist where
  queue : List OpId
  graph : Graph

/-- One turn of an iteration that evaluates operations by `e`. -/
inductive Turn (m : Meet) (pos : Nat) (e : Graph → Operation → Range) : Worklist → Worklist → Prop
  | keep {g : Graph} {o : OpId} {queue : List OpId} {op : Operation} (ho : g.ops[o]? = some op)
      (hStep : m.step g.sentinels (g.trend op.sink) (g.range op.sink) (e g op) = none) :
      Turn m pos e ⟨o :: queue, g⟩ ⟨queue, g⟩
  | change {g : Graph} {o : OpId} {queue : List OpId} {op : Operation} {r : Range}
      (ho : g.ops[o]? = some op)
      (hStep : m.step g.sentinels (g.trend op.sink) (g.range op.sink) (e g op) = some r) :
      Turn m pos e ⟨o :: queue, g⟩
        ⟨enqueue queue ((g.uses op.sink).filter (g.inside pos)), g.setRange op.sink r⟩

/-- One turn of an iteration whose operations may evaluate to any well-formed range. -/
def AnyTurn (m : Meet) (pos : Nat) (w w' : Worklist) : Prop :=
  ∃ e, (∀ op, WellFormed w.graph.sentinels (e w.graph op)) ∧ Turn m pos e w w'

/-- What holds all the time while the operations of a component are iterated. -/
structure Worklist.Going (w : Worklist) (pos : Nat) (defs : List OpId) : Prop where
  area : Area w.graph pos defs
  regular : Regular w.graph
  queued : Queued defs w.queue

/-- The operations that wait, and those that may still be queued again. -/
def Worklist.measure (w : Worklist) (m : Meet) (defs : List OpId) : Nat :=
  w.queue.length + totalRank m defs w.graph * w.graph.ops.size

variable {m : Meet} {pos : Nat} {defs : List OpId} {w w' : Worklist} {ws : List Worklist}
variable {e : Graph → Operation → Range} {g : Graph} {n : NodeId}

/-- While an operation waits there is a next turn, whatever it evaluates to. -/
theorem exists_turn (m : Meet) (e : Graph → Operation → Range) (hw : w.Going pos defs)
    (hQueue : w.queue ≠ []) : ∃ w', Turn m pos e w w' := by
  obtain ⟨queue, g⟩ := w
  cases queue with
  | nil => exact absurd rfl hQueue
  | cons o queue =>
    have ho := (hw.area.mem_iff o).mp (hw.queued.subset List.mem_cons_self)
    obtain ⟨op, hOp⟩ : ∃ op, g.ops[o]? = some op := ⟨_, Array.getElem?_eq_getElem ho.1⟩
    cases hStep : m.step g.sentinels (g.trend op.sink) (g.range op.sink) (e g op) with
    | none => exact ⟨_, .keep hOp hStep⟩
    | some r => exact ⟨_, .change hOp hStep⟩

theorem Worklist.Going.anyTurn (hw : w.Going pos defs) (h : Turn m pos eval w w') :
    AnyTurn m pos w w' :=
  ⟨eval, hw.regular.eval, h⟩

namespace AnyTurn

/-- A turn keeps the frame of the iteration and brings it nearer to its end. -/
theorem step (h : AnyTurn m pos w w') (hm : m.Lawful) (hw : w.Going pos defs) :
    w'.Going pos defs ∧ w'.measure m defs < w.measure m defs := by
  obtain ⟨e, hNew, h⟩ := h
  cases h with
  | @keep g o queue op ho hStep =>
    refine ⟨⟨hw.area, hw.regular, hw.queued.tail⟩, ?_⟩
    simp only [Worklist.measure, List.length_cons]
    omega
  | @change g o queue op r ho hStep =>
    have hOld := hw.regular.range op.sink
    have hArea : Area (g.setRange op.sink r) pos defs := hw.area.of_shape (shape_setRange g op.sink r)
    have hQueued := hw.queued.tail.enqueue hw.area op.sink
    refine ⟨⟨hArea, hw.regular.setRange op.sink (hm.wellFormed hOld (hNew op) hStep), hQueued⟩, ?_⟩
    have hRank := totalRank_setRange hw.area (hw.queued.subset List.mem_cons_self) ho
      (hm.rank_lt hOld (hNew op) hStep)
    have hLength := hQueued.length_le hArea
    have hProduct : (totalRank m defs (g.setRange op.sink r) + 1) * g.ops.size ≤
        totalRank m defs g * g.ops.size := Nat.mul_le_mul_right _ hRank
    have hSize : (g.setRange op.sink r).ops.size = g.ops.size := rfl
    rw [Nat.add_mul, Nat.one_mul] at hProduct
    simp only [Worklist.measure, List.length_cons, hSize] at hLength ⊢
    omega

/-- A turn leaves the range of a node, or updates it by the operator. -/
theorem range (h : AnyTurn m pos w w') (hw : w.Going pos defs) (n : NodeId) :
    w'.graph.range n = w.graph.range n ∨ ∃ s t new, WellFormed s (w.graph.range n) ∧
      WellFormed s new ∧ m.step s t (w.graph.range n) new = some (w'.graph.range n) := by
  obtain ⟨e, hNew, h⟩ := h
  cases h with
  | keep => exact .inl rfl
  | @change g o queue op r ho hStep =>
    by_cases hn : n = op.sink
    · subst hn
      refine .inr ⟨_, g.trend op.sink, _, hw.regular.range op.sink, hNew op, ?_⟩
      rw [range_setRange (hw.area.wired.sink_lt ho), if_pos rfl]
      exact hStep
    · exact .inl (range_setRange_of_ne g r hn)

end AnyTurn

/-! ### Runs -/

/-- All along a run the frame of the iteration is kept. -/
theorem run_going (hm : m.Lawful) (hw : w.Going pos defs) (h : (w :: ws).IsChain (AnyTurn m pos)) :
    ∀ w' ∈ w :: ws, w'.Going pos defs := by
  induction ws generalizing w with
  | nil =>
    intro w' hMem
    rw [List.mem_singleton.mp hMem]
    exact hw
  | cons next ws ih =>
    rw [List.isChain_cons_cons] at h
    intro w' hMem
    rcases List.mem_cons.mp hMem with rfl | hMem
    · exact hw
    · exact ih (h.1.step hm hw).1 h.2 w' hMem

/-- A run has no more turns than its measure says. -/
theorem run_length (hm : m.Lawful) (hw : w.Going pos defs)
    (h : (w :: ws).IsChain (AnyTurn m pos)) : ws.length ≤ w.measure m defs := by
  induction ws generalizing w with
  | nil => exact Nat.zero_le _
  | cons next ws ih =>
    rw [List.isChain_cons_cons] at h
    obtain ⟨hNext, hLt⟩ := h.1.step hm hw
    have hRest := ih hNext h.2
    rw [List.length_cons]
    omega

/-- What an operator does to a range is what a run does to the range of a node, step by step. -/
theorem run_range {P : Range → Range → Prop} (hm : m.Lawful) (hw : w.Going pos defs)
    (h : (w :: ws).IsChain (AnyTurn m pos)) (hSame : ∀ r, P r r)
    (hStep : ∀ {s t old new r}, WellFormed s old → WellFormed s new →
      m.step s t old new = some r → P old r) (n : NodeId) :
    (w :: ws).IsChain fun w w' => P (w.graph.range n) (w'.graph.range n) := by
  induction ws generalizing w with
  | nil => exact .singleton w
  | cons next ws ih =>
    rw [List.isChain_cons_cons] at h ⊢
    refine ⟨?_, ih (h.1.step hm hw).1 h.2⟩
    rcases h.1.range hw n with hSameRange | ⟨s, t, new, hOld, hNew, hr⟩
    · rw [hSameRange]
      exact hSame _
    · exact hStep hOld hNew hr

/-- The loop takes turns, by what the operations really evaluate to, until its queue is empty. -/
theorem iterateQueue_run (hm : m.Lawful) (steps : Nat) (hw : w.Going pos defs)
    (hSteps : w.measure m defs ≤ steps) : ∃ ws, (w :: ws).IsChain (Turn m pos eval) ∧
      (w :: ws).getLast? = some ⟨[], iterateQueue m pos steps w.queue w.graph⟩ := by
  induction steps generalizing w with
  | zero =>
    obtain ⟨queue, g⟩ := w
    have hEmpty : queue = [] := List.length_eq_zero_iff.mp (by
      simp only [Worklist.measure] at hSteps
      omega)
    subst hEmpty
    exact ⟨[], .singleton _, rfl⟩
  | succ steps ih =>
    obtain ⟨queue, g⟩ := w
    cases queue with
    | nil => exact ⟨[], .singleton _, rfl⟩
    | cons o queue =>
      obtain ⟨w', hTurn⟩ := exists_turn m eval hw (List.cons_ne_nil o queue)
      obtain ⟨hNext, hLt⟩ := (hw.anyTurn hTurn).step hm hw
      obtain ⟨ws, hRun, hLast⟩ := ih hNext (by omega)
      refine ⟨w' :: ws, List.isChain_cons_cons.mpr ⟨hTurn, hRun⟩, ?_⟩
      rw [List.getLast?_cons_cons, hLast]
      cases hTurn with
      | keep ho hStep => simp only [iterateQueue, ho, hStep]
      | change ho hStep =>
        have hShape (op : Operation) (r : Range) := shape_setRange g op.sink r
        simp only [iterateQueue, ho, hStep, uses_of_shape (hShape _ _), inside_of_shape (hShape _ _)]

/-- Whatever its operations evaluate to, an iteration takes finitely many turns and stops only with an
empty queue; so does the loop itself. -/
structure Halts (m : Meet) (pos : Nat) (w : Worklist) : Prop where
  bounded {ws : List Worklist} : (w :: ws).IsChain (AnyTurn m pos) →
    ws.length ≤ w.graph.stepBound m w.queue
  continues {ws : List Worklist} {w' : Worklist} (e : Graph → Operation → Range) :
    (w :: ws).IsChain (AnyTurn m pos) → (w :: ws).getLast? = some w' → w'.queue ≠ [] →
      ∃ next, Turn m pos e w' next
  empties : ∃ ws, (w :: ws).IsChain (Turn m pos eval) ∧
    (w :: ws).getLast? = some ⟨[], iterate m pos w.queue w.graph⟩

theorem halts_of_lawful (hm : m.Lawful) (hw : w.Going pos w.queue) : Halts m pos w := by
  have hBound : w.graph.stepBound m w.queue = w.measure m w.queue := w.graph.stepBound_eq m w.queue
  refine ⟨fun h => ?_, fun e h hLast hQueue => ?_, ?_⟩
  · rw [hBound]
    exact run_length hm hw h
  · exact exists_turn m e (run_going hm hw h _ (List.mem_of_getLast? hLast)) hQueue
  · exact iterateQueue_run hm _ hw (Nat.le_of_eq hBound.symm)

/-! ### Changes of ranges -/

/-- The steps of a run that change the range of a node in some way. -/
def changes (Q : Range → Range → Prop) [DecidableRel Q] (n : NodeId) (ws : List Worklist) : Nat :=
  steps (fun w w' : Worklist => Q (w.graph.range n) (w'.graph.range n)) ws

/-- If an operator lowers a rank with each change, the rank bounds the changes of a run. -/
theorem changes_le {Q : Range → Range → Prop} [DecidableRel Q] (rank : Range → Nat) (hm : m.Lawful)
    (hw : w.Going pos defs) (h : (w :: ws).IsChain (AnyTurn m pos)) (hSame : ∀ r, ¬ Q r r)
    (hStep : ∀ {s t old new r}, WellFormed s old → WellFormed s new →
      m.step s t old new = some r → rank r + (if Q old r then 1 else 0) ≤ rank old) :
    changes Q n (w :: ws) ≤ rank (w.graph.range n) := by
  refine steps_le (fun w : Worklist => rank (w.graph.range n)) ?_
  refine run_range (P := fun old r => rank r + (if Q old r then 1 else 0) ≤ rank old) hm hw h
    (fun r => ?_) hStep n
  rw [if_neg (hSame r)]
  exact Nat.le_refl _

/-- A side of a range that is not empty stays, or moves to its sentinel. -/
theorem widen_sides {s : Sentinels} {old new r : Range} (hOld : WellFormed s old)
    (hNew : WellFormed s new) (h : widen s old new = some r) : r.isEmpty = false ∧
      (old.isEmpty = false →
        (old.lower = r.lower ∧ r.lowerUnbounded = old.lowerUnbounded ∨
          old.lowerUnbounded = false ∧ r.lowerUnbounded = true) ∧
        (old.upper = r.upper ∧ r.upperUnbounded = old.upperUnbounded ∨
          old.upperUnbounded = false ∧ r.upperUnbounded = true)) := by
  cases hNew with
  | empty => cases h
  | @between l' u' hl' h' hu' =>
    cases hOld with
    | empty =>
      rw [widen_empty rfl] at h
      cases h
      exact ⟨rfl, nofun⟩
    | @between l u hl hle hu =>
      rw [widen_mk hl hle hu hl' hu'] at h
      split at h
      case isTrue => cases h
      case isFalse hNot =>
        cases h
        refine ⟨rfl, fun _ => ?_⟩
        simp only [lowerUnbounded_mk, upperUnbounded_mk, decide_eq_true_eq, decide_eq_false_iff_not]
        constructor <;> split
        · exact .inr ⟨by omega, rfl⟩
        · exact .inl ⟨rfl, rfl⟩
        · exact .inr ⟨by omega, rfl⟩
        · exact .inl ⟨rfl, rfl⟩

/-- A side of a range stays, or moves from its sentinel. -/
theorem narrow_sides {s : Sentinels} {old new r : Range} (hOld : WellFormed s old)
    (hNew : WellFormed s new) (h : narrow s old new = some r) :
    (old.lower = r.lower ∧ r.lowerUnbounded = old.lowerUnbounded ∨
      old.lowerUnbounded = true ∧ r.lowerUnbounded = false) ∧
    (old.upper = r.upper ∧ r.upperUnbounded = old.upperUnbounded ∨
      old.upperUnbounded = true ∧ r.upperUnbounded = false) := by
  cases hOld with
  | empty => cases h
  | @between l u hl hle hu =>
    cases hNew with
    | empty => cases h
    | @between l' u' hl' hle' hu' =>
      rw [narrow_mk] at h
      obtain ⟨rfl, -, -, -⟩ := tightens_update hl hle hu hl' hle' hu' (by split <;> omega)
        (by split <;> omega) h
      simp only [lowerUnbounded_mk, upperUnbounded_mk, decide_eq_true_eq, decide_eq_false_iff_not]
      constructor <;> split
      case left.isTrue hMoved => exact .inr ⟨hMoved.1, hMoved.2⟩
      case left.isFalse => exact .inl ⟨rfl, rfl⟩
      case right.isTrue hMoved => exact .inr ⟨hMoved.1, hMoved.2⟩
      case right.isFalse => exact .inl ⟨rfl, rfl⟩

/-- A range grows from empty once, and then each side moves once. -/
structure WidensSlowly (n : NodeId) (ws : List Worklist) : Prop where
  range : changes (· ≠ ·) n ws ≤ 3
  fromEmpty : changes (fun r r' => r.isEmpty ≠ r'.isEmpty) n ws ≤ 1
  lowerSide : changes (fun r r' => r.isEmpty = false ∧ r.lower ≠ r'.lower) n ws ≤ 1
  upperSide : changes (fun r r' => r.isEmpty = false ∧ r.upper ≠ r'.upper) n ws ≤ 1
  lower : changes (fun r r' => r.lower ≠ r'.lower) n ws ≤ 2
  upper : changes (fun r r' => r.upper ≠ r'.upper) n ws ≤ 2

/-- Each side moves once. -/
structure NarrowsSlowly (n : NodeId) (ws : List Worklist) : Prop where
  lower : changes (fun r r' => r.lower ≠ r'.lower) n ws ≤ 1
  upper : changes (fun r r' => r.upper ≠ r'.upper) n ws ≤ 1

/-- A change takes integers from a range, but not all of them. -/
def CropsSlowly (n : NodeId) (ws : List Worklist) : Prop :=
  ws.IsChain fun w w' =>
    let old := w.graph.range n
    let new := w'.graph.range n
    new ≠ old → new.upper - new.lower < old.upper - old.lower ∧ new.isEmpty = false

section Slowly

variable (hw : w.Going pos defs)
include hw

theorem widensSlowly (h : (w :: ws).IsChain (AnyTurn .widening pos)) (n : NodeId) :
    WidensSlowly n (w :: ws) := by
  have hBound {Q : Range → Range → Prop} [DecidableRel Q] (rank : Range → Nat) {k : Nat}
      (hk : ∀ r, rank r ≤ k) (hSame : ∀ r, ¬ Q r r)
      (hStep : ∀ {s old new r}, WellFormed s old → WellFormed s new → widen s old new = some r →
        rank r + (if Q old r then 1 else 0) ≤ rank old) : changes Q n (w :: ws) ≤ k :=
    (changes_le rank lawful_widening hw h hSame hStep).trans (hk _)
  -- once a range is not empty, a side has rank one until it is unbounded
  have hSide {Q : Range → Range → Prop} [DecidableRel Q] (unbounded : Range → Bool) (start : Nat)
      (hStart : 1 ≤ start) (hSame : ∀ r, ¬ Q r r)
      (hFirst : ∀ {old r}, old.isEmpty = true → Q old r → 2 ≤ start)
      (hMoves : ∀ {s old new r}, WellFormed s old → WellFormed s new → widen s old new = some r →
        old.isEmpty = false → ¬ Q old r ∧ unbounded r = unbounded old ∨
          unbounded old = false ∧ unbounded r = true) : changes Q n (w :: ws) ≤ start := by
    refine hBound (fun r => if r.isEmpty then start else if unbounded r then 0 else 1)
      (fun r => by split_ifs <;> omega) hSame fun {s old new r} hOld hNew hStep => ?_
    obtain ⟨hr, -⟩ := widen_sides hOld hNew hStep
    have hRank : (if unbounded r then 0 else 1) ≤ 1 := by split_ifs <;> omega
    by_cases hEmpty : old.isEmpty = true
    · by_cases hQ : Q old r
      · have hTwo := hFirst hEmpty hQ
        simp only [hr, hEmpty, hQ, Bool.false_eq_true, if_false, if_true]
        omega
      · simp only [hr, hEmpty, hQ, Bool.false_eq_true, if_false, if_true]
        omega
    · rw [Bool.not_eq_true] at hEmpty
      simp only [hr, hEmpty, Bool.false_eq_true, if_false]
      rcases hMoves hOld hNew hStep hEmpty with ⟨hKept, hSame⟩ | ⟨hFrom, hTo⟩
      · rw [if_neg hKept, hSame]
        exact Nat.le_refl _
      · rw [hFrom, hTo]
        by_cases hQ : Q old r <;> simp [hQ]
  exact {
    range := by
      refine hBound Meet.widening.rank (fun r => ?_) (by simp) fun {s old new r} hOld hNew hStep => ?_
      · simp only [Meet.widening]
        split_ifs <;> omega
      · have hLt : Meet.widening.rank r < Meet.widening.rank old :=
          lawful_widening.rank_lt (t := none) hOld hNew hStep
        split_ifs <;> omega
    fromEmpty := by
      refine hBound (fun r => if r.isEmpty then 1 else 0) (fun r => by split_ifs <;> omega) (by simp)
        fun {s old new r} hOld hNew hStep => ?_
      have hr := (widen_sides hOld hNew hStep).1
      simp only [hr]
      cases old.isEmpty <;> simp
    lowerSide := hSide Range.lowerUnbounded 1 (by decide) (by simp) (by simp_all)
      fun hOld hNew hStep hEmpty => by
        simpa [hEmpty] using ((widen_sides hOld hNew hStep).2 hEmpty).1
    upperSide := hSide Range.upperUnbounded 1 (by decide) (by simp) (by simp_all)
      fun hOld hNew hStep hEmpty => by
        simpa [hEmpty] using ((widen_sides hOld hNew hStep).2 hEmpty).2
    lower := hSide Range.lowerUnbounded 2 (by decide) (by simp) (by simp)
      fun hOld hNew hStep hEmpty => by
        simpa using ((widen_sides hOld hNew hStep).2 hEmpty).1
    upper := hSide Range.upperUnbounded 2 (by decide) (by simp) (by simp)
      fun hOld hNew hStep hEmpty => by
        simpa using ((widen_sides hOld hNew hStep).2 hEmpty).2 }

theorem narrowsSlowly (h : (w :: ws).IsChain (AnyTurn .narrowing pos)) (n : NodeId) :
    NarrowsSlowly n (w :: ws) := by
  have hSide {Q : Range → Range → Prop} [DecidableRel Q] (unbounded : Range → Bool)
      (hSame : ∀ r, ¬ Q r r)
      (hMoves : ∀ {s old new r}, WellFormed s old → WellFormed s new → narrow s old new = some r →
        ¬ Q old r ∧ unbounded r = unbounded old ∨ unbounded old = true ∧ unbounded r = false) :
      changes Q n (w :: ws) ≤ 1 := by
    refine (changes_le (fun r => if unbounded r then 1 else 0) tight_narrowing.toLawful hw h hSame
      fun {s t old new r} hOld hNew hStep => ?_).trans (by split_ifs <;> omega)
    rcases hMoves hOld hNew hStep with ⟨hKept, hSide⟩ | ⟨hFrom, hTo⟩
    · rw [if_neg hKept, hSide]
      exact Nat.le_refl _
    · rw [hFrom, hTo]
      by_cases hQ : Q old r <;> simp [hQ]
  refine ⟨hSide Range.lowerUnbounded (by simp) fun hOld hNew hStep => ?_,
    hSide Range.upperUnbounded (by simp) fun hOld hNew hStep => ?_⟩
  · rw [not_not]
    exact (narrow_sides hOld hNew hStep).1
  · rw [not_not]
    exact (narrow_sides hOld hNew hStep).2

theorem cropsSlowly (h : (w :: ws).IsChain (AnyTurn .cropping pos)) (n : NodeId) :
    CropsSlowly n (w :: ws) := by
  refine run_range (P := fun old new => new ≠ old →
    new.upper - new.lower < old.upper - old.lower ∧ new.isEmpty = false)
    tight_cropping.toLawful hw h (fun r hr => absurd rfl hr) (fun hOld hNew hStep _ => ?_) n
  have hRank := tight_cropping.rank_lt hOld hNew hStep
  simp only [Meet.cropping] at hRank
  exact ⟨by omega, (tight_cropping.tightens hOld hNew hStep).nonempty⟩

end Slowly

/-! ### Components -/

/-- The state in which the widening of a component starts. -/
def Task.toWiden (t : Task) (g : Graph) : Worklist :=
  ⟨(t.discovered g).definitions t.comp, t.discovered g⟩

/-- The state in which the narrowing of a component starts. -/
def Task.toNarrow (t : Task) (g : Graph) : Worklist :=
  ⟨(t.fixed g).definitions t.comp, t.fixed g⟩

namespace Task.Runs

variable {t : Task} {cs : Components}

theorem going_toWiden (ht : t.Runs cs g) : (t.toWiden g).Going t.pos (t.toWiden g).queue := by
  have hArea := (ht.layout.of_shape (shape_record t.pos t.comp .discovered g)).area ht.mem
  exact ⟨hArea, ht.regular_discovered, hArea.nodup, id⟩

theorem going_toNarrow (ht : t.Runs cs g) : (t.toNarrow g).Going t.pos (t.toNarrow g).queue := by
  have hArea := (ht.layout.of_shape (t.shape_fixed g)).area ht.mem
  exact ⟨hArea, ht.regular_fixed, hArea.nodup, id⟩

end Task.Runs

/-- Solving ends. Each component is widened and narrowed in finitely many turns, whatever its
operations evaluate to, and each turn that changes a range uses up some of the changes that the node
has. -/
theorem solve_terminates (hg : Unstarted g)
    (hNarrowing : g.narrowing = .cousot ∨ g.narrowing = .crop) :
    ∃ m cs, meetOf g.narrowing = .ok m ∧ g.seed.findComponents = .ok cs ∧
      solve.run.run g =
        (.ok (), { before m cs (g.begun cs) cs.members.size with solved := true }) ∧
      ∀ k < cs.members.size,
        let toWiden := (taskOf m cs k).toWiden (before m cs (g.begun cs) k)
        let toNarrow := (taskOf m cs k).toNarrow (before m cs (g.begun cs) k)
        Halts .widening k toWiden ∧ Halts m k toNarrow ∧
        (∀ ws n, (toWiden :: ws).IsChain (AnyTurn .widening k) →
          WidensSlowly n (toWiden :: ws)) ∧
        ∀ ws n, (toNarrow :: ws).IsChain (AnyTurn m k) →
          (g.narrowing = .cousot → NarrowsSlowly n (toNarrow :: ws)) ∧
          (g.narrowing = .crop → CropsSlowly n (toNarrow :: ws)) := by
  obtain ⟨m, hMeet, hm⟩ := exists_tight hNarrowing
  obtain ⟨cs, hFind, hLayout⟩ := hg.wired.layout_begun hg.started
  have hRegular : Regular (g.begun cs) := ⟨(regular_seed hg.started).range⟩
  refine ⟨m, cs, hMeet, hFind, solve_eq hg.solved hFind hMeet, fun k hk => ?_⟩
  have ht := runs_before hLayout hRegular hm hk
  refine ⟨halts_of_lawful lawful_widening ht.going_toWiden,
    halts_of_lawful hm.toLawful ht.going_toNarrow,
    fun ws n h => widensSlowly ht.going_toWiden h n, fun ws n h => ⟨fun hCousot => ?_, fun hCrop => ?_⟩⟩
  · rw [hCousot] at hMeet
    cases hMeet
    exact narrowsSlowly ht.going_toNarrow h n
  · rw [hCrop] at hMeet
    cases hMeet
    exact cropsSlowly ht.going_toNarrow h n

/-- The components of the loop are cropped to the end. -/
theorem looping_terminates : looping.narrowing = .crop ∧
    ∃ cs, looping.seed.findComponents = .ok cs ∧ ∀ k < cs.members.size,
      Halts .cropping k
        ((taskOf .cropping cs k).toNarrow (before .cropping cs (looping.begun cs) k)) := by
  have hCrop : looping.narrowing = .crop := by decide +kernel
  obtain ⟨m, cs, hMeet, hFind, -, hHalts⟩ := solve_terminates looping_unstarted (.inr hCrop)
  rw [hCrop] at hMeet
  cases hMeet
  exact ⟨hCrop, cs, hFind, fun k hk => (hHalts k hk).2.1⟩

end Graph

end ValueRange
