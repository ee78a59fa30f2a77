import ValueRange.Proofs.Graph.Building
import ValueRange.Proofs.Program.Linkage
import ValueRange.Proofs.Range.Lattice
import ValueRange.Proofs.Range.Soundness

/-! What branches tell. A valuation of the values decides which block a terminator transfers control
to. On the only edge into a block, all that is recorded about a value for that block is true of its
valuation. -/

namespace ValueRange

open Range

variable {p : Program} {ρ : ValueId → Int} {v : ValueId}

/-- The terminator transfers control to the block, if values are as `ρ` says. The first case of a
switch that fits is taken, and every target of a branch may be. -/
def Terminator.Takes (ρ : ValueId → Int) : Terminator → BlockId → Prop
  | jump target, b => b = target
  | test (.known c) (some x) (some y) yes no, b =>
    c.Holds (ρ x) (ρ y) ∧ b = yes ∨ ¬ c.Holds (ρ x) (ρ y) ∧ b = no
  | switch (some on) cases otherwise, b =>
    b = ((cases.find? fun c => c.1 == ρ on).map (·.2)).getD otherwise
  | branch targets, b => b ∈ targets
  | _, _ => False

/-- The fact is true of a value. -/
def Fact.Holds (ρ : ValueId → Int) (v : ValueId) : Fact → Prop
  | within r => r.Admits (ρ v)
  | against c bound => c.Holds (ρ v) (ρ bound)

/-- Constants have their values, and copies and sign extensions those of their operands. -/
structure Program.Respects (p : Program) (ρ : ValueId → Int) : Prop where
  const {v : ValueId} {n : Int} : (p.value v).const = some n → ρ v = n
  copy {s : Site} {i : Instr} {v a : ValueId} : p.instr? s = some i → i.result = some v →
    i.op = .unary .copy ∨ i.op = .unary .sext → i.args = [some a] → ρ v = ρ a

namespace Range

variable {s : Sentinels} {r o : Range} {n : Int}

theorem singleton_admits (s : Sentinels) (n : Int) : (s.singleton n).Admits n :=
  interval_admits (Int.le_refl n) (Int.le_refl n)

/-- A range that holds another one admits what that admits. -/
theorem Admits.mono (hr : WellFormed s r) (ho : WellFormed s o) (h : r ⊆ o) (hn : r.Admits n) :
    o.Admits n := by
  rcases h with h | ⟨he, hl, hu⟩
  · rw [hn.1] at h
    cases h
  · have hLow := ho.negInf_le
    have hHigh := ho.le_posInf
    have hSame := hr.sentinels_eq
    obtain ⟨-, hLower, hUpper⟩ := hn
    rw [hSame] at hLower hUpper
    rw [Admits, ho.sentinels_eq]
    exact ⟨he, by omega, by omega⟩

end Range

namespace Graph

section Cases

variable {s : Sentinels} {cases done : List (Int × BlockId)} {otherwise : BlockId}
variable {acc : List (BlockId × Range)}

theorem lookup_map_replace (k b : BlockId) (r : Range) (acc : List (BlockId × Range)) :
    (acc.map fun e => if e.1 = k then (e.1, r) else e).lookup b =
      if b = k then (acc.lookup b).map fun _ => r else acc.lookup b := by
  induction acc with
  | nil => simp
  | cons e acc ih =>
    obtain ⟨d, q⟩ := e
    by_cases hd : d = k
    · by_cases hb : b = d
      · simp [hd, hb]
      · simp [List.lookup_cons, ih, hd, beq_eq_false_iff_ne.mpr (hd ▸ hb)]
    · by_cases hb : b = d
      · simp [hd, hb]
      · simp [List.lookup_cons, ih, hd, beq_eq_false_iff_ne.mpr hb]

/-- The ranges so far are those of the cases that are done: a target of some case has a range that
admits the integers of its cases, unless it is also taken otherwise. -/
structure CaseTable (s : Sentinels) (otherwise : BlockId) (done : List (Int × BlockId))
    (acc : List (BlockId × Range)) : Prop where
  found {b : BlockId} {r : Range} : acc.lookup b = some r → b ≠ otherwise ∧ WellFormed s r ∧
    (∃ n, (n, b) ∈ done) ∧ ∀ n, (n, b) ∈ done → r.Admits n
  absent {b : BlockId} : acc.lookup b = none → b ≠ otherwise → ∀ n, (n, b) ∉ done

/-- One more case. -/
theorem CaseTable.add (h : CaseTable s otherwise done acc) (n : Int) (target : BlockId) :
    CaseTable s otherwise (done ++ [(n, target)])
      (if target = otherwise then acc
      else match acc.lookup target with
        | some r => acc.map fun e => if e.1 = target then (e.1, r.union (s.singleton n)) else e
        | none => acc ++ [(target, s.singleton n)]) := by
  have hSingle : WellFormed s (s.singleton n) := WellFormed.interval s n n
  have hOther {b : BlockId} (hb : b ≠ target) (k : Int) :
      (k, b) ∈ done ++ [(n, target)] ↔ (k, b) ∈ done := by
    simp [hb]
  have hSame (k : Int) : (k, target) ∈ done ++ [(n, target)] ↔ (k, target) ∈ done ∨ k = n := by
    simp
  by_cases ho : target = otherwise
  · rw [if_pos ho]
    refine ⟨fun {b r} hb => ?_, fun {b} hb hne k => ?_⟩
    · have hFound := h.found hb
      have hne : b ≠ target := ho ▸ hFound.1
      simpa only [hOther hne] using hFound
    · rw [hOther (ho ▸ hne)]
      exact h.absent hb hne k
  rw [if_neg ho]
  cases hTarget : acc.lookup target with
  | some q =>
    obtain ⟨-, hq, -, hAdmits⟩ := h.found hTarget
    dsimp only
    refine ⟨fun {b r} hb => ?_, fun {b} hb hne k => ?_⟩
    · rw [lookup_map_replace] at hb
      split at hb
      case isTrue hEq =>
        subst hEq
        rw [hTarget, Option.map_some, Option.some.injEq] at hb
        subst hb
        refine ⟨ho, hq.union hSingle, ⟨n, (hSame n).mpr (.inr rfl)⟩, fun k hk => ?_⟩
        rcases (hSame k).mp hk with hk | rfl
        · exact (hAdmits k hk).mono hq (hq.union hSingle) (subset_union_left hq _)
        · exact (singleton_admits s k).mono hSingle (hq.union hSingle) (subset_union_right hq hSingle)
      case isFalse hEq => simpa only [hOther hEq] using h.found hb
    · rw [lookup_map_replace] at hb
      split at hb
      case isTrue hEq =>
        subst hEq
        rw [hTarget] at hb
        cases hb
      case isFalse hEq =>
        rw [hOther hEq]
        exact h.absent hb hne k
  | none =>
    dsimp only
    refine ⟨fun {b r} hb => ?_, fun {b} hb hne k => ?_⟩
    · rw [List.lookup_append, Option.or_eq_some_iff] at hb
      rcases hb with hb | ⟨-, hb⟩
      · have hEq : b ≠ target := by
          rintro rfl
          rw [hTarget] at hb
          cases hb
        simpa only [hOther hEq] using h.found hb
      · rw [List.lookup_cons] at hb
        split at hb
        case h_1 hEq =>
          obtain rfl := beq_iff_eq.mp hEq
          cases hb
          refine ⟨ho, hSingle, ⟨n, (hSame n).mpr (.inr rfl)⟩, fun k hk => ?_⟩
          rcases (hSame k).mp hk with hk | rfl
          · exact absurd hk (h.absent hTarget ho k)
          · exact singleton_admits s k
        case h_2 => cases hb
    · rw [List.lookup_append, Option.or_eq_none_iff] at hb
      have hEq : b ≠ target := by
        rintro rfl
        simp at hb
      rw [hOther hEq]
      exact h.absent hb.1 hne k

theorem caseTable_caseRanges (s : Sentinels) (cases : List (Int × BlockId)) (otherwise : BlockId) :
    CaseTable s otherwise cases (caseRanges s cases otherwise) := by
  have hFold (acc : List (BlockId × Range)) (done : List (Int × BlockId))
      (h : CaseTable s otherwise done acc) : CaseTable s otherwise (done ++ cases)
        (cases.foldl (fun acc c =>
          if c.2 = otherwise then acc
          else match acc.lookup c.2 with
            | some r => acc.map fun e => if e.1 = c.2 then (e.1, r.union (s.singleton c.1)) else e
            | none => acc ++ [(c.2, s.singleton c.1)]) acc) := by
    induction cases generalizing acc done with
    | nil => simpa using h
    | cons c cases ih =>
      rw [List.foldl_cons, List.append_cons]
      exact ih _ _ (h.add c.1 c.2)
  exact hFold [] [] ⟨nofun, fun _ _ _ => List.not_mem_nil⟩

/-- The case that a switch takes is admitted by the range of its target. -/
theorem caseRanges_admits {b : BlockId} {r : Range} {on : ValueId}
    (hb : (caseRanges s cases otherwise).lookup b = some r) :
    b ∈ (Terminator.switch (some on) cases otherwise).successors ∧
      ((Terminator.switch (some on) cases otherwise).Takes ρ b → r.Admits (ρ on)) := by
  obtain ⟨hne, -, ⟨n, hn⟩, hAdmits⟩ := (caseTable_caseRanges s cases otherwise).found hb
  refine ⟨List.mem_append_left _ (List.mem_map.mpr ⟨(n, b), hn, rfl⟩), fun hTakes => ?_⟩
  change b = ((cases.find? fun c => c.1 == ρ on).map (·.2)).getD otherwise at hTakes
  cases hFind : cases.find? fun c => c.1 == ρ on with
  | none =>
    rw [hFind] at hTakes
    exact absurd hTakes hne
  | some c =>
    rw [hFind] at hTakes
    obtain ⟨k, target⟩ := c
    obtain rfl : b = target := hTakes
    have hk := List.find?_some hFind
    rw [← beq_iff_eq.mp hk]
    exact hAdmits k (List.mem_of_find?_eq_some hFind)

end Cases

/-! ### Tests -/

/-- What a test of `v` against `y` tells about `v` is true on the edge that the test takes. -/
theorem factOf_holds (hρ : p.Respects ρ) {s : Sentinels} {pred : Predicate} {y : ValueId}
    {yes no : BlockId} {f : BranchFact} (h : factOf p s pred y yes no = .ok f) (v : ValueId) :
    ∃ c, pred = .known c ∧ f.yes = yes ∧ f.no = no ∧
      (c.Holds (ρ v) (ρ y) → f.onYes.Holds ρ v) ∧ (¬ c.Holds (ρ v) (ρ y) → f.onNo.Holds ρ v) := by
  unfold factOf at h
  split at h
  case h_1 c n hConst =>
    cases h
    have hRegion {c : Comparison} (hc : c.Holds (ρ v) (ρ y)) :
        (region s c (s.singleton n)).Admits (ρ v) :=
      region_admits (WellFormed.interval s n n).sentinels_eq (singleton_admits s n)
        (hρ.const hConst ▸ hc)
    exact ⟨c, rfl, rfl, rfl, hRegion, fun hc => hRegion ((c.holds_negate _ _).mpr hc)⟩
  case h_2 c _ =>
    cases h
    exact ⟨c, rfl, rfl, rfl, fun hc => hc, (c.holds_negate _ _).mpr⟩
  case h_3 => cases h
  case h_4 => cases h

/-- The fact comes from a terminator, and is true on the edges that this takes. -/
def Told (p : Program) (ρ : ValueId → Int) (v : ValueId) (tells : BlockId → Option Fact) : Prop :=
  ∃ q t, (p.block q).term = some t ∧ ∀ b fact, tells b = some fact →
    b ∈ t.successors ∧ (t.Takes ρ b → fact.Holds ρ v)

theorem Told.of_eq {w : ValueId} {tells : BlockId → Option Fact} (h : Told p ρ v tells)
    (hEq : ρ v = ρ w) : Told p ρ w tells := by
  obtain ⟨q, t, ht, hTells⟩ := h
  refine ⟨q, t, ht, fun b fact hFact => ⟨(hTells b fact hFact).1, fun hTakes => ?_⟩⟩
  have hHolds := (hTells b fact hFact).2 hTakes
  cases fact <;> simpa only [Fact.Holds, hEq] using hHolds

/-- The facts about the first operand of a test. -/
theorem told_first (hρ : p.Respects ρ) {q yes no : BlockId} {s : Sentinels} {c : Comparison}
    {x y : ValueId} (ht : (p.block q).term = some (.test (.known c) (some x) (some y) yes no))
    (hne : yes ≠ no) {pred : Predicate} {f : BranchFact} {u w : ValueId}
    (hf : factOf p s pred w yes no = .ok f)
    (hSame : ∀ d, pred = .known d → (d.Holds (ρ u) (ρ w) ↔ c.Holds (ρ x) (ρ y))) :
    Told p ρ u (BranchFact.at? f) := by
  obtain ⟨d, rfl, rfl, rfl, hYes, hNo⟩ := factOf_holds hρ hf u
  have hIff := hSame d rfl
  refine ⟨q, _, ht, fun b fact hFact => ?_⟩
  unfold BranchFact.at? at hFact
  split at hFact
  case isTrue hb =>
    cases hFact
    subst hb
    refine ⟨List.mem_cons_self, fun hTakes => ?_⟩
    rcases hTakes with ⟨hc, -⟩ | ⟨-, hb⟩
    · exact hYes (hIff.mpr hc)
    · exact absurd hb hne
  case isFalse hb =>
    split at hFact
    case isTrue hb' =>
      cases hFact
      subst hb'
      refine ⟨List.mem_cons_of_mem _ List.mem_cons_self, fun hTakes => ?_⟩
      rcases hTakes with ⟨-, hb'⟩ | ⟨hc, -⟩
      · exact absurd hb' hb
      · exact hNo fun h => hc (hIff.mp h)
    case isFalse => cases hFact

/-! ### What is recorded -/

/-- All that the graph has recorded is told by some terminator. -/
structure Truthful (p : Program) (ρ : ValueId → Int) (g : Graph) : Prop where
  branch {v : ValueId} {f : BranchFact} : (v, f) ∈ g.branches → Told p ρ v (BranchFact.at? f)
  switch {v : ValueId} {f : SwitchFact} : (v, f) ∈ g.switches →
    Told p ρ v fun b => (f.cases.lookup b).map .within

/-- However an action ends, it keeps an invariant. -/
def Keeps {α : Type} (I : Graph → Prop) (x : GraphM α) : Prop := ∀ g, I g → I (x.run.run g).2

namespace Keeps

variable {α β : Type} {I : Graph → Prop} {x : GraphM α} {f : α → GraphM β}

theorem pure (a : α) : Keeps I (Pure.pure a : GraphM α) := fun _ h => h

theorem throw (e : Fault) : Keeps I (MonadExcept.throw e : GraphM α) := fun _ h => h

theorem modify {step : Graph → Graph} (h : ∀ g, I g → I (step g)) :
    Keeps I (modify step : GraphM Unit) := h

theorem bind (hx : Keeps I x) (hf : ∀ a, Keeps I (f a)) : Keeps I (x >>= f) := by
  intro g hg
  have hNext := hx g hg
  rw [run_bind]
  split
  · rename_i a g' hRun
    rw [hRun] at hNext
    exact hf a g' hNext
  · rename_i e g' hRun
    rw [hRun] at hNext
    exact hNext

theorem lift_bind {e : Except Fault α} (hf : ∀ a, e = .ok a → Keeps I (f a)) :
    Keeps I ((liftM e : GraphM α) >>= f) := by
  intro g hg
  rw [run_bind, run_lift]
  cases e with
  | ok a => exact hf a rfl g hg
  | error _ => exact hg

theorem get_bind {f : Graph → GraphM β} (hf : ∀ g, I g → Keeps I (f g)) :
    Keeps I (get >>= f) := by
  intro g hg
  rw [run_get_bind]
  exact hf g hg g hg

/-- An action followed by one that changes nothing. -/
theorem andThen {f : α → β} (hx : Keeps I x) : Keeps I (x >>= fun a => Pure.pure (f a)) :=
  bind hx fun _ => pure _

theorem mapM {xs : List α} (hf : ∀ a, Keeps I (f a)) : Keeps I (xs.mapM f) := by
  induction xs with
  | nil =>
    rw [List.mapM_nil]
    exact pure _
  | cons x xs ih =>
    rw [List.mapM_cons]
    exact bind (hf x) fun _ => ih.andThen

theorem forIn {xs : List α} {f : α → PUnit → GraphM (ForInStep PUnit)}
    (h : ∀ x ∈ xs, Keeps I (f x ⟨⟩)) : Keeps I (ForIn.forIn xs PUnit.unit f) := by
  induction xs with
  | nil => exact pure _
  | cons x xs ih =>
    rw [List.forIn_cons]
    refine bind (h x List.mem_cons_self) fun step => ?_
    cases step with
    | done _ => exact pure _
    | yield _ => exact ih fun y hy => h y (List.mem_cons_of_mem x hy)

theorem forInArray {xs : Array α} {f : α → PUnit → GraphM (ForInStep PUnit)}
    (h : ∀ x ∈ xs, Keeps I (f x ⟨⟩)) : Keeps I (ForIn.forIn xs PUnit.unit f) := by
  rw [← Array.forIn_toList]
  exact forIn fun x hx => h x (Array.mem_toList_iff.mp hx)

theorem forM {xs : List α} {f : α → GraphM PUnit} (h : ∀ x ∈ xs, Keeps I (f x)) :
    Keeps I (xs.forM f) := by
  induction xs with
  | nil => exact pure _
  | cons x xs ih =>
    exact bind (h x List.mem_cons_self) fun _ => ih fun y hy => h y (List.mem_cons_of_mem x hy)

/-- A fact is recorded for a value, and for what the value copies or extends. -/
theorem addFact {f : BranchFact}
    (hSelf : ∀ g, I g → I { g with branches := g.branches.push (v, f) })
    (hSource : ∀ {op : UnaryOp} {src : ValueId},
      ((p.value v).site.bind p.instr?).map (fun i => (i.op, i.args)) =
        some (.unary op, [some src]) → op = .copy ∨ op = .sext →
      ∀ g, I g → I { g with branches := g.branches.push (src, f) }) :
    Keeps I (addFact p v f) := by
  unfold Graph.addFact
  refine bind (modify hSelf) fun _ => ?_
  split
  · split
    · exact throw _
    · split
      · exact modify (hSource ‹_› (.inl rfl))
      · exact pure _
  · split
    · exact throw _
    · split
      · exact modify (hSource ‹_› (.inr rfl))
      · exact pure _
  · exact pure _

/-- A test of two values records a fact about the first, and one about the second with the
comparison turned around. -/
theorem addTest {pred : Predicate} {x y : Option ValueId} {yes no : BlockId}
    (hFirst : ∀ g, I g → ∀ x' y' f, x = some x' → y = some y' → yes ≠ no →
      factOf p g.sentinels pred y' yes no = .ok f → Keeps I (Graph.addFact p x' f))
    (hSecond : ∀ g, I g → ∀ x' y' flipped f, x = some x' → y = some y' → yes ≠ no →
      pred.flip = .ok flipped → factOf p g.sentinels (.known flipped) x' yes no = .ok f →
      Keeps I (Graph.addFact p y' f)) :
    Keeps I (addTest p pred x y yes no) := by
  unfold Graph.addTest
  cases x with
  | none => exact throw _
  | some x =>
    dsimp only
    split
    · exact pure _
    cases y with
    | none => exact throw _
    | some y =>
      dsimp only
      split
      · exact pure _
      rename_i hTracked
      have hne : yes ≠ no := by
        rintro rfl
        simp at hTracked
      refine get_bind fun g hg => ?_
      have hSecond : Keeps I
          (if !(p.value y).const.isSome then do
            let flipped ← liftM pred.flip
            Graph.addFact p y (← liftM (factOf p g.sentinels (.known flipped) x yes no))
          else Pure.pure ()) := by
        split
        · exact lift_bind fun flipped hFlip => lift_bind fun f hf =>
            hSecond g hg x y flipped f rfl rfl hne hFlip hf
        · exact pure _
      split
      · exact pure _
      · split
        · exact lift_bind fun f hf =>
            bind (hFirst g hg x y f rfl rfl hne hf) fun _ => hSecond
        · exact hSecond

end Keeps

theorem Truthful.push {g : Graph} {f : BranchFact} (hg : Truthful p ρ g)
    (hf : Told p ρ v (BranchFact.at? f)) :
    Truthful p ρ { g with branches := g.branches.push (v, f) } := by
  refine ⟨fun hMem => ?_, hg.switch⟩
  rcases Array.mem_push.mp hMem with hMem | hMem
  · exact hg.branch hMem
  · cases hMem
    exact hf

section Recording

variable (hp : p.Linked) (hρ : p.Respects ρ)
include hp hρ

/-- The fact is passed on to what a copy or a sign extension copies. -/
theorem keeps_addFact {f : BranchFact} (hf : Told p ρ v (BranchFact.at? f)) :
    Keeps (Truthful p ρ) (addFact p v f) := by
  refine Keeps.addFact (fun g hg => hg.push hf) fun {op src} h hOp g hg => hg.push ?_
  obtain ⟨i, hi, hPair⟩ := Option.map_eq_some_iff.mp h
  obtain ⟨s, hs, hInstr⟩ := Option.bind_eq_some_iff.mp hi
  obtain ⟨x, hx, hSite⟩ : ∃ x, p.values[v]? = some x ∧ x.site = some s := by
    rw [Program.value, Array.getD_eq_getD_getElem?] at hs
    cases hx : p.values[v]? with
    | none =>
      rw [hx] at hs
      cases hs
    | some x =>
      rw [hx] at hs
      exact ⟨x, rfl, hs⟩
  obtain ⟨i', hi', hResult⟩ := hp.site hx hSite
  cases hInstr.symm.trans hi'
  rw [Prod.mk.injEq] at hPair
  refine hf.of_eq (hρ.copy hInstr hResult ?_ hPair.2)
  rcases hOp with rfl | rfl
  · exact .inl hPair.1
  · exact .inr hPair.1

theorem keeps_addTest {q : BlockId} {pred : Predicate} {x y : Option ValueId} {yes no : BlockId}
    (ht : (p.block q).term = some (.test pred x y yes no)) :
    Keeps (Truthful p ρ) (addTest p pred x y yes no) := by
  refine Keeps.addTest (fun g _ x' y' f hx hy hne hf => ?_)
    fun g _ x' y' flipped f hx hy hne hFlip hf => ?_
  · subst hx hy
    cases pred with
    | other code =>
      obtain ⟨c, hc, -⟩ := factOf_holds hρ hf x'
      cases hc
    | known c =>
      refine keeps_addFact hp hρ (told_first hρ ht hne hf fun d hd => ?_)
      cases hd
      exact Iff.rfl
  · subst hx hy
    cases pred with
    | other code => cases hFlip
    | known c =>
      cases hFlip
      refine keeps_addFact hp hρ (told_first hρ ht hne hf fun d hd => ?_)
      cases hd
      exact c.holds_flip _ _

theorem keeps_addBranch (q : BlockId) : Keeps (Truthful p ρ) (addBranch p q) := by
  unfold addBranch
  split
  case h_1 ht => exact keeps_addTest hp hρ ht
  case h_2 on cases otherwise ht =>
    cases on with
    | none => exact Keeps.throw _
    | some on =>
      dsimp only
      split
      · refine Keeps.modify fun g hg => ⟨hg.branch, fun {v f} hMem => ?_⟩
        rcases Array.mem_push.mp hMem with hMem | hMem
        · exact hg.switch hMem
        · cases hMem
          refine ⟨q, _, ht, fun b fact hFact => ?_⟩
          obtain ⟨r, hr, rfl⟩ := Option.map_eq_some_iff.mp hFact
          exact caseRanges_admits hr
      · exact Keeps.pure _
  case h_3 => exact Keeps.pure _

end Recording

/-- What the graph tells about a value in a block was recorded for a test or a switch. -/
theorem recorded_of_factAt? {g : Graph} {b : BlockId} {fact : Fact}
    (h : g.factAt? v b = some fact) :
    (∃ f, (v, f) ∈ g.branches ∧ BranchFact.at? f b = some fact) ∨
      ∃ f : SwitchFact, (v, f) ∈ g.switches ∧ (f.cases.lookup b).map .within = some fact := by
  unfold Graph.factAt? at h
  split at h
  case h_1 hFind =>
    cases h
    obtain ⟨f, hf, hAt⟩ := List.exists_of_findSome?_eq_some hFind
    obtain ⟨e, he, rfl⟩ := List.mem_map.mp hf
    obtain ⟨hMem, hv⟩ := List.mem_filter.mp he
    obtain rfl := beq_iff_eq.mp hv
    exact .inl ⟨e.2, Array.mem_toList_iff.mp hMem, hAt⟩
  case h_2 =>
    obtain ⟨f, hf, hAt⟩ := List.exists_of_findSome?_eq_some h
    obtain ⟨e, he, rfl⟩ := List.mem_map.mp hf
    obtain ⟨hMem, hv⟩ := List.mem_filter.mp he
    obtain rfl := beq_iff_eq.mp hv
    exact .inr ⟨e.2, Array.mem_toList_iff.mp hMem, hAt⟩

/-- What the graph tells about a value in a block is told by a terminator that leads there. -/
theorem Truthful.factAt? {g : Graph} {b : BlockId} {fact : Fact} (hg : Truthful p ρ g)
    (h : g.factAt? v b = some fact) : ∃ q t, (p.block q).term = some t ∧ b ∈ t.successors ∧
      (t.Takes ρ b → fact.Holds ρ v) := by
  rcases recorded_of_factAt? h with ⟨f, hMem, hAt⟩ | ⟨f, hMem, hAt⟩
  · obtain ⟨q, t, ht, hTells⟩ := hg.branch hMem
    exact ⟨q, t, ht, hTells b fact hAt⟩
  · obtain ⟨q, t, ht, hTells⟩ := hg.switch hMem
    exact ⟨q, t, ht, hTells b fact hAt⟩

/-- Once the branches of a function are recorded, what is told about a value in a block with one
predecessor is true whenever the terminator of that predecessor transfers control to the block. -/
theorem recorded_fact_holds (hp : p.Constructed) (hρ : p.Respects ρ) (f : FuncId) (s : Sentinels)
    (o : Options) {q b : BlockId} {t : Terminator} (hPreds : (p.block b).preds = [q])
    (ht : (p.block q).term = some t) (hTakes : t.Takes ρ b) {fact : Fact}
    (hFact : (((p.func f).blocks.toList.forM (addBranch p)).run.run (empty s o)).2.factAt? v b =
      some fact) : fact.Holds ρ v := by
  have hKeeps : Keeps (Truthful p ρ) ((p.func f).blocks.toList.forM (addBranch p)) :=
    Keeps.forM fun q _ => keeps_addBranch hp.linked hρ q
  have hTruthful := hKeeps (empty s o) ⟨fun h => absurd h (Array.not_mem_empty _),
    fun h => absurd h (Array.not_mem_empty _)⟩
  obtain ⟨q', t', ht', hSucc, hHolds⟩ := hTruthful.factAt? hFact
  -- the terminator that tells the fact leads to the block, so it is the one of its predecessor
  have hPred : q' ∈ (p.block b).preds := hp.linked.preds (hp.linked.succs ht' hSucc)
  rw [hPreds, List.mem_singleton] at hPred
  subst hPred
  cases ht.symm.trans ht'
  exact hHolds hTakes

/-- Where all constants are the same integer, all values may be. -/
theorem respects_const {n : Int} (h : p.values.all fun x => x.const.all (· == n)) :
    p.Respects fun _ => n := by
  refine ⟨fun {v k} hConst => ?_, fun _ _ _ _ => rfl⟩
  rw [Program.value, Array.getD_eq_getD_getElem?] at hConst
  cases hx : p.values[v]? with
  | none =>
    rw [hx] at hConst
    cases hConst
  | some x =>
    rw [hx] at hConst
    have hAll := Array.all_eq_true'.mp h x (Array.mem_of_getElem? hx)
    rw [show x.const = some k from hConst, Option.all_some, beq_iff_eq] at hAll
    exact hAll.symm

theorem guarded_respects : Program.guarded.Respects fun _ => 10 := respects_const (by decide +kernel)

/-- In the block that is taken from ten on, the parameter lies from ten on, since it was copied. -/
theorem guarded_recorded_fact_holds : ∃ fact,
    (((Program.guarded.func 0).blocks.toList.forM (addBranch Program.guarded)).run.run
      (empty (.ofWidth 8) ⟨.cousot, 8, false⟩)).2.factAt? 0 2 = some fact ∧
    fact = .within (Sentinels.interval (.ofWidth 8) 10 127) ∧ fact.Holds (fun _ => 10) 0 := by
  refine ⟨.within (Sentinels.interval (.ofWidth 8) 10 127), ?_, rfl, ?_⟩
  · decide +kernel
  · exact recorded_fact_holds Program.guarded_constructed guarded_respects 0 (.ofWidth 8)
      ⟨.cousot, 8, false⟩ (q := 0) (b := 2) (t := .test (.known .slt) (some 2) (some 1) 1 2)
      (by decide +kernel) (by decide +kernel) (.inr ⟨Int.lt_irrefl 10, rfl⟩) (by decide +kernel)

end Graph

end ValueRange
