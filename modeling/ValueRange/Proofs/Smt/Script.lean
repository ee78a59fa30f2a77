import Mathlib.Data.List.Perm.Subperm
import ValueRange.Proofs.Program.Completeness
import ValueRange.Smt.Script

/-! Scripts of accepted programs. Nothing that a constraint needs is missing, and since constraints
refer only to values of the program, the depth to which definitions are followed never runs out. -/

namespace ValueRange.Smt

open Program

/-! ### References -/

mutual

/-- All references of the term satisfy `P`. -/
def Term.All (P : ValueId → Prop) : Term → Prop
  | .conj terms => Term.AllOf P terms
  | .disj terms => Term.AllOf P terms
  | .ref v => P v
  | .apply _ x y => x.All P ∧ y.All P
  | .literal _ => True
  | .name _ => True
  | .truth => True

/-- All references of the terms satisfy `P`. -/
def Term.AllOf (P : ValueId → Prop) : List Term → Prop
  | [] => True
  | t :: ts => t.All P ∧ Term.AllOf P ts

end

theorem Term.allOf_iff {P : ValueId → Prop} {ts : List Term} :
    Term.AllOf P ts ↔ ∀ t ∈ ts, t.All P := by
  induction ts with
  | nil => exact ⟨fun _ => nofun, fun _ => trivial⟩
  | cons t ts ih => rw [Term.AllOf, ih, List.forall_mem_cons]

/-- The term refers only to values of the program. -/
def Term.Within (p : Program) (t : Term) : Prop := t.All (· < p.values.size)

/-! ### Success -/

/-- The computation has a result, which satisfies `Q`. -/
def Gives {α : Type} (x : Except Fault α) (Q : α → Prop) : Prop := ∃ a, x = .ok a ∧ Q a

namespace Gives

variable {α β : Type} {x : Except Fault α} {f : α → Except Fault β} {Q : α → Prop} {R : β → Prop}

theorem pure {a : α} (h : Q a) : Gives (Pure.pure a) Q := ⟨a, rfl, h⟩

theorem bind (hx : Gives x Q) (hf : ∀ a, Q a → Gives (f a) R) : Gives (x >>= f) R := by
  obtain ⟨a, rfl, ha⟩ := hx
  exact hf a ha

theorem mapM {xs : List α} (h : ∀ x ∈ xs, Gives (f x) R) :
    Gives (xs.mapM f) fun bs => ∀ b ∈ bs, R b := by
  induction xs with
  | nil =>
    rw [List.mapM_nil]
    exact pure nofun
  | cons x xs ih =>
    rw [List.mapM_cons]
    refine bind (h x List.mem_cons_self) fun b hb => ?_
    refine bind (ih fun y hy => h y (List.mem_cons_of_mem x hy)) fun bs hbs => ?_
    exact pure (List.forall_mem_cons.mpr ⟨hb, hbs⟩)

end Gives

/-! ### Constraints -/

section Constraints

variable {p : Program} {f : FuncId} {b : BlockId} {i : Instr} {v : ValueId} {a : Option ValueId}

theorem present_gives (h : p.Operand f a) : Gives (present a) (· < p.values.size) := by
  obtain ⟨x, rfl, hx, -⟩ := h
  exact ⟨x, rfl, hx⟩

theorem operand_gives {k : Nat} (hk : k < i.args.length) (h : ∀ a ∈ i.args, p.Operand f a) :
    Gives (operand i k) (p.Operand f) := by
  unfold operand
  rw [List.getElem?_eq_getElem hk]
  exact ⟨_, rfl, h _ (List.getElem_mem hk)⟩

theorem reference_within (h : v < p.values.size) : (reference p v).Within p := by
  unfold reference
  split
  · trivial
  · exact h

theorem copyTerms_gives (h : p.Operand f a) :
    Gives (copyTerms p v a) fun ts => Term.AllOf (· < p.values.size) ts := by
  unfold copyTerms
  refine Gives.bind (present_gives h) fun x hx => ?_
  exact Gives.pure ⟨⟨trivial, trivial⟩, reference_within hx, trivial⟩

theorem condition_gives (c : Comparison) (x y : ValueId) (taken : Bool) :
    Gives (condition (.known c) x y taken) (·.Within p) := by
  have hTerm (c : Comparison) : Gives (condition (.known c) x y true) (Term.Within p) := by
    simp only [condition, if_true, pure_bind]
    split
    · exact Gives.pure ⟨trivial, trivial⟩
    · exact Gives.pure trivial
  cases taken with
  | true => exact hTerm c
  | false => exact hTerm c.negate

theorem condition_gives_of_negate {pred : Predicate} {taken : Bool}
    (h : taken = true ∨ pred.negate.isOk = true) (x y : ValueId) :
    Gives (condition pred x y taken) (·.Within p) := by
  cases pred with
  | known c => exact condition_gives c x y taken
  | other code =>
    rcases h with rfl | h
    · exact ⟨.truth, rfl, trivial⟩
    · cases h

theorem branchCondition_gives_of_legible (hp : p.Grounded) (h : p.legible b = true) :
    Gives (branchCondition p b) (·.Within p) := by
  unfold legible at h
  unfold branchCondition
  split
  · rename_i q hPreds
    rw [hPreds] at h
    dsimp only at h
    split
    case h_1 pred x y yes no hTerm =>
      rw [hTerm] at h
      cases x with
      | none => cases h
      | some x =>
        have hx := hp.operand_lt hTerm List.mem_cons_self
        refine Gives.bind (Q := (· = x)) ⟨x, rfl, rfl⟩ ?_
        rintro x rfl
        split
        · exact Gives.pure trivial
        case isFalse hRead =>
          dsimp only at h
          rw [Bool.or_eq_true, or_iff_right hRead, Bool.and_eq_true, Bool.or_eq_true] at h
          obtain ⟨hSome, hTaken⟩ := h
          obtain ⟨y, rfl⟩ := Option.isSome_iff_exists.mp hSome
          have hy := hp.operand_lt hTerm (List.mem_cons_of_mem _ List.mem_cons_self)
          refine Gives.bind (condition_gives_of_negate (p := p) hTaken x _) fun holds hHolds => ?_
          refine Gives.bind (Q := (· = y)) ⟨y, rfl, rfl⟩ ?_
          rintro y rfl
          exact Gives.pure ⟨hHolds, reference_within hx, reference_within hy, trivial⟩
    case h_2 on cases otherwise hTerm =>
      rw [hTerm] at h
      split
      · exact Gives.pure trivial
      case isFalse hCase =>
        dsimp only at h
        rw [Bool.or_eq_true, or_iff_right hCase] at h
        obtain ⟨on, rfl⟩ := Option.isSome_iff_exists.mp h
        have hOn := hp.operand_lt hTerm List.mem_cons_self
        refine Gives.bind (Q := (· = on)) ⟨on, rfl, rfl⟩ ?_
        rintro on rfl
        refine Gives.pure ⟨Term.allOf_iff.mpr fun t ht => ?_, reference_within hOn, trivial⟩
        obtain ⟨c, -, rfl⟩ := List.mem_map.mp ht
        exact ⟨trivial, trivial⟩
    · exact Gives.pure trivial
  · exact Gives.pure trivial

theorem branchCondition_gives (hp : p.Complete) (b : BlockId) :
    Gives (branchCondition p b) (·.Within p) :=
  branchCondition_gives_of_legible hp.grounded (hp.legible b)

theorem instrConstraint_gives (hi : i.Supplied) (hArgs : ∀ a ∈ i.args, p.Operand f a)
    (hEntry : i.op = .sigma → Gives (branchCondition p b) (·.Within p)) (v : ValueId) :
    Gives (instrConstraint p b i v) fun t? => ∀ t ∈ t?, t.Within p := by
  have hCopy (hLength : i.args.length = 1) :
      Gives (do return some (Term.conj (← copyTerms p v (← operand i 0)))) fun t? =>
        ∀ t ∈ t?, t.Within p := by
    refine Gives.bind (operand_gives (by omega) hArgs) fun x hx => ?_
    refine Gives.bind (copyTerms_gives hx) fun ts hts => Gives.pure ?_
    rintro t ⟨⟩
    exact hts
  unfold instrConstraint
  split
  case h_1 hOp =>
    refine Gives.bind (operand_gives (Nat.lt_of_lt_of_eq Nat.one_pos (hi.sigma hOp).symm) hArgs)
      fun x hx => ?_
    refine Gives.bind (hEntry hOp) fun entry hEntry => ?_
    refine Gives.bind (copyTerms_gives hx) fun ts hts => Gives.pure ?_
    rintro t ⟨⟩
    exact ⟨hEntry, hts⟩
  iterate 4
    · rename_i hOp
      exact hCopy (hi.unary hOp)
  · rename_i op hOp
    have hLength := hi.binary hOp
    split
    · exact Gives.pure nofun
    refine Gives.bind (operand_gives (by omega) hArgs) fun x? hx? => ?_
    refine Gives.bind (operand_gives (by omega) hArgs) fun y? hy? => ?_
    refine Gives.bind (present_gives hx?) fun x hx => ?_
    refine Gives.bind (present_gives hy?) fun y hy => Gives.pure ?_
    rintro t ⟨⟩
    exact ⟨⟨trivial, trivial, trivial⟩, reference_within hx, reference_within hy, trivial⟩
  · refine Gives.bind (Gives.mapM (R := (·.Within p)) fun a ha => ?_) fun ts hts => Gives.pure ?_
    · refine Gives.bind (copyTerms_gives (v := v) (hArgs a ha)) fun terms hTerms => ?_
      exact Gives.pure hTerms
    · rintro t ⟨⟩
      exact Term.allOf_iff.mpr hts
  · exact Gives.pure nofun

theorem blockConstraints_gives (h : ∀ i ∈ (p.block b).instrs, ∀ v, i.result = some v →
      Gives (instrConstraint p b i v) fun t? => ∀ t ∈ t?, t.Within p) :
    Gives (blockConstraints p b) fun cs => ∀ c ∈ cs, c.2.Within p := by
  unfold blockConstraints
  refine Gives.bind (Gives.mapM (R := fun c? => ∀ c ∈ c?, c.2.Within p) fun i hMem => ?_)
    fun found hFound => Gives.pure fun c hc => ?_
  · split
    · exact ⟨none, rfl, nofun⟩
    case h_2 v hResult =>
      refine Gives.bind (h i (Array.mem_toList_iff.mp hMem) v hResult)
        fun t? ht? => Gives.pure fun c hc => ?_
      obtain ⟨t, ht, rfl⟩ := Option.map_eq_some_iff.mp hc
      exact ht? t ht
  · obtain ⟨c?, hMem, hEq⟩ := List.mem_filterMap.mp hc
    exact hFound c? hMem c hEq

/-- The constraints of a function whose instructions have constraints. -/
theorem constraints_gives_of_instrs (h : ∀ b ∈ (p.func f).blocks, ∀ i ∈ (p.block b).instrs, ∀ v,
      i.result = some v → Gives (instrConstraint p b i v) fun t? => ∀ t ∈ t?, t.Within p) :
    Gives (constraints p f) fun cs => ∀ c ∈ cs, c.2.Within p := by
  unfold constraints
  refine Gives.bind (Gives.mapM fun b hb => blockConstraints_gives (h b (Array.mem_toList_iff.mp hb)))
    fun found hFound => Gives.pure fun c hc => ?_
  obtain ⟨cs, hcs, hc⟩ := List.mem_flatten.mp hc
  exact hFound cs hcs c hc

theorem constraints_gives (hp : p.Accepted) (f : FuncId) :
    Gives (constraints p f) fun cs => ∀ c ∈ cs, c.2.Within p := by
  refine constraints_gives_of_instrs fun b hb i hi v _ => ?_
  have hf := hp.complete.listed (lt_of_mem_blocks hb)
  exact instrConstraint_gives (hp.supplied hf hb hi) (fun _ => hp.complete.args hi)
    (fun _ => branchCondition_gives hp.complete b) v

end Constraints

/-! ### Depth -/

/-- While the values in `L` are pending, the two computations do the same and leave the same values
pending. -/
def Same {α : Type} (L : List ValueId) (x x' : StateM Progress α) : Prop :=
  ∀ s, s.pending = L → x.run s = x'.run s ∧ (x.run s).2.pending = L

namespace Same

variable {α β : Type} {L : List ValueId} {x x' : StateM Progress α} {f f' : α → StateM Progress β}

theorem pure (L : List ValueId) (a : α) : Same L (Pure.pure a) (Pure.pure a) := fun _ hs => ⟨rfl, hs⟩

theorem modify {step : Progress → Progress} (h : ∀ s, (step s).pending = s.pending) :
    Same L (modify step) (modify step) := fun s hs => ⟨rfl, (h s).trans hs⟩

theorem bind (hx : Same L x x') (hf : ∀ a, Same L (f a) (f' a)) :
    Same L (x >>= f) (x' >>= f') := by
  intro s hs
  obtain ⟨hRun, hPending⟩ := hx s hs
  rw [StateT.run_bind, StateT.run_bind, ← hRun]
  exact hf (x.run s).1 (x.run s).2 hPending

theorem get_bind {f f' : Progress → StateM Progress β} (h : ∀ s, Same L (f s) (f' s)) :
    Same L (get >>= f) (get >>= f') := fun s hs => h s s hs

end Same

section Depth

variable {p : Program} {P : ValueId → Prop} {L : List ValueId} {cs : List (ValueId × Term)}
variable {vis vis' : ValueId → StateM Progress Unit}

theorem pending_declare (p : Program) (v : ValueId) (s : Progress) :
    (s.declare p v).pending = s.pending := by
  unfold Progress.declare
  split <;> rfl

mutual

theorem cut_same (h : ∀ v, P v → Same L (vis v) (vis' v)) :
    ∀ t : Term, t.All P → Same L (cut p vis t) (cut p vis' t)
  | .ref v, ht => by
    rw [cut, cut]
    refine Same.get_bind fun s => ?_
    split
    · exact Same.pure L _
    · exact Same.bind (h v ht) fun _ => Same.pure L _
  | .name v, _ => by
    rw [cut, cut]
    exact Same.bind (Same.modify (pending_declare p v)) fun _ => Same.pure L _
  | .conj ts, ht => by
    rw [cut, cut]
    exact Same.bind (cutAll_same h ts ht) fun _ => Same.pure L _
  | .disj ts, ht => by
    rw [cut, cut]
    exact Same.bind (cutAll_same h ts ht) fun _ => Same.pure L _
  | .apply op x y, ht => by
    rw [cut, cut]
    exact Same.bind (cut_same h x ht.1) fun _ => Same.bind (cut_same h y ht.2) fun _ =>
      Same.pure L _
  | .literal n, _ => by
    rw [cut, cut]
    exact Same.pure L _
  | .truth, _ => by
    rw [cut, cut]
    exact Same.pure L _

theorem cutAll_same (h : ∀ v, P v → Same L (vis v) (vis' v)) :
    ∀ ts : List Term, Term.AllOf P ts → Same L (cutAll p vis ts) (cutAll p vis' ts)
  | [], _ => by
    rw [cutAll, cutAll]
    exact Same.pure L _
  | t :: ts, ht => by
    rw [cutAll, cutAll]
    exact Same.bind (cut_same h t ht.1) fun _ => Same.bind (cutAll_same h ts ht.2) fun _ =>
      Same.pure L _

end

/-- A visit to a value whose definition is begun does nothing. -/
theorem visit_of_begun {v : ValueId} {s : Progress} (h : s.isBegun v = true) (depth : Nat) :
    (visit p cs depth v).run s = ((), s) := by
  cases depth with
  | zero => rfl
  | succ depth =>
    change StateT.run (if s.isBegun v = true then pure () else _ : StateM Progress Unit) s = _
    rw [if_pos h]
    rfl

/-- A visit to another value makes it pending while its constraint is cut. -/
theorem visit_of_not_begun {v : ValueId} {s : Progress} (h : ¬ s.isBegun v = true) (depth : Nat) :
    (visit p cs (depth + 1) v).run s =
      let r := (cut p (visit p cs depth) ((cs.lookup v).getD .truth)).run
        (Progress.declare p v { s with pending := v :: s.pending })
      ((), { r.2 with pending := r.2.pending.erase v,
                      definitions := r.2.definitions ++ [(v, r.1)] }) := by
  change StateT.run (if s.isBegun v = true then pure () else _ : StateM Progress Unit) s = _
  rw [if_neg h]
  rfl

theorem mem_of_full {n v : Nat} (hL : L.Nodup) (hLt : ∀ u ∈ L, u < n) (hFull : n ≤ L.length)
    (hv : v < n) : v ∈ L := by
  by_contra hNot
  have hSub : v :: L ⊆ List.range n := by
    intro u hu
    rcases List.mem_cons.mp hu with rfl | hu
    · exact List.mem_range.mpr hv
    · exact List.mem_range.mpr (hLt u hu)
  have hLength := (List.subperm_of_subset (List.nodup_cons.mpr ⟨hNot, hL⟩) hSub).length_le
  rw [List.length_cons, List.length_range] at hLength
  omega

/-- Depths that cover the values which are not pending do the same. -/
theorem visit_same (hcs : ∀ c ∈ cs, c.2.Within p) {depth depth' : Nat} (hL : L.Nodup)
    (hLt : ∀ u ∈ L, u < p.values.size) (h : p.values.size ≤ depth + L.length)
    (h' : p.values.size ≤ depth' + L.length) {v : ValueId} (hv : v < p.values.size) :
    Same L (visit p cs depth v) (visit p cs depth' v) := by
  induction depth generalizing depth' L v with
  | zero =>
    intro s hs
    have hBegun : s.isBegun v = true := by
      have hMem := mem_of_full hL hLt (by omega) hv
      simp [Progress.isBegun, hs, hMem]
    rw [visit_of_begun hBegun, visit_of_begun hBegun]
    exact ⟨rfl, hs⟩
  | succ depth ih =>
    intro s hs
    by_cases hBegun : s.isBegun v = true
    · rw [visit_of_begun hBegun, visit_of_begun hBegun]
      exact ⟨rfl, hs⟩
    have hNot : v ∉ L := by
      intro hMem
      simp [Progress.isBegun, hs, hMem] at hBegun
    cases depth' with
    | zero => exact absurd (mem_of_full hL hLt (by omega) hv) hNot
    | succ depth' =>
      have hTerm : ((cs.lookup v).getD .truth).All (· < p.values.size) := by
        cases hLookup : cs.lookup v with
        | none => trivial
        | some t =>
          obtain ⟨before, after, rfl, -⟩ := List.lookup_eq_some_iff.mp hLookup
          exact hcs (v, t) (List.mem_append_right before List.mem_cons_self)
      have hStart : (Progress.declare p v { s with pending := v :: s.pending }).pending = v :: L := by
        rw [pending_declare, hs]
      have hInner (u : ValueId) (hu : u < p.values.size) :
          Same (v :: L) (visit p cs depth u) (visit p cs depth' u) :=
        ih (List.nodup_cons.mpr ⟨hNot, hL⟩) (List.forall_mem_cons.mpr ⟨hv, hLt⟩)
          (by rw [List.length_cons]; omega) (by rw [List.length_cons]; omega) hu
      obtain ⟨hRun, hPending⟩ := cut_same (p := p) hInner _ hTerm _ hStart
      rw [visit_of_not_begun hBegun, visit_of_not_begun hBegun, ← hRun]
      refine ⟨rfl, ?_⟩
      dsimp only
      rw [hPending, List.erase_cons_head]

/-- Depths that are not less than the number of values give the same script. -/
theorem scriptTo_eq {v : ValueId} (hcs : constraints p (p.value v).owner = .ok cs)
    (hWithin : ∀ c ∈ cs, c.2.Within p) (hv : v < p.values.size) {assertions : List Term}
    (h : ∀ t ∈ assertions, t.Within p) {depth : Nat} (hDepth : p.values.size ≤ depth) :
    scriptTo p depth v assertions = script p v assertions := by
  have hSame {u : ValueId} (hu : u < p.values.size) :
      Same [] (visit p cs p.values.size u) (visit p cs depth u) :=
    visit_same hWithin List.nodup_nil nofun (Nat.le_refl _) hDepth hu
  have hSteps := Same.bind (hSame hv) fun _ =>
    cutAll_same (p := p) (fun u => hSame) assertions (Term.allOf_iff.mpr h)
  unfold script scriptTo
  rw [hcs]
  exact congrArg (fun r : List Term × Progress =>
    Except.ok (Script.mk r.2.declared r.2.definitions (.ref v :: r.1)))
    (hSteps ⟨[], [], []⟩ rfl).1.symm

/-- The script of a value of an accepted program. It is the same for all depths that are not less
than the number of values. -/
theorem script_gives (hp : p.Accepted) {v : ValueId} (hv : v < p.values.size)
    {assertions : List Term} (h : ∀ t ∈ assertions, t.Within p) :
    ∃ s, script p v assertions = .ok s ∧
      ∀ depth, p.values.size ≤ depth → scriptTo p depth v assertions = .ok s := by
  obtain ⟨cs, hcs, hWithin⟩ := constraints_gives hp (p.value v).owner
  have hScript : ∃ s, script p v assertions = .ok s := by
    unfold script scriptTo
    rw [hcs]
    exact ⟨_, rfl⟩
  obtain ⟨s, hs⟩ := hScript
  exact ⟨s, hs, fun depth hDepth => (scriptTo_eq hcs hWithin hv h hDepth).trans hs⟩

end Depth

end ValueRange.Smt
