import Mathlib.Data.List.Forall2
import Mathlib.Data.List.Induction
import Mathlib.Logic.Function.Basic
import Mathlib.Order.BooleanAlgebra.Basic
import ValueRange.Proofs.Program.Construction
import ValueRange.Proofs.Smt.Facts

/-! Cutting cycles only weakens constraints. Terms are read over the integers, and the definitions
of a script in the order in which they stand. References occur in constraints only below
conjunctions and disjunctions, so a constraint stays true when references are replaced by truth or
by something that they imply. Hence what satisfies the constraints satisfies the definitions, and
where nothing depends on itself, the definitions are the constraints. -/

namespace ValueRange.Smt

open Program Relation

/-! ### Meaning -/

/-- What a term stands for: a number or a truth value. -/
inductive Meaning where
  | number (n : Int)
  | truth (b : Bool)
deriving DecidableEq, Repr

/-- The truth value that it is. -/
def Meaning.truth? : Meaning → Option Bool
  | number _ => none
  | truth b => some b

/-- The outcome of an operator. There is none for an operator that is not modelled, or for operands
of another sort. -/
def Operator.meaning : Operator → Meaning → Meaning → Option Meaning
  | .equal, .number x, .number y => some (.truth (x == y))
  | .equal, .truth x, .truth y => some (.truth (x == y))
  | .distinct, .number x, .number y => some (.truth (x != y))
  | .distinct, .truth x, .truth y => some (.truth (x != y))
  | .less, .number x, .number y => some (.truth (x < y))
  | .lessEqual, .number x, .number y => some (.truth (x ≤ y))
  | .greater, .number x, .number y => some (.truth (x > y))
  | .greaterEqual, .number x, .number y => some (.truth (x ≥ y))
  | .plus, .number x, .number y => some (.number (x + y))
  | .minus, .number x, .number y => some (.number (x - y))
  | .times, .number x, .number y => some (.number (x * y))
  | _, _, _ => none

mutual

/-- The meaning of a term, where values that are no constants are the integers of `ρ` and references
have the truth values of `E`. A reference that has none there makes the term meaningless. -/
def Term.meaning (p : Program) (ρ : ValueId → Int) (E : ValueId → Option Bool) :
    Term → Option Meaning
  | .conj terms => (Term.truths p ρ E terms).map fun bs => .truth (bs.all id)
  | .disj terms => (Term.truths p ρ E terms).map fun bs => .truth (bs.any id)
  | .ref v => (E v).map .truth
  | .apply op x y => do op.meaning (← x.meaning p ρ E) (← y.meaning p ρ E)
  | .literal n => some (.number n)
  | .name v => some (.number ((p.value v).const.getD (ρ v)))
  | .truth => some (.truth true)

/-- The truth values of terms. -/
def Term.truths (p : Program) (ρ : ValueId → Int) (E : ValueId → Option Bool) :
    List Term → Option (List Bool)
  | [] => some []
  | t :: ts => do return (← (← t.meaning p ρ E).truth?) :: (← Term.truths p ρ E ts)

end

/-- The term is true for the values `ρ`, with each reference read as `R` says. -/
def Term.Holds (p : Program) (ρ : ValueId → Int) (R : ValueId → Bool) (t : Term) : Prop :=
  t.meaning p ρ (fun w => some (R w)) = some (.truth true)

/-- The truth values of the defined symbols, each definition read with those before it. -/
def readAll (p : Program) (ρ : ValueId → Int) (definitions : List (ValueId × Term)) :
    ValueId → Option Bool :=
  definitions.foldl
    (fun E d => Function.update E d.1 ((d.2.meaning p ρ E).bind Meaning.truth?)) fun _ => none

/-! ### Fewer references -/

section Monotone

variable {p : Program} {ρ : ValueId → Int} {R keep : ValueId → Bool} {E : ValueId → Option Bool}

theorem all_le_all {bs bs' : List Bool} (h : List.Forall₂ (· ≤ ·) bs bs') :
    bs.all id ≤ bs'.all id := by
  induction h with
  | nil => exact le_rfl
  | cons h _ ih =>
    rw [List.all_cons, List.all_cons]
    exact inf_le_inf h ih

theorem any_le_any {bs bs' : List Bool} (h : List.Forall₂ (· ≤ ·) bs bs') :
    bs.any id ≤ bs'.any id := by
  induction h with
  | nil => exact le_rfl
  | cons h _ ih =>
    rw [List.any_cons, List.any_cons]
    exact sup_le_sup h ih

theorem Term.truths_cons (p : Program) (ρ : ValueId → Int) (E : ValueId → Option Bool) {t : Term}
    {b : Bool} (ht : t.meaning p ρ E = some (.truth b)) (ts : List Term) :
    Term.truths p ρ E (t :: ts) = (Term.truths p ρ E ts).map (b :: ·) := by
  rw [Term.truths, ht]
  cases Term.truths p ρ E ts <;> rfl

/-- A factual term implies what is left of it, where each reference that is kept implies what it is
read as. -/
def Term.Weakens (p : Program) (ρ : ValueId → Int) (R keep : ValueId → Bool)
    (E : ValueId → Option Bool) (t : Term) : Prop :=
  ∃ b b', t.meaning p ρ (fun w => some (R w)) = some (.truth b) ∧
    (t.trim keep).meaning p ρ E = some (.truth b') ∧ b ≤ b'

theorem Term.truths_le_trimAll {ts : List Term} (h : ∀ t ∈ ts, t.Weakens p ρ R keep E) :
    ∃ bs bs', Term.truths p ρ (fun w => some (R w)) ts = some bs ∧
      Term.truths p ρ E (Term.trimAll keep ts) = some bs' ∧ List.Forall₂ (· ≤ ·) bs bs' := by
  induction ts with
  | nil => exact ⟨[], [], rfl, rfl, .nil⟩
  | cons t ts ih =>
    obtain ⟨⟨b, b', hb, hb', hLe⟩, hts⟩ := List.forall_mem_cons.mp h
    obtain ⟨bs, bs', hbs, hbs', hLes⟩ := ih hts
    refine ⟨b :: bs, b' :: bs', ?_, ?_, .cons hLe hLes⟩
    · rw [Term.truths_cons p ρ _ hb, hbs, Option.map_some]
    · rw [Term.trimAll, Term.truths_cons p ρ _ hb', hbs', Option.map_some]

theorem Term.Factual.weakens {P : ValueId → Prop} {t : Term} (h : t.Factual P)
    (hE : ∀ w, keep w = true → ∃ b, E w = some b ∧ R w ≤ b) : t.Weakens p ρ R keep E := by
  induction h with
  | conj _ ih =>
    obtain ⟨bs, bs', hTruths, hTrim, hLe⟩ := Term.truths_le_trimAll ih
    refine ⟨bs.all id, bs'.all id, ?_, ?_, all_le_all hLe⟩
    · rw [Term.meaning, hTruths, Option.map_some]
    · rw [Term.trim, Term.meaning, hTrim, Option.map_some]
  | disj _ ih =>
    obtain ⟨bs, bs', hTruths, hTrim, hLe⟩ := Term.truths_le_trimAll ih
    refine ⟨bs.any id, bs'.any id, ?_, ?_, any_le_any hLe⟩
    · rw [Term.meaning, hTruths, Option.map_some]
    · rw [Term.trim, Term.meaning, hTrim, Option.map_some]
  | @ref v =>
    unfold Term.Weakens
    rw [Term.trim]
    split
    case isTrue hKeep =>
      obtain ⟨b, hb, hLe⟩ := hE v hKeep
      refine ⟨R v, b, rfl, ?_, hLe⟩
      rw [Term.meaning, hb, Option.map_some]
    case isFalse => exact ⟨R v, true, rfl, rfl, Bool.le_true _⟩
  -- the other terms have no references
  | @comparison c _ _ _ hOp => cases c <;> cases hOp <;> exact ⟨_, _, rfl, rfl, le_rfl⟩
  | literal => exact ⟨_, _, rfl, rfl, le_rfl⟩
  | @result op _ _ _ _ hOp => cases op <;> cases hOp <;> exact ⟨_, _, rfl, rfl, le_rfl⟩
  | truth => exact ⟨true, true, rfl, rfl, le_rfl⟩

end Monotone

/-! ### Scripts -/

section Scripts

variable {p : Program} {f : FuncId} {cs : List (ValueId × Term)} {target : ValueId}
  {assertions : List Term} {s : Script} {ρ : ValueId → Int} {R : ValueId → Bool}

theorem readAll_concat (definitions : List (ValueId × Term)) (v : ValueId) (t : Term) :
    readAll p ρ (definitions ++ [(v, t)]) =
      Function.update (readAll p ρ definitions) v
        ((t.meaning p ρ (readAll p ρ definitions)).bind Meaning.truth?) := by
  unfold readAll
  rw [List.foldl_append]
  rfl

/-- All definitions up to any point have truth values, which the membership of their values in `R`
implies. -/
theorem Script.Closed.le_readAll (hs : s.Closed p cs target assertions)
    (hFactual : ∀ v, (constraintOf cs v).Factual fun _ => True)
    (hR : ∀ v, R v = true → (constraintOf cs v).Holds p ρ R)
    (before after : List (ValueId × Term)) (h : s.definitions = before ++ after) {v : ValueId}
    (hv : v ∈ before.map (·.1)) : ∃ b, readAll p ρ before v = some b ∧ R v ≤ b := by
  induction before using List.reverseRecOn generalizing after v with
  | nil => cases hv
  | append_singleton before d ih =>
    obtain ⟨u, t⟩ := d
    rw [List.append_assoc, List.singleton_append] at h
    have hBefore {w : ValueId} (hw : w ∈ before.map (·.1)) := ih ((u, t) :: after) h hw
    rw [readAll_concat]
    by_cases hEq : v = u
    · subst hEq
      -- what is left of the constraint refers only to values that are read before
      obtain ⟨b, b', hb, hb', hLe⟩ := (hFactual v).weakens
        fun w hw => hBefore (List.contains_iff_mem.mp hw)
      refine ⟨b', ?_, ?_⟩
      · rw [Function.update_self, hs.body h, hb']
        rfl
      · refine le_trans (Bool.le_iff_imp.mpr fun hv => ?_) hLe
        exact Meaning.truth.inj (Option.some.inj (hb.symm.trans (hR v hv)))
    · rw [Function.update_of_ne hEq]
      refine hBefore ?_
      simpa [hEq] using hv

/-- The definition of a value that does not depend on itself is its constraint. -/
theorem Script.Closed.eq_constraintOf (hs : s.Closed p cs target assertions) {v : ValueId}
    {t : Term} (hMem : (v, t) ∈ s.definitions) (hv : ¬ TransGen (Depends cs) v v) :
    t = constraintOf cs v := by
  obtain ⟨before, after, h⟩ := List.append_of_mem hMem
  have hKept (w : ValueId) (hw : Depends cs v w) : (before.map (·.1)).contains w = true :=
    List.contains_iff_mem.mpr ((hs.cyclic h hw).resolve_right fun hPath => hv (.head' hw hPath))
  calc
    t = (constraintOf cs v).trim fun w => (before.map (·.1)).contains w := hs.body h
    _ = (constraintOf cs v).trim fun _ => true := Term.trim_congr _ hKept
    _ = constraintOf cs v := Term.trim_of_keep (fun _ => rfl) _

theorem exists_constraints (h : script p target assertions = .ok s) :
    ∃ cs, constraints p (p.value target).owner = .ok cs := by
  unfold script scriptTo at h
  cases hcs : constraints p (p.value target).owner with
  | error e =>
    rw [hcs] at h
    cases h
  | ok cs => exact ⟨cs, rfl⟩

/-- A value of a function that passes the check has a script if the function has constraints, and each
script of it is implied by the constraints. Take any integers for the values and any set of values
whose constraints hold, with a reference read as membership in the set: if the target is in the set,
its definition is true. If no value that the script depends on depends on itself, each definition is
the constraint of its value. -/
theorem script_weakens (hp : p.Grounded) (hf : p.check f = none) (hTarget : p.Holds f target)
    (hAssertions : ∀ t ∈ assertions, t.Within p) :
    (∀ cs, constraints p f = .ok cs → ∃ s, script p target assertions = .ok s) ∧
    ∀ s, script p target assertions = .ok s → ∃ cs, constraints p f = .ok cs ∧
      (∀ (ρ : ValueId → Int) (R : ValueId → Bool),
        (∀ v t, cs.lookup v = some t → R v = true → t.Holds p ρ R) →
          R target = true → readAll p ρ s.definitions target = some true) ∧
      ((∀ v, Reached cs target assertions v → ¬ TransGen (Depends cs) v v) →
        ∀ v t, (v, t) ∈ s.definitions → t = constraintOf cs v) := by
  obtain ⟨hlt, rfl⟩ := hTarget
  have hWithin {cs : List (ValueId × Term)}
      (hcs : constraints p (p.value target).owner = .ok cs) : ∀ c ∈ cs, c.2.Within p := by
    obtain ⟨cs', hcs', hWithin⟩ := constraints_gives_of_stated hp (problems_of_check hf)
      (stated_of_constraints hcs)
    cases hcs.symm.trans hcs'
    exact hWithin
  refine ⟨fun cs hcs => ?_, fun s hs => ?_⟩
  · obtain ⟨e, hScript, -⟩ := script_emits hcs (hWithin hcs) hlt hAssertions
    exact ⟨_, hScript⟩
  · obtain ⟨cs, hcs⟩ := exists_constraints hs
    obtain ⟨e, hScript, hEmits⟩ := script_emits hcs (hWithin hcs) hlt hAssertions
    cases hs.symm.trans hScript
    have hClosed := hEmits.closed
    refine ⟨cs, hcs, fun ρ R hR hTarget => ?_, fun hAcyclic v t hMem => ?_⟩
    · have hHolds (v : ValueId) (hv : R v = true) : (constraintOf cs v).Holds p ρ R := by
        unfold constraintOf
        cases hLookup : cs.lookup v with
        | none => rfl
        | some t => exact hR v t hLookup hv
      obtain ⟨b, hb, hLe⟩ := hClosed.le_readAll (factual_constraintOf confined_true hcs) hHolds
        e.definitions [] (List.append_nil _).symm
        ((hClosed.reached target).mpr ⟨target, .inl rfl, .refl⟩)
      rw [hb, Bool.le_iff_imp.mp hLe hTarget]
    · refine hClosed.eq_constraintOf hMem (hAcyclic v ?_)
      exact (hClosed.reached v).mp (List.mem_map_of_mem hMem)

/-- In the counting loop the first values satisfy all constraints, and so the definition of `i` is
true, though it is cut where it comes back to `i`. What `y` copies in the other function does not
depend on `y`, so that the definition of `y` is its constraint. -/
theorem counting_script_weakened : counting.Grounded ∧ counting.check 0 = none ∧
    counting.Holds 0 3 ∧ guarded.Grounded ∧ guarded.check 0 = none ∧ guarded.Holds 0 2 ∧
    (∃ s, script counting 3 [] = .ok s ∧
      readAll counting (fun v => if v = 0 then 10 else if v = 5 then 1 else 0) s.definitions 3 =
        some true) ∧
    ∃ s cs, script guarded 2 [] = .ok s ∧ constraints guarded 0 = .ok cs ∧
      ∀ v t, (v, t) ∈ s.definitions → t = constraintOf cs v := by
  have hp : counting.Grounded := by decide +kernel
  have hf : counting.check 0 = none := by decide +kernel
  have hTarget : counting.Holds 0 3 := ⟨by decide +kernel, by decide +kernel⟩
  have hp' : guarded.Grounded := by decide +kernel
  have hf' : guarded.check 0 = none := by decide +kernel
  have hTarget' : guarded.Holds 0 2 := ⟨by decide +kernel, by decide +kernel⟩
  refine ⟨hp, hf, hTarget, hp', hf', hTarget', ?_, ?_⟩
  · have hcs : constraints counting 0 = .ok
        [(3, .disj [.conj [.apply .equal (.name 3) (.name 1), .truth],
          .conj [.apply .equal (.name 3) (.name 5), .ref 5]]),
        (4, .conj [.conj [.apply .less (.name 3) (.name 0), .ref 3, .ref 0],
          .apply .equal (.name 4) (.name 3), .ref 3]),
        (5, .conj [.apply .equal (.name 5) (.apply .plus (.name 4) (.name 2)), .ref 4,
          .truth])] := rfl
    obtain ⟨hGives, hImplied⟩ := script_weakens hp hf hTarget (List.forall_mem_nil _)
    obtain ⟨s, hs⟩ := hGives _ hcs
    obtain ⟨cs, hcs', hWeak, -⟩ := hImplied s hs
    cases hcs.symm.trans hcs'
    refine ⟨s, hs, hWeak _ (fun _ => true) (fun v t hLookup _ => ?_) rfl⟩
    have hMem := mem_of_lookup hLookup
    simp only [List.mem_cons, Prod.mk.injEq, List.not_mem_nil, or_false] at hMem
    obtain ⟨-, rfl⟩ | ⟨-, rfl⟩ | ⟨-, rfl⟩ := hMem <;> rfl
  · have hcs : constraints guarded 0 =
        .ok [(2, .conj [.apply .equal (.name 2) (.name 0), .ref 0])] := rfl
    obtain ⟨hGives, hImplied⟩ := script_weakens hp' hf' hTarget' (List.forall_mem_nil _)
    obtain ⟨s, hs⟩ := hGives _ hcs
    obtain ⟨cs, hcs', -, hExact⟩ := hImplied s hs
    cases hcs.symm.trans hcs'
    refine ⟨s, _, hs, hcs, hExact fun v _ hCycle => ?_⟩
    have hLess (u w : ValueId)
        (h : Depends [(2, .conj [.apply .equal (.name 2) (.name 0), .ref 0])] u w) : u > w := by
      unfold Depends constraintOf at h
      rw [List.lookup_cons] at h
      split at h
      case h_1 hEq =>
        cases beq_iff_eq.mp hEq
        obtain rfl : w = 0 := by simpa [Term.leaves, Term.leavesOf] using h
        exact Nat.two_pos
      · simp [Term.leaves] at h
    exact Nat.lt_irrefl v (transGen_minimal hLess v v hCycle)

end Scripts

end ValueRange.Smt
