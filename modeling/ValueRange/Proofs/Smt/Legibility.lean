import ValueRange.Proofs.Smt.Script

/-! Which constraints can be stated. A function that passes the check has the operands that its
constraints need. But a sigma also needs what holds on entry to its block, and the terminator that
tells this may end a block of a function which does not pass the check, or test by something that is
no comparison and so has no negation. -/

namespace ValueRange.Smt

open Program

variable {p : Program} {f : FuncId} {b : BlockId} {i : Instr} {v : ValueId}

/-! ### Entry conditions -/

theorem exists_of_bind {α β : Type} {x : Except Fault α} {next : α → Except Fault β} {b : β}
    (h : x >>= next = .ok b) : ∃ a, x = .ok a ∧ next a = .ok b := by
  cases x with
  | error e => cases h
  | ok a => exact ⟨a, rfl, h⟩

theorem exists_of_map {α β : Type} {e : Except Fault α} {next : α → β} {b : β}
    (h : next <$> e = .ok b) : ∃ a, e = .ok a ∧ next a = b := by
  cases e with
  | error e => cases h
  | ok a => exact ⟨a, rfl, Except.ok.inj h⟩

theorem legible_of_branchCondition {t : Term} (h : branchCondition p b = .ok t) :
    p.legible b = true := by
  unfold branchCondition at h
  unfold legible
  split
  · rename_i q hPreds
    rw [hPreds] at h
    dsimp only at h
    split
    case h_1 pred x y yes no hTerm =>
      rw [hTerm] at h
      obtain ⟨x', hx, h⟩ := exists_of_bind h
      cases hx
      split at h
      case isTrue hRead => rw [hRead, Bool.true_or]
      case isFalse =>
        obtain ⟨holds, hHolds, h⟩ := exists_of_bind h
        obtain ⟨y', hy, -⟩ := exists_of_bind h
        cases y with
        | none => cases hy
        | some y =>
          have hTaken : (b == yes || pred.negate.isOk) = true := by
            cases hYes : b == yes with
            | true => rfl
            | false =>
              rw [hYes] at hHolds
              cases pred with
              | known c => rfl
              | other code => cases hHolds
          rw [hTaken, Option.isSome_some, Bool.and_self, Bool.or_true]
    case h_2 hTerm =>
      rw [hTerm] at h
      obtain ⟨x, hx, -⟩ := exists_of_bind h
      cases hx
    case h_3 on cases otherwise hTerm =>
      rw [hTerm] at h
      dsimp only at h
      split at h
      case isTrue hOtherwise => rw [hOtherwise, Bool.true_or]
      case isFalse =>
        obtain ⟨x, hx, -⟩ := exists_of_bind h
        cases on with
        | none => cases hx
        | some on => rw [Option.isSome_some, Bool.or_true]
    · rfl
  · rfl

/-! ### Functions -/

theorem ok_of_mapM {α β : Type} {next : α → Except Fault β} {xs : List α} {bs : List β}
    (h : xs.mapM next = .ok bs) : ∀ x ∈ xs, ∃ b, next x = .ok b := by
  induction xs generalizing bs with
  | nil => nofun
  | cons x xs ih =>
    rw [List.mapM_cons] at h
    obtain ⟨b, hb, h⟩ := exists_of_bind h
    obtain ⟨bs', hbs, -⟩ := exists_of_bind h
    exact List.forall_mem_cons.mpr ⟨⟨b, hb⟩, ih hbs⟩

theorem exists_of_mem_mapM {α β : Type} {next : α → Except Fault β} {xs : List α} {bs : List β}
    (h : xs.mapM next = .ok bs) {b : β} (hb : b ∈ bs) : ∃ x ∈ xs, next x = .ok b := by
  induction xs generalizing bs with
  | nil =>
    cases h
    cases hb
  | cons x xs ih =>
    rw [List.mapM_cons] at h
    obtain ⟨b', hb', h⟩ := exists_of_bind h
    obtain ⟨bs', hbs', h⟩ := exists_of_bind h
    cases h
    rcases List.mem_cons.mp hb with rfl | hb
    · exact ⟨x, List.mem_cons_self, hb'⟩
    · obtain ⟨y, hy, hb⟩ := ih hbs' hb
      exact ⟨y, List.mem_cons_of_mem x hy, hb⟩

/-- The blocks of the function that have sigmas with results can be entered with a condition. -/
def Stated (p : Program) (f : FuncId) : Prop :=
  ∀ b ∈ (p.func f).blocks, ∀ i ∈ (p.block b).instrs, i.op = .sigma → i.result.isSome = true →
    p.legible b = true

theorem constraints_gives_of_stated (hp : p.Grounded) (hf : p.problems f = []) (h : Stated p f) :
    Gives (constraints p f) fun cs => ∀ c ∈ cs, c.2.Within p := by
  refine constraints_gives_of_instrs fun b hb i hi v hv => ?_
  refine instrConstraint_gives (f := f) (supplied_of_problems hf hb hi) (fun a ha => ?_)
    (fun hOp => ?_) v
  · obtain ⟨u, rfl, hOwner⟩ := exists_of_instrProblems (instrProblems_eq_nil hf hb hi) ha
    exact ⟨u, rfl, hp.arg_lt hi ha, hOwner⟩
  · have hLegible := h b hb i hi hOp (Option.isSome_iff_exists.mpr ⟨v, hv⟩)
    exact branchCondition_gives_of_legible hp hLegible

theorem stated_of_constraints {cs : List (ValueId × Term)} (h : constraints p f = .ok cs) :
    Stated p f := by
  intro b hb i hi hOp hResult
  obtain ⟨v, hv⟩ := Option.isSome_iff_exists.mp hResult
  obtain ⟨found, hFound, -⟩ := exists_of_bind h
  obtain ⟨block, hBlock⟩ := ok_of_mapM hFound b (Array.mem_toList_iff.mpr hb)
  obtain ⟨terms, hTerms, -⟩ := exists_of_bind hBlock
  obtain ⟨term, hTerm⟩ := ok_of_mapM hTerms i (Array.mem_toList_iff.mpr hi)
  rw [hv] at hTerm
  obtain ⟨t?, ht?, -⟩ := exists_of_bind hTerm
  unfold instrConstraint at ht?
  rw [hOp] at ht?
  obtain ⟨x, -, hEntry⟩ := exists_of_bind ht?
  obtain ⟨entry, hEntry, -⟩ := exists_of_bind hEntry
  exact legible_of_branchCondition hEntry

end ValueRange.Smt
