import Mathlib.Data.List.Chain
import ValueRange.Proofs.Graph.Branching
import ValueRange.Proofs.Program.Layout

/-! Paths to sigmas. A sigma relies on what the branch into its block tells, and the check asks that
the block has one predecessor. So control that follows an edge to a sigma comes from the block whose
terminator tells the fact, and the fact is true there. But control also enters a function at its
first block without following an edge, and the check passes a sigma in a first block that has one
predecessor. -/

namespace ValueRange

variable {p : Program} {f : FuncId} {b c q : BlockId} {path : List BlockId} {k : Nat}

namespace Program

/-- The block has a sigma. -/
def HasSigma (p : Program) (b : BlockId) : Prop := ∃ i ∈ (p.block b).instrs, i.op = .sigma

instance (p : Program) (b : BlockId) : Decidable (p.HasSigma b) :=
  inferInstanceAs (Decidable (∃ i ∈ (p.block b).instrs, i.op = .sigma))

/-- The blocks that control passes from the first block of the function on, in order. -/
structure IsPath (p : Program) (f : FuncId) (path : List BlockId) : Prop where
  first : path.head? = (p.func f).blocks[0]?
  edges : path.IsChain fun b c => c ∈ (p.block b).succs

/-- The path comes to its block at `k`, which is `b`, from the only predecessor of that block. -/
def Arrives (p : Program) (path : List BlockId) (k : Nat) (b : BlockId) : Prop :=
  ∃ j q, k = j + 1 ∧ path[j]? = some q ∧ (p.block b).preds = [q]

theorem isPath_singleton (h : (p.func f).blocks[0]? = some b) : p.IsPath f [b] :=
  ⟨h.symm, List.isChain_singleton b⟩

/-- A path comes to a block along an edge, unless it starts there. -/
theorem IsPath.edge (h : p.IsPath f path) (hk : path[k + 1]? = some c) :
    ∃ b, path[k]? = some b ∧ c ∈ (p.block b).succs := by
  obtain ⟨hLt, rfl⟩ := List.getElem?_eq_some_iff.mp hk
  exact ⟨path[k], List.getElem?_eq_getElem (by omega), List.isChain_iff_getElem.mp h.edges k hLt⟩

theorem preds_of_sigma (hf : p.check f = none) (hb : b ∈ (p.func f).blocks) (h : p.HasSigma b) :
    ∃ q, (p.block b).preds = [q] := by
  obtain ⟨i, hi, hOp⟩ := h
  have hInstr := instrProblems_eq_nil (problems_of_check hf) hb hi
  have hNone : p.sigmaProblem b i = none :=
    Option.toList_eq_nil_iff.mp (List.append_eq_nil_iff.mp hInstr).2
  unfold sigmaProblem at hNone
  split at hNone
  · cases hNone
  case isFalse hOne =>
    exact List.length_eq_one_iff.mp (Classical.not_not.mp fun hne => hOne ⟨hOp, hne⟩)

/-- The edge by which a path comes to a sigma starts at the only predecessor of the block. -/
theorem IsPath.arrives (h : p.IsPath f path) (hp : p.Linked) (hf : p.check f = none)
    (hk : path[k + 1]? = some b) (hb : b ∈ (p.func f).blocks) (hSigma : p.HasSigma b) :
    ∃ q, path[k]? = some q ∧ (p.block b).preds = [q] ∧ b ∈ (p.block q).succs := by
  obtain ⟨q, hq, hEdge⟩ := h.edge hk
  obtain ⟨q', hPreds⟩ := preds_of_sigma hf hb hSigma
  have hMem := hp.preds hEdge
  rw [hPreds, List.mem_singleton] at hMem
  exact ⟨q, hq, hMem ▸ hPreds, hEdge⟩

/-- A loop that is the first block of its function and starts with a sigma of the parameter. -/
def reentrant : Program :=
  let t : IntType := .signed 8
  let p := ((addFunction 0 "reentrant").run start).2
  let p := ((addParam 0 "x" t none).run p).2
  let p := ((constant 0 t 10).run p).2
  let p := ((addBlock 0 "entry").run p).2
  let p := ((addBlock 0 "exit").run p).2
  let p := ((emit 0 .sigma "s" t [some 0] none none).run p).2
  let p := p.terminate 0 (.test (.known .sle) (some 0) (some 1) 0 1)
  p.terminate 1 (.ret [some 2])

theorem reentrant_constructed : Constructed reentrant := by
  let t : IntType := .signed 8
  have h : Constructed start := .refl
  have h := h.tail (.addFunction (m := 0) (by decide) "reentrant")
  have h := h.tail (.addParam (f := 0) (by decide) "x" t none)
  have h := h.tail (.constant (f := 0) (by decide) t 10)
  have h := h.tail (.addBlock (f := 0) (by decide) "entry")
  have h := h.tail (.addBlock (f := 0) (by decide) "exit")
  have h := h.tail (.emit (b := 0) (by decide) .sigma "s" t [some 0] (by decide) none none)
  have h := h.tail (.terminate (b := 0) (t := .test (.known .sle) (some 0) (some 1) 0 1)
    (by decide +kernel) (by decide +kernel) (by decide +kernel))
  exact h.tail (.terminate (b := 1) (t := .ret [some 2]) (by decide +kernel) nofun
    (by decide +kernel))

end Program

namespace Graph

open Program

variable {ρ : ValueId → Int}

/-- What the branches of the blocks of a function tell. -/
def recorded (p : Program) (f : FuncId) (s : Sentinels) (o : Options) : Graph :=
  (((p.func f).blocks.toList.forM (addBranch p)).run.run (empty s o)).2

theorem truthful_recorded (hp : p.Linked) (hρ : p.Respects ρ) (f : FuncId) (s : Sentinels)
    (o : Options) : Truthful p ρ (recorded p f s o) :=
  Keeps.forM (fun q _ => keeps_addBranch hp hρ q) (empty s o)
    ⟨fun h => absurd h (Array.not_mem_empty _), fun h => absurd h (Array.not_mem_empty _)⟩

/-- Where a block has one predecessor, its terminator tells what is told about values there. -/
theorem Truthful.holds_of_preds {g : Graph} (hg : Truthful p ρ g) (hp : p.Linked)
    (hPreds : (p.block b).preds = [q]) {t : Terminator} (ht : (p.block q).term = some t)
    (hTakes : t.Takes ρ b) {v : ValueId} {fact : Fact} (hFact : g.factAt? v b = some fact) :
    fact.Holds ρ v := by
  obtain ⟨q', t', ht', hSucc, hHolds⟩ := hg.factAt? hFact
  have hPred := hp.preds (hp.succs ht' hSucc)
  rw [hPreds, List.mem_singleton] at hPred
  subst hPred
  cases ht.symm.trans ht'
  exact hHolds hTakes

/-- In a function that passes the check, a path that comes to a sigma later than at its start comes
from the only predecessor of the block, whose terminator leads there, and if the terminator takes
this edge, then all is true that is told about values in the block. So all sigmas on all paths are
entered like this exactly if the first block has none. -/
theorem sigma_entered_by_edge (hp : p.Constructed) (hf : p.check f = none) :
    (∀ path k b, p.IsPath f path → path[k + 1]? = some b → b ∈ (p.func f).blocks → p.HasSigma b →
      ∃ q t, path[k]? = some q ∧ (p.block b).preds = [q] ∧ (p.block q).term = some t ∧
        b ∈ t.successors ∧ ∀ ρ, p.Respects ρ → t.Takes ρ b → ∀ s o v fact,
          (recorded p f s o).factAt? v b = some fact → fact.Holds ρ v) ∧
    ((∀ path k b, p.IsPath f path → path[k]? = some b → b ∈ (p.func f).blocks → p.HasSigma b →
      p.Arrives path k b) ↔ ∀ b, (p.func f).blocks[0]? = some b → ¬ p.HasSigma b) := by
  refine ⟨fun path k b hPath hk hb hSigma => ?_, fun h b hFirst hSigma => ?_,
    fun h path k b hPath hk hb hSigma => ?_⟩
  · obtain ⟨q, hq, hPreds, hEdge⟩ := hPath.arrives hp.linked hf hk hb hSigma
    obtain ⟨t, ht, hSucc⟩ := hp.layout.paired.exists_term hEdge
    refine ⟨q, t, hq, hPreds, ht, hSucc, fun ρ hρ hTakes s o v fact hFact => ?_⟩
    exact (truthful_recorded hp.linked hρ f s o).holds_of_preds hp.linked hPreds ht hTakes hFact
  · -- the path that ends where it starts
    obtain ⟨j, q, hk, -⟩ := h [b] 0 b (isPath_singleton hFirst) rfl
      (Array.mem_of_getElem? hFirst) hSigma
    cases hk
  · cases k with
    | zero =>
      rw [← List.head?_eq_getElem?, hPath.first] at hk
      exact absurd hSigma (h b hk)
    | succ k =>
      obtain ⟨q, hq, hPreds, -⟩ := hPath.arrives hp.linked hf hk hb hSigma
      exact ⟨k, q, rfl, hq, hPreds⟩

/-- When the loop is entered once more, it is from itself, and the parameter is at most ten. -/
theorem reentrant_entered_by_edge : Constructed reentrant ∧ reentrant.check 0 = none ∧
    reentrant.IsPath 0 [0, 0] ∧ reentrant.HasSigma 0 ∧ (reentrant.block 0).preds = [0] ∧
    ∃ fact, (recorded reentrant 0 (.ofWidth 8) ⟨.cousot, 8, false⟩).factAt? 0 0 = some fact ∧
      fact.Holds (fun _ => 10) 0 := by
  have hf : reentrant.check 0 = none := by decide +kernel
  have hPath : reentrant.IsPath 0 [0, 0] :=
    ⟨by decide +kernel, List.isChain_pair.mpr (by decide +kernel)⟩
  have hSigma : reentrant.HasSigma 0 := by decide +kernel
  obtain ⟨hEdges, -⟩ := sigma_entered_by_edge reentrant_constructed hf
  obtain ⟨q, t, hq, hPreds, ht, -, hHolds⟩ := hEdges [0, 0] 0 0 hPath rfl (by decide +kernel) hSigma
  cases hq
  have hTest : (reentrant.block 0).term = some (.test (.known .sle) (some 0) (some 1) 0 1) := by
    decide +kernel
  cases hTest.symm.trans ht
  have hFact : (recorded reentrant 0 (.ofWidth 8) ⟨.cousot, 8, false⟩).factAt? 0 0 =
      some (.within (Sentinels.interval (.ofWidth 8) (-128) 10)) := by
    decide +kernel
  have hTaken := hHolds (fun _ => 10) (respects_const (by decide +kernel))
    (.inl ⟨Int.le_refl 10, rfl⟩)
  exact ⟨reentrant_constructed, hf, hPath, hSigma, hPreds, _, hFact, hTaken _ _ _ _ hFact⟩

/-- When the loop is entered first, it is from nowhere, and the parameter may be more than ten,
although it is told to be at most ten. -/
theorem reentrant_entered_first : Constructed reentrant ∧ reentrant.check 0 = none ∧
    reentrant.IsPath 0 [0] ∧ reentrant.HasSigma 0 ∧ ¬ reentrant.Arrives [0] 0 0 ∧
    ∃ fact, (recorded reentrant 0 (.ofWidth 8) ⟨.cousot, 8, false⟩).factAt? 0 0 = some fact ∧
      ¬ fact.Holds (fun v => if v = 0 then 11 else 10) 0 := by
  refine ⟨reentrant_constructed, by decide +kernel, isPath_singleton (by decide +kernel),
    by decide +kernel, ?_, .within (Sentinels.interval (.ofWidth 8) (-128) 10),
    by decide +kernel, ?_⟩
  · rintro ⟨j, q, h, -⟩
    cases h
  · unfold Fact.Holds Range.Admits
    decide +kernel

end Graph

end ValueRange
