import Mathlib.Data.Finset.Card
import Mathlib.Data.Finset.Range
import ValueRange.Source.Function

/-! Dominance in the control flow graph of a function. A block dominates those that control reaches
only through it. Where every block names its immediate dominator, the way from a block up this tree
passes exactly its dominators, so that what is found first on it stands in the nearest one. -/

namespace ValueRange.Source.Func

variable (f : Func)

/-- Edges lead to blocks of the function, and blocks know where they come from. -/
structure Connected : Prop where
  succ_lt {b c : Nat} : c ∈ (f.block b).succs → c < f.blocks.size
  pred_lt {b c : Nat} : c ∈ (f.block b).preds → c < f.blocks.size
  pred_of_succ {b c : Nat} : c ∈ (f.block b).succs → b ∈ (f.block c).preds

/-- A way that control may take to a block: the blocks that it passes, the last first. It starts
where no other block leads to: at the entry, or where the function goes on after a panic. -/
inductive Path : Nat → List Nat → Prop
  | start {b : Nat} (hb : b < f.blocks.size) (hEntry : (f.block b).preds = []) : Path b [b]
  | step {b c : Nat} {path : List Nat} (h : Path b path) (hc : c ∈ (f.block b).succs) :
      Path c (c :: path)

/-- Every way to `b` passes `d`. -/
def Dominates (d b : Nat) : Prop := ∀ path, f.Path b path → d ∈ path

/-- The block `d` dominates `b` and is another one. -/
def StrictlyDominates (d b : Nat) : Prop := d ≠ b ∧ f.Dominates d b

/-- Control starts at the entry block, all blocks can be reached, and they name their immediate
dominators: the strict dominators that all their strict dominators dominate. -/
structure DominatorTree : Prop where
  entry : (f.block 0).preds = []
  reached {b : Nat} : b < f.blocks.size → ∃ path, f.Path b path
  idom {b d : Nat} : b < f.blocks.size → (f.block b).idom = some d →
    f.StrictlyDominates d b ∧ ∀ c, f.StrictlyDominates c b → f.Dominates c d
  root {b c : Nat} : b < f.blocks.size → (f.block b).idom = none → f.Dominates c b → c = b

variable {f} {b c d : Nat} {path : List Nat}

/-! ### Places -/

theorem lt_of_block_ne (h : f.block b ≠ default) : b < f.blocks.size := by
  refine Nat.not_le.mp fun hLe => h ?_
  rw [block, Array.getD_eq_getD_getElem?, Array.getElem?_eq_none hLe]
  rfl

theorem lt_of_mem_succs (h : c ∈ (f.block b).succs) : b < f.blocks.size := by
  refine lt_of_block_ne fun hEq => ?_
  rw [hEq] at h
  cases h

theorem lt_of_mem_preds (h : c ∈ (f.block b).preds) : b < f.blocks.size := by
  refine lt_of_block_ne fun hEq => ?_
  rw [hEq] at h
  cases h

theorem lt_of_preds (h : (f.block c).preds = [b]) : c < f.blocks.size :=
  lt_of_mem_preds (h ▸ List.mem_cons_self)

theorem lt_of_last? {instr : Instr} (h : f.last? b = some instr) : b < f.blocks.size := by
  refine lt_of_block_ne fun hEq => ?_
  rw [last?, hEq] at h
  cases h

theorem lt_of_instr? {n : Nat} {instr : Instr} (h : f.instr? b n = some instr) :
    b < f.blocks.size ∧ n < (f.block b).instrs.size := by
  refine ⟨lt_of_block_ne fun hEq => ?_, (Array.getElem?_eq_some_iff.mp h).1⟩
  rw [instr?, hEq] at h
  cases h

/-! ### Ways to a block -/

theorem Path.mem_self (h : f.Path b path) : b ∈ path := by
  cases h with
  | start => exact List.mem_cons_self
  | step => exact List.mem_cons_self

theorem Path.lt (h : f.Path b path) (hf : f.Connected) (hd : d ∈ path) : d < f.blocks.size := by
  induction h with
  | start hb => exact List.mem_singleton.mp hd ▸ hb
  | step _ hc ih =>
    rcases List.mem_cons.mp hd with rfl | hd
    · exact hf.succ_lt hc
    · exact ih hd

/-- A way passes a block on a way to that block. -/
theorem Path.exists_suffix (h : f.Path b path) (hd : d ∈ path) :
    ∃ path', f.Path d path' ∧ path' <:+ path ∧ (d ≠ b → path'.length < path.length) := by
  induction h with
  | start hb hEntry =>
    obtain rfl := List.mem_singleton.mp hd
    exact ⟨_, .start hb hEntry, List.suffix_refl _, fun hne => absurd rfl hne⟩
  | @step b c path h hc ih =>
    rcases List.mem_cons.mp hd with rfl | hd
    · exact ⟨_, .step h hc, List.suffix_refl _, fun hne => absurd rfl hne⟩
    · obtain ⟨path', hPath, hSuffix, -⟩ := ih hd
      exact ⟨path', hPath, hSuffix.trans (List.suffix_cons c path),
        fun _ => Nat.lt_succ_of_le hSuffix.length_le⟩

theorem Dominates.refl (f : Func) (b : Nat) : f.Dominates b b := fun _ => Path.mem_self

theorem Dominates.trans (h : f.Dominates c d) (h' : f.Dominates d b) : f.Dominates c b := by
  intro path hPath
  obtain ⟨path', hPath', hSuffix, -⟩ := hPath.exists_suffix (h' path hPath)
  exact hSuffix.subset (h path' hPath')

/-- On the shortest way to one of two blocks that dominate each other there is no room for both. -/
theorem Dominates.antisymm (h : f.Dominates d b) (h' : f.Dominates b d)
    (hb : ∃ path, f.Path b path) : d = b := by
  by_contra hne
  have hNone (n : Nat) : ∀ path, path.length = n → ¬ f.Path b path := by
    induction n using Nat.strongRecOn with
    | ind n ih =>
      intro path hLength hPath
      obtain ⟨path₁, hPath₁, -, hShort⟩ := hPath.exists_suffix (h path hPath)
      obtain ⟨path₂, hPath₂, hSuffix, -⟩ := hPath₁.exists_suffix (h' path₁ hPath₁)
      exact ih _ (hLength ▸ Nat.lt_of_le_of_lt hSuffix.length_le (hShort hne)) path₂ rfl hPath₂
  obtain ⟨path, hPath⟩ := hb
  exact hNone _ path rfl hPath

/-- The only predecessor of a block strictly dominates it. -/
theorem strictlyDominates_of_preds (hf : f.Connected) (hTree : f.DominatorTree)
    (hc : c < f.blocks.size) (hPreds : (f.block c).preds = [b]) : f.StrictlyDominates b c := by
  have hStep {b' : Nat} (h : c ∈ (f.block b').succs) : b' = b :=
    List.mem_singleton.mp (hPreds ▸ hf.pred_of_succ h)
  refine ⟨?_, fun path hPath => ?_⟩
  · rintro rfl
    -- a way to the block would come from the block itself
    have hNone {c' : Nat} {path : List Nat} (hPath : f.Path c' path) : c' ≠ b := by
      induction hPath with
      | start _ hEntry =>
        rintro rfl
        exact List.cons_ne_nil _ _ (hPreds.symm.trans hEntry)
      | step _ hSucc ih =>
        rintro rfl
        exact ih (hStep hSucc)
    obtain ⟨path, hPath⟩ := hTree.reached hc
    exact hNone hPath rfl
  · cases hPath with
    | start _ hEntry => exact absurd (hPreds.symm.trans hEntry) (List.cons_ne_nil _ _)
    | step hPath hSucc => exact List.mem_cons_of_mem c (hStep hSucc ▸ hPath.mem_self)

theorem Dominates.lt (h : f.Dominates d b) (hf : f.Connected) (hTree : f.DominatorTree)
    (hb : b < f.blocks.size) : d < f.blocks.size := by
  obtain ⟨path, hPath⟩ := hTree.reached hb
  exact hPath.lt hf (h path hPath)

/-! ### The dominators of a block -/

open Classical in
/-- The number of dominators of a block. -/
noncomputable def depth (f : Func) (b : Nat) : Nat :=
  ((Finset.range f.blocks.size).filter (f.Dominates · b)).card

theorem depth_le (f : Func) (b : Nat) : f.depth b ≤ f.blocks.size := by
  classical
  exact (Finset.card_filter_le _ _).trans (Nat.le_of_eq (Finset.card_range _))

theorem depth_pos (hb : b < f.blocks.size) : 0 < f.depth b := by
  classical
  exact Finset.card_pos.mpr ⟨b, Finset.mem_filter.mpr ⟨Finset.mem_range.mpr hb, .refl f b⟩⟩

theorem depth_le_depth (h : f.Dominates d b) : f.depth d ≤ f.depth b := by
  classical
  exact Finset.card_le_card (Finset.monotone_filter_right _ fun _ _ hc => hc.trans h)

theorem StrictlyDominates.depth_lt (h : f.StrictlyDominates d b) (hTree : f.DominatorTree)
    (hb : b < f.blocks.size) : f.depth d < f.depth b := by
  classical
  refine Finset.card_lt_card (Finset.ssubset_iff_of_subset
    (Finset.monotone_filter_right _ fun _ _ hc => hc.trans h.2) |>.mpr ⟨b, ?_, fun hMem => ?_⟩)
  · exact Finset.mem_filter.mpr ⟨Finset.mem_range.mpr hb, .refl f b⟩
  · exact h.1 (h.2.antisymm (Finset.mem_filter.mp hMem).2 (hTree.reached hb))

section Nearest

variable {α : Type} {g : Nat → Option α} {x : α} {n : Nat}

/-- What is found first on the way up from a block stands in its nearest dominator that has any. -/
theorem exists_nearest (hf : f.Connected) (hTree : f.DominatorTree) (hb : b < f.blocks.size)
    (h : (f.dominatorsWithin n b).findSome? g = some x) :
    ∃ d, f.Dominates d b ∧ g d = some x ∧
      ∀ c, f.StrictlyDominates d c → f.Dominates c b → g c = none := by
  induction n generalizing b with
  | zero => cases h
  | succ n ih =>
    rw [dominatorsWithin, List.findSome?_cons] at h
    cases hg : g b with
    | some y =>
      rw [hg] at h
      refine ⟨b, .refl f b, hg.trans h, fun c hc hcb => absurd ?_ hc.1⟩
      exact (hcb.antisymm hc.2 (hTree.reached hb)).symm
    | none =>
      rw [hg] at h
      cases hIdom : (f.block b).idom with
      | none =>
        rw [hIdom] at h
        cases h
      | some e =>
        rw [hIdom] at h
        obtain ⟨he, hAll⟩ := hTree.idom hb hIdom
        obtain ⟨d, hd, hgd, hNearer⟩ := ih (he.2.lt hf hTree hb) h
        refine ⟨d, hd.trans he.2, hgd, fun c hc hcb => ?_⟩
        by_cases hEq : c = b
        · exact hEq ▸ hg
        · exact hNearer c hc (hAll c ⟨hEq, hcb⟩)

/-- If nothing is found on the way up, no dominator has any. -/
theorem eq_none_of_dominates (hf : f.Connected) (hTree : f.DominatorTree)
    (hb : b < f.blocks.size) (hn : f.depth b ≤ n)
    (h : (f.dominatorsWithin n b).findSome? g = none) (hd : f.Dominates d b) : g d = none := by
  induction n generalizing b with
  | zero => exact absurd hn (Nat.not_le.mpr (depth_pos hb))
  | succ n ih =>
    rw [dominatorsWithin, List.findSome?_cons] at h
    cases hg : g b with
    | some y =>
      rw [hg] at h
      cases h
    | none =>
      rw [hg] at h
      by_cases hEq : d = b
      · exact hEq ▸ hg
      · cases hIdom : (f.block b).idom with
        | none => exact absurd (hTree.root hb hIdom hd) hEq
        | some e =>
          rw [hIdom] at h
          obtain ⟨he, hAll⟩ := hTree.idom hb hIdom
          exact ih (he.2.lt hf hTree hb)
            (Nat.le_of_lt_succ (Nat.lt_of_lt_of_le (he.depth_lt hTree hb) hn)) h (hAll d ⟨hEq, hd⟩)

end Nearest

end ValueRange.Source.Func
