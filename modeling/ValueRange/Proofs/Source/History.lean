import ValueRange.Proofs.Source.Rendering

/-! Functions that are declared and lowered one after another. Each stands in the program once it is
lowered, and what happens afterwards does not touch it. -/

namespace ValueRange.Source.Lowering

open Program (Regular Extends Writes Quiet)

variable {pkg : Package} {rules : Rules} {f : Func} {t : FuncId} {base : BlockId}
  {s s' : Lowering} {frames : List Frame} {i : Nat}

/-! ### The start of a function -/

theorem eq_length_of_range {n x : Nat} {done rest : List Nat}
    (h : List.range n = done ++ x :: rest) : x = done.length := by
  have hx : (List.range n)[done.length]? = some x := by
    rw [h, List.getElem?_append_right (Nat.le_refl _), Nat.sub_self]
    rfl
  obtain ⟨hlt, hx⟩ := List.getElem?_eq_some_iff.mp hx
  rw [← hx, List.getElem_range]

/-- A function without blocks is given so many, which are empty. -/
theorem addBlocks_ensures (ht : t < s.program.functions.size)
    (hBare : (s.program.func t).blocks = #[]) (hBase : base = s.program.blocks.size)
    (name : Nat → String) (n : Nat) :
    Ensures s ((List.range n).mapM fun b => extend (Program.addBlock t (name b))) fun ids s' =>
      ids = (List.range n).map (base + ·) ∧ ∃ p', s' = { s with program := p' } ∧
        Extends t base s.program p' ∧ (p'.func t).blocks = ids.toArray ∧
        (∀ k < n, p'.Houses t (base + k)) ∧
        ∀ b, base ≤ b → (p'.block b).instrs = #[] ∧ (p'.block b).term = none := by
  refine (Ensures.mapM (I := fun done ids s' => ids = done.map (base + ·) ∧
    ∃ p', s' = { s with program := p' } ∧ p'.blocks.size = base + done.length ∧
      Extends t base s.program p' ∧ (p'.func t).blocks = ids.toArray ∧
      (∀ k ∈ done, p'.Houses t (base + k)) ∧
      ∀ b, base ≤ b → (p'.block b).instrs = #[] ∧ (p'.block b).term = none)
    ⟨rfl, s.program, rfl, hBase.symm, .refl t base _, hBare, nofun, fun b hb => ?_⟩ ?_).mono ?_
  · rw [Program.block_of_le (hBase ▸ hb)]
    exact ⟨rfl, rfl⟩
  · rintro done k rest ids _ hSplit ⟨rfl, p₁, rfl, hSize, hExt, hLists, hHouses, hEmpty⟩
    obtain rfl := eq_length_of_range hSplit
    have hExt₂ : Extends t base p₁ ((Program.addBlock t (name done.length)).run p₁).2 :=
      Program.extends_addBlock (Nat.lt_of_lt_of_le ht hExt.functions)
        (hSize ▸ Nat.le_add_right base _) _
    have hNew := Program.houses_addBlock t (name done.length) p₁
    rw [hSize] at hNew
    refine ⟨?_, ((Program.addBlock t (name done.length)).run p₁).2, rfl, ?_, hExt.trans hExt₂, ?_,
      fun k hk => ?_, fun b hb => ?_⟩
    · rw [List.map_append, List.map_singleton, ← hSize]
      rfl
    · rw [List.length_append]
      exact (Array.size_push _).trans (congrArg (· + 1) hSize)
    · rw [Program.func_addBlock, if_pos ⟨rfl, Nat.lt_of_lt_of_le ht hExt.functions⟩]
      exact (congrArg (·.push p₁.blocks.size) hLists).trans (List.push_toArray _ _)
    · rcases List.mem_append.mp hk with hk | hk
      · exact hExt₂.houses (hHouses k hk)
      · exact List.mem_singleton.mp hk ▸ hNew
    · rw [Program.block_addBlock]
      split
      · exact ⟨rfl, rfl⟩
      · exact hEmpty b hb
  · rintro ids _ ⟨rfl, p', rfl, -, hExt, hLists, hHouses, hEmpty⟩
    exact ⟨rfl, p', rfl, hExt, hLists, fun k hk => hHouses k (List.mem_range.mpr hk), hEmpty⟩

/-- At first, the parameters that are integers stand for themselves. -/
theorem lookup_paramValues {v : Operand} {x : ValueId} {params : List ValueId}
    (h : (paramValues rules f params).lookup v = some x) :
    (∃ k, v = .param k) ∧ (typeOf? rules f v).isSome ∧ x ∈ params := by
  obtain ⟨hv, hx⟩ := List.of_mem_zip (Program.mem_of_lookup h)
  obtain ⟨hParam, hType⟩ := List.mem_filter.mp hv
  obtain ⟨k, -, rfl⟩ := List.mem_map.mp hParam
  exact ⟨⟨k, rfl⟩, hType, hx⟩

theorem plain_of_param {p : Program} (hp : Regular p) {x : ValueId} (hx : x ∈ (p.func t).params) :
    Plain p t x := by
  have hOwned := hp.made.owned
  refine ⟨⟨hOwned.value_lt (hOwned.param hx), hOwned.owner (hOwned.param hx)⟩,
    fun b j hj hResult => ?_⟩
  exact absurd hResult (hp.made.tidy.param_ne_result hx hj)

/-- A function whose blocks are empty is drafted as far as nothing of it is done. -/
theorem draft_start {p : Program} (hp : Regular p) (hDeclares : Declares s)
    (hFunctions : s.program.functions.size ≤ p.functions.size) (i : Nat)
    (hLists : (p.func t).blocks = ((List.range f.blocks.size).map (base + ·)).toArray)
    (hHouses : ∀ k < f.blocks.size, p.Houses t (base + k))
    (hEmpty : ∀ b, base ≤ b → (p.block b).instrs = #[] ∧ (p.block b).term = none) :
    Draft pkg rules f t base [] [] { s with
      program := p
      frame := ⟨i, t, ((List.range f.blocks.size).map (base + ·)).toArray,
        paramValues rules f (p.func t).params.toList, []⟩ } where
  working := by
    refine ⟨hp, ⟨fun hg => Nat.lt_of_lt_of_le (hDeclares.lt hg) hFunctions, hDeclares.inj⟩, rfl,
      fun {k} hk => ?_, hHouses _, hLists, ?_, fun {v x} hx => ?_, nofun⟩
    · rw [Array.getD_eq_getD_getElem?, List.getElem?_toArray, List.getElem?_map,
        List.getElem?_range hk]
      rfl
    · rw [List.size_toArray, List.length_map, List.length_range]
    · obtain ⟨-, hType, hMem⟩ := lookup_paramValues hx
      exact ⟨plain_of_param hp (Array.mem_toList_iff.mp hMem), hType⟩
  unended hb := (hEmpty _ hb).2
  kind _ hi := by
    rw [(hEmpty _ (Nat.le_add_right base _)).1] at hi
    exact absurd hi (Array.not_mem_empty _)
  sigma := nofun
  result := nofun
  keys hx := by
    obtain ⟨⟨k, hk⟩, -⟩ := lookup_paramValues hx
    cases hk
  increasing := .nil
  awaits := nofun
  integers := nofun

/-! ### Functions on their own -/

/-- What lowering a function gives: the function stands in the program, whose other functions keep
their blocks. -/
structure Lowers (pkg : Package) (rules : Rules) (i : Nat) (base : BlockId) (frame : Frame)
    (s s' : Lowering) : Prop where
  source : frame.source = i
  program : Extends frame.target base s.program s'.program
  older {g : FuncId} {b : BlockId} : s.program.Houses g b → b < base
  declares : Declares s'
  declared : s'.declared.lookup i = some frame.target
  kept {j : Nat} {g : FuncId} : s.declared.lookup j = some g → s'.declared.lookup j = some g
  new {j : Nat} {g : FuncId} : s'.declared.lookup j = some g →
    s.declared.lookup j = some g ∨ s.program.functions.size ≤ g
  rendered : Rendered pkg rules (pkg.func i) base (List.range (pkg.func i).blocks.size) frame
    s'.program

theorem lowerFunction_ensures (hp : Regular s.program) (hDeclares : Declares s)
    (hf : (pkg.func i).Formed rules)
    (hBare : ∀ g, s.declared.lookup i = some g → (s.program.func g).blocks = #[]) :
    Ensures s (lowerFunction pkg rules i) fun frame s' =>
      ∃ base, Lowers pkg rules i base frame s s' := by
  unfold lowerFunction
  dsimp only
  refine Ensures.bind (Q := fun t s₁ => Declared t s₁.program.blocks.size s s₁ ∧
    s₁.declared.lookup i = some t) (declare_ensures _ _ hp i) ?_
  rintro t s₁ ⟨hDeclared, ht⟩
  -- the blocks of the function follow those that there are once it is declared
  generalize hBase : s₁.program.blocks.size = base at hDeclared
  have hDeclares₁ := hDeclared.declares hDeclares
  have hBare₁ : (s₁.program.func t).blocks = #[] := by
    rw [hDeclared.quiet.lists]
    rcases hDeclared.new ht with hOld | hLe
    · exact hBare t hOld
    · rw [Program.func_of_le hLe]
      rfl
  refine (addBlocks_ensures (hDeclares₁.lt ht) hBare₁ hBase.symm _ _).bind ?_
  rintro _ _ ⟨rfl, p₂, rfl, hExt₂, hLists, hHouses, hEmpty⟩
  refine .modify_bind ?_
  have hExt := hDeclared.program.trans hExt₂
  have hDraft : Draft pkg rules (pkg.func i) t base [] [] _ :=
    draft_start (hExt.regular hp) hDeclares₁ hExt₂.functions i hLists hHouses hEmpty
  refine (allSigmas_ensures hf hDraft _).bind ?_
  rintro sigmas s₃ ⟨hDraft₃, hOnward₃, hPlaced⟩
  refine (allInstrs_ensures hf hDraft₃).bind ?_
  rintro results s₄ ⟨hDraft₄, hOnward₄, hSame⟩
  refine (settleAll_ensures hf.entry hDraft₄).bind fun _ s₅ hResolved => ?_
  have hRendered := hResolved.rendered hDraft₄ (by rw [Placed, hSame]; exact hPlaced)
  refine (terminateAll_ensures hf hResolved.working hRendered fun b _ => ?_).bind ?_
  · exact (hResolved.settles.writes.term _).trans (hDraft₄.unended (Nat.le_add_right base b))
  rintro _ s₆ ⟨hWork, hOnward₆, hDone⟩
  have hOnward := ((hOnward₃.trans hOnward₄).trans hResolved.settles.toOnward).trans hOnward₆
  refine .get_bind (.pure ⟨base, hOnward.source, ?_, fun hb => ?_, hWork.declares, ?_,
    fun hg => hOnward.declared (hDeclared.declared hg), fun {j g} hg => ?_, hDone⟩)
  · rw [hWork.target]
    exact hExt.trans hOnward.program
  · exact hBase ▸ (hDeclared.program.houses hb).1
  · rw [hWork.target]
    exact hOnward.declared ht
  · rcases hOnward.new hg with hOld | hLe
    · exact hDeclared.new hOld
    · exact .inr (Nat.le_trans hExt.functions hLe)

/-! ### One function after another -/

/-- What may happen to functions of a package, with the frames of those that are lowered: each is
declared at any time and lowered once. -/
inductive History (pkg : Package) (rules : Rules) : List Frame → Lowering → Prop
  | start : History pkg rules [] ⟨.start, [], default⟩
  | declare {frames : List Frame} {s : Lowering} (h : History pkg rules frames s) (i : Nat) :
      History pkg rules frames ((Lowering.declare pkg rules i).run s).2
  | lower {frames : List Frame} {s : Lowering} (h : History pkg rules frames s) {i : Nat}
      (hf : (pkg.func i).Formed rules) (hNew : ∀ frame ∈ frames, frame.source ≠ i) :
      History pkg rules (frames ++ [((lowerFunction pkg rules i).run s).1])
        ((lowerFunction pkg rules i).run s).2

/-- The functions that are lowered stand in the program, each on its own. -/
structure Sound (pkg : Package) (rules : Rules) (frames : List Frame) (s : Lowering) : Prop where
  regular : Regular s.program
  declares : Declares s
  formed {frame : Frame} : frame ∈ frames → (pkg.func frame.source).Formed rules
  declared {frame : Frame} : frame ∈ frames → s.declared.lookup frame.source = some frame.target
  rendered {frame : Frame} : frame ∈ frames → ∃ base,
    Rendered pkg rules (pkg.func frame.source) base
      (List.range (pkg.func frame.source).blocks.size) frame s.program
  bare {i : Nat} {g : FuncId} : s.declared.lookup i = some g →
    (∀ frame ∈ frames, frame.source ≠ i) → (s.program.func g).blocks = #[]

theorem sound_start : Sound pkg rules [] ⟨.start, [], default⟩ :=
  ⟨Program.regular_start, ⟨nofun, nofun⟩, nofun, nofun, nofun, nofun⟩

/-- A function that stands in the program is not touched when another one is worked on. -/
theorem Rendered.other {p p' : Program} {frame : Frame} {t' : FuncId} {base' : BlockId}
    (h : Rendered pkg rules f base (List.range f.blocks.size) frame p) (hp : Regular p)
    (hExt : Extends t' base' p p') (hOlder : ∀ {g b}, p.Houses g b → b < base')
    (hne : frame.target ≠ t') :
    Rendered pkg rules f base (List.range f.blocks.size) frame p' := by
  have hBlock (k : Nat) (hk : k < f.blocks.size) : p'.block (base + k) = p.block (base + k) :=
    hExt.block (hOlder (h.houses hk))
  refine h.carry hp hExt (hExt.lists hne) (fun k hk => by rw [hBlock k hk]) fun b hb => ?_
  rw [hBlock b (List.mem_range.mp hb)]
  exact h.term hb

/-- What becomes of functions that are declared and not lowered. -/
theorem Sound.bare_step (h : Sound pkg rules frames s)
    (hLists : ∀ {g}, s'.declared.lookup i = some g →
      (s'.program.func g).blocks = (s.program.func g).blocks)
    (hNew : ∀ {g}, s'.declared.lookup i = some g →
      s.declared.lookup i = some g ∨ s.program.functions.size ≤ g) {g : FuncId}
    (hg : s'.declared.lookup i = some g) (hNot : ∀ frame ∈ frames, frame.source ≠ i) :
    (s'.program.func g).blocks = #[] := by
  rw [hLists hg]
  rcases hNew hg with hOld | hLe
  · exact h.bare hOld hNot
  · rw [Program.func_of_le hLe]
    rfl

theorem Sound.declare (h : Sound pkg rules frames s) (i : Nat) :
    Sound pkg rules frames ((Lowering.declare pkg rules i).run s).2 := by
  have hDeclared (t : FuncId) (base : BlockId) :
      Declared t base s ((Lowering.declare pkg rules i).run s).2 :=
    (declare_ensures t base h.regular i).1
  have hStep := hDeclared 0 0
  refine ⟨hStep.program.regular h.regular, hStep.declares h.declares, h.formed,
    fun hFrame => hStep.declared (h.declared hFrame), fun {frame} hFrame => ?_,
    h.bare_step (fun _ => hStep.quiet.lists _) hStep.new⟩
  obtain ⟨base, hRendered⟩ := h.rendered hFrame
  exact ⟨base, hRendered.other h.regular
    (hDeclared (frame.target + 1) s.program.blocks.size).program (·.1)
    (Nat.ne_of_lt (Nat.lt_succ_self _))⟩

theorem Sound.lower (h : Sound pkg rules frames s) (hf : (pkg.func i).Formed rules)
    (hNew : ∀ frame ∈ frames, frame.source ≠ i) :
    Sound pkg rules (frames ++ [((lowerFunction pkg rules i).run s).1])
      ((lowerFunction pkg rules i).run s).2 := by
  obtain ⟨base, hLowers⟩ := lowerFunction_ensures h.regular h.declares hf
    fun g hg => h.bare hg hNew
  generalize ((lowerFunction pkg rules i).run s).1 = last at hLowers ⊢
  generalize ((lowerFunction pkg rules i).run s).2 = s' at hLowers ⊢
  have hSource := hLowers.source
  -- functions of the package that differ have different ones of the program
  have hOther {j : Nat} {g : FuncId} (hg : s'.declared.lookup j = some g) (hj : j ≠ i) :
      g ≠ last.target := fun hEq => hj (hLowers.declares.inj (hEq ▸ hg) hLowers.declared)
  refine ⟨hLowers.program.regular h.regular, hLowers.declares, fun {frame} hFrame => ?_,
    fun {frame} hFrame => ?_, fun {frame} hFrame => ?_, fun {j g} hg hNot => ?_⟩
  · rcases List.mem_append.mp hFrame with hFrame | hFrame
    · exact h.formed hFrame
    · obtain rfl := List.mem_singleton.mp hFrame
      exact hSource ▸ hf
  · rcases List.mem_append.mp hFrame with hFrame | hFrame
    · exact hLowers.kept (h.declared hFrame)
    · obtain rfl := List.mem_singleton.mp hFrame
      exact hSource ▸ hLowers.declared
  · rcases List.mem_append.mp hFrame with hFrame | hFrame
    · obtain ⟨base', hRendered⟩ := h.rendered hFrame
      exact ⟨base', hRendered.other h.regular hLowers.program hLowers.older
        (hOther (hLowers.kept (h.declared hFrame)) (hNew frame hFrame))⟩
    · obtain rfl := List.mem_singleton.mp hFrame
      exact ⟨base, hSource ▸ hLowers.rendered⟩
  · have hj : j ≠ i := fun hEq =>
      hNot last (List.mem_append_right _ List.mem_cons_self) (hSource.trans hEq.symm)
    exact h.bare_step (fun hg => hLowers.program.lists (hOther hg hj)) hLowers.new hg
      fun frame hFrame => hNot frame (List.mem_append_left _ hFrame)

theorem History.sound (h : History pkg rules frames s) : Sound pkg rules frames s := by
  induction h with
  | start => exact sound_start
  | declare _ i ih => exact ih.declare i
  | lower _ hf hNew ih => exact ih.lower hf hNew

/-- Lowering functions in order, each once. -/
theorem history_mapM {order : List Nat} (hOnce : order.Nodup)
    (hf : ∀ i ∈ order, (pkg.func i).Formed rules) :
    Ensures ⟨.start, [], default⟩ (order.mapM (lowerFunction pkg rules)) fun frames s =>
      frames.map (·.source) = order ∧ History pkg rules frames s := by
  refine Ensures.mapM (I := fun done frames s => frames.map (·.source) = done ∧
    History pkg rules frames s) ⟨rfl, .start⟩ ?_
  rintro done i rest frames s₁ hSplit ⟨hDone, hHistory⟩
  have hi := hf i (hSplit ▸ List.mem_append_right done List.mem_cons_self)
  have hNew (frame : Frame) (hFrame : frame ∈ frames) : frame.source ≠ i := by
    rintro rfl
    rw [hSplit] at hOnce
    exact (List.nodup_middle.mp hOnce).notMem
      (List.mem_append_left _ (hDone ▸ List.mem_map_of_mem hFrame))
  have hSound := hHistory.sound
  obtain ⟨base, hLowers⟩ := lowerFunction_ensures hSound.regular hSound.declares hi
    fun g hg => hSound.bare hg hNew
  refine ⟨?_, hHistory.lower hi hNew⟩
  rw [List.map_append, hDone, List.map_singleton, hLowers.source]

/-- Lowering a package is such a history. -/
theorem history_lower (hf : ∀ i ∈ pkg.listed, (pkg.func i).Formed rules) :
    ∃ s : Lowering, s.program = (pkg.lower rules).program ∧
      (pkg.lower rules).frames.map (·.source) = pkg.listed ∧
      History pkg rules (pkg.lower rules).frames s :=
  ⟨_, rfl, history_mapM (List.nodup_range.filter _) hf⟩

/-! ### An example -/

/-- A function of `x` that calls itself with `x + 1` if `x < 10` and else returns `x`. -/
def bounded : Func where
  name := "bounded"
  isListed := true
  hasBody := true
  isExported := false
  isClosure := false
  isMethod := false
  isLocal := false
  object := none
  objectIsLocal := false
  params := [⟨"x", .word false⟩]
  free := []
  resultCount := 1
  blocks := #[
    ⟨"entry", [], [1, 2], none, #[
      ⟨.binary "<", "t0", some (.other "bool"),
        [some (.param 0), some (.const (.word false) (some 10))]⟩,
      ⟨.test, "", none, [some (.result 0 0)]⟩]⟩,
    ⟨"if.then", [0], [], some 0, #[
      ⟨.binary "+", "t1", some (.word false),
        [some (.param 0), some (.const (.word false) (some 1))]⟩,
      ⟨.call false none (some 0), "t2", some (.word false), [some (.func 0), some (.result 1 0)]⟩,
      ⟨.ret none, "", none, [some (.result 1 1)]⟩]⟩,
    ⟨"if.done", [0], [], some 0, #[⟨.ret none, "", none, [some (.param 0)]⟩]⟩]

/-- What lowering is told about the package of this function. -/
def boundedRules : Rules := Package.ownRules ⟨#[bounded]⟩ ⟨64⟩

theorem bounded_history : ∃ s frame,
    s.program = (Package.lower ⟨#[bounded]⟩ boundedRules).program ∧
      (Package.lower ⟨#[bounded]⟩ boundedRules).frames = [frame] ∧ frame.source = 0 ∧
      History ⟨#[bounded]⟩ boundedRules [frame] s := by
  have hFormed : ∀ i ∈ Package.listed ⟨#[bounded]⟩,
      (Package.func ⟨#[bounded]⟩ i).Formed boundedRules := by decide
  obtain ⟨s, hProgram, hSources, hHistory⟩ := history_lower hFormed
  have hListed : Package.listed ⟨#[bounded]⟩ = [0] := by decide
  rw [hListed] at hSources
  obtain ⟨frame, hFrames, hSource⟩ := List.map_eq_singleton_iff.mp hSources
  exact ⟨s, frame, hProgram, hFrames, hSource, hFrames ▸ hHistory⟩

/-- There is one way to each block of this function. -/
theorem path_bounded {b : Nat} {path : List Nat} (h : bounded.Path b path) :
    b = 0 ∧ path = [0] ∨ (b = 1 ∨ b = 2) ∧ path = [b, 0] := by
  induction h with
  | @start b hb hEntry =>
    match b, hb with
    | 0, _ => exact .inl ⟨rfl, rfl⟩
    | 1, _ => cases hEntry
    | 2, _ => cases hEntry
  | @step b c path _ hc ih =>
    rcases ih with ⟨rfl, rfl⟩ | ⟨rfl | rfl, rfl⟩
    · have hc : c ∈ [1, 2] := hc
      exact .inr ⟨by simpa using hc, rfl⟩
    · cases hc
    · cases hc

theorem dominatorTree_bounded : bounded.DominatorTree := by
  have hEntry : bounded.Path 0 [0] := .start (by decide) rfl
  have hBranch {b : Nat} (hb : b = 1 ∨ b = 2) : bounded.Path b [b, 0] :=
    .step hEntry (by rcases hb with rfl | rfl <;> decide)
  have hRoot {d : Nat} : bounded.Dominates d 0 ↔ d = 0 := by
    refine ⟨fun h => List.mem_singleton.mp (h _ hEntry), fun h path hPath => ?_⟩
    rcases path_bounded hPath with ⟨-, rfl⟩ | ⟨hb | hb, -⟩
    · exact List.mem_singleton.mpr h
    · cases hb
    · cases hb
  have hAbove {b d : Nat} (hb : b = 1 ∨ b = 2) : bounded.Dominates d b ↔ d = b ∨ d = 0 := by
    refine ⟨fun h => by simpa using h _ (hBranch hb), fun h path hPath => ?_⟩
    rcases path_bounded hPath with ⟨rfl, -⟩ | ⟨-, rfl⟩
    · rcases hb with hb | hb <;> cases hb
    · simpa using h
  have hCases {b : Nat} (hb : b < bounded.blocks.size) : b = 0 ∨ b = 1 ∨ b = 2 := by
    have hb : b < 3 := hb
    omega
  have hIdom {b : Nat} (hb : b = 1 ∨ b = 2) :
      bounded.StrictlyDominates 0 b ∧ ∀ c, bounded.StrictlyDominates c b → bounded.Dominates c 0 :=
    ⟨⟨by omega, (hAbove hb).mpr (.inr rfl)⟩,
      fun c hc => hRoot.mpr (((hAbove hb).mp hc.2).resolve_left hc.1)⟩
  refine ⟨rfl, fun {b} hb => ?_, fun {b d} hb hd => ?_, fun {b c} hb hNone hc => ?_⟩
  · rcases hCases hb with rfl | hb
    · exact ⟨_, hEntry⟩
    · exact ⟨_, hBranch hb⟩
  · rcases hCases hb with rfl | rfl | rfl
    · cases hd
    · cases hd
      exact hIdom (.inl rfl)
    · cases hd
      exact hIdom (.inr rfl)
  · rcases hCases hb with rfl | rfl | rfl
    · exact hRoot.mp hc
    · cases hNone
    · cases hNone

end ValueRange.Source.Lowering
