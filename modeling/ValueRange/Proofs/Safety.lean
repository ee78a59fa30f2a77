import ValueRange.Analysis
import ValueRange.Proofs.Graph.Assembly
import ValueRange.Proofs.Graph.Lookups
import ValueRange.Proofs.Program.Decoding
import ValueRange.Proofs.Smt.Script

/-! Accepted modules are analysed without faults. Decoding a module refuses it or gives a program of
which graphs can be built and solved and scripts be written; at each moment of a solution all that
the graph refers to is there. -/

namespace ValueRange

namespace Graph

open Range

variable {g g' : Graph} {cs : Components} {m : Meet} {t : Task}

theorem ne_zero_of_mem_corners {s : Sentinels} {r o : Range} (ho : WellFormed s o)
    (hEmpty : o.isEmpty = false) (hZero : 0 ∉ o) {c : Extended × Extended} (hc : c ∈ r.corners o) :
    c.2 ≠ .fin 0 := by
  have hFin {n : Int} (h : o.sentinels.toExtended n = .fin 0) : n = 0 := by
    unfold Sentinels.toExtended at h
    split_ifs at h
    exact Extended.fin.inj h
  have hLe := ho.lower_le_upper hEmpty
  have hLower : o.ends.1 ≠ .fin 0 := by
    intro h
    exact hZero ⟨hEmpty, Int.le_of_eq (hFin h), hFin h ▸ hLe⟩
  have hUpper : o.ends.2 ≠ .fin 0 := by
    intro h
    exact hZero ⟨hEmpty, hFin h ▸ hLe, Int.le_of_eq (hFin h).symm⟩
  simp only [corners, List.mem_cons, List.not_mem_nil, or_false] at hc
  rcases hc with rfl | rfl | rfl | rfl
  · exact hLower
  · exact hUpper
  · exact hLower
  · exact hUpper

theorem Layout.intact (hLayout : Layout g cs) (hRegular : Regular g) (hFull : Full g)
    (hRanged : Ranged g) : Intact g where
  wired := hLayout.wired
  full := hFull
  ranged := hRanged
  component {n} hn := by
    refine ⟨cs.number n, ?_⟩
    unfold componentOf
    rw [hLayout.components]
    dsimp only
    rw [hLayout.arranged.getElem?_numberOf hn]
  divisor hEmpty hZero _ _ hc := ne_zero_of_mem_corners (hRegular.range _) hEmpty hZero hc

/-- Ranges are regular at each moment of a component. -/
theorem Task.Runs.regular_state (ht : t.Runs cs g) (i : Moment) : Regular (t.state g i) := by
  cases i with
  | widening turns => exact ht.regular_widening turns
  | frozen =>
    refine regular_of_range (g := t.widened g) (ht.regular_widening _) ?_ (range_frozen t g)
    exact (t.shape_state g .frozen).trans (t.shape_state g (.widening _)).symm
  | narrowing turns => exact ht.regular_narrowing turns
  | propagating evaluations => exact (ht.assigned_propagating evaluations).regular

theorem Intact.finish (h : Intact g) : Intact { g with solved := true } :=
  ⟨⟨⟨h.wired.sink_lt, h.wired.operand_lt, h.wired.bound_lt, h.wired.mem_uses, h.wired.mem_bounds⟩,
    h.wired.definition_iff⟩, h.full, h.ranged, h.component, h.divisor⟩

end Graph

open ValueRange.Graph

/-- What is built is a graph, and its solution goes from one intact graph to the next, each of which
is evaluated, written and drawn without a default. -/
def Completes (built : Except Fault Unit × Graph) : Prop :=
  ∃ g m cs, built = (.ok (), g) ∧ meetOf g.narrowing = .ok m ∧ g.seed.findComponents = .ok cs ∧
    (∀ k < cs.members.size, ∀ i,
      let h := (taskOf m cs k).state (before m cs (g.begun cs) k) i
      Intact h ∧ Covered h) ∧
    ∃ g', solveBuilt built = .ok g' ∧ Intact g' ∧ Covered g'

theorem completes_of_reaches {p : Program} {D : ValueId → Prop} {s : Sentinels} {o : Options}
    {g : Graph} (hTo : Reaches p D (empty s o) g)
    (hNarrowing : o.narrowing = .cousot ∨ o.narrowing = .crop) : Completes (.ok (), g) := by
  have hg := hTo.growth.unstarted
  have hFull := hTo.full (full_empty s o)
  rw [show o.narrowing = g.narrowing from hTo.growth.sameFrame.narrowing.symm] at hNarrowing
  obtain ⟨m, hMeet, hm⟩ := exists_tight hNarrowing
  obtain ⟨cs, hFind, hLayout⟩ := hg.wired.layout_begun hg.started
  have hRegular : Regular (g.begun cs) := ⟨(regular_seed hg.started).range⟩
  have hBegun : Full (g.begun cs) := by
    unfold begun seed
    rw [hg.started]
    exact hFull
  have hRanged : Ranged (g.begun cs) := ranged_seed hg.started
  have hMeetBegun : meetOf (g.begun cs).narrowing = .ok m := by
    unfold begun seed
    rw [hg.started]
    exact hMeet
  have hIntact {h : Graph} (hShape : h.shape = (g.begun cs).shape) (hr : Regular h)
      (hWrites : Writes (g.begun cs) h) : Intact h :=
    (hLayout.of_shape hShape).intact hr (hBegun.of_shape hShape) (hWrites.ranged hRanged)
  have hLast : Intact { before m cs (g.begun cs) cs.members.size with solved := true } :=
    Intact.finish (hIntact (shape_before m cs (g.begun cs) _)
      (regular_before hLayout hRegular hm (Nat.le_refl _)) (writes_before cs hMeetBegun _))
  refine ⟨g, m, cs, rfl, hMeet, hFind, fun k hk i => ?_, _, ?_, hLast, hLast.covered⟩
  · have hState := hIntact
      (((taskOf m cs k).shape_state _ i).trans (shape_before m cs (g.begun cs) k))
      ((runs_before hLayout hRegular hm hk).regular_state i)
      (Task.writes_state hMeetBegun (writes_before cs hMeetBegun k) i)
    exact ⟨hState, hState.covered⟩
  · unfold solveBuilt
    rw [solve_eq hg.solved hFind hMeet]
    rfl

/-- Several functions are analysed if each of them is, unless the analysis was called off before its
first function. -/
theorem analyzeAll_eq_ok_iff {canceled : Bool} {p : Program} {fs : List FuncId} {o : Options}
    {gs : List Graph} : analyzeAll canceled p fs o = .ok gs ↔
      (canceled = true → fs = []) ∧ (fs.map fun f => analyze p f o) = gs.map .ok := by
  unfold analyzeAll
  induction fs generalizing gs with
  | nil =>
    cases gs with
    | nil => exact ⟨fun _ => ⟨fun _ => rfl, rfl⟩, fun _ => rfl⟩
    | cons g gs => exact ⟨nofun, nofun⟩
  | cons f fs ih =>
    rw [List.mapM_cons]
    cases canceled with
    | true => exact ⟨nofun, fun h => absurd (h.1 rfl) (List.cons_ne_nil f fs)⟩
    | false =>
      simp only [Bool.false_eq_true, if_false, false_implies, true_and] at ih ⊢
      rw [List.map_cons]
      cases analyze p f o with
      | error e =>
        refine ⟨nofun, fun h => ?_⟩
        cases gs with
        | nil => cases h
        | cons g gs => cases (List.cons.inj h).1
      | ok g =>
        cases hRest : fs.mapM fun f => (analyze p f o).mapError AnalysisError.fault with
        | error e =>
          refine ⟨nofun, fun h => ?_⟩
          cases gs with
          | nil => cases h
          | cons g gs => cases hRest.symm.trans (ih.mpr (List.cons.inj h).2)
        | ok rest =>
          have hTail := ih.mp hRest
          constructor
          · intro h
            cases h
            rw [List.map_cons, hTail]
          · intro h
            cases gs with
            | nil => cases h
            | cons g' gs =>
              obtain ⟨hHead, hGs⟩ := List.cons.inj h
              cases hHead
              cases hRest.symm.trans (ih.mpr hGs)
              rfl
/-- Decoding a module never faults. If the module is accepted, the graphs of the module and of each
of its functions are built and solved without a fault, and so is the script of a value written: the
depth to which it follows definitions never runs out. -/
theorem decode_analyzable (d : List Document.Func) :
    (∀ f, decode d ≠ .error (.fault f)) ∧
    ∀ p, decode d = .ok p →
      (∀ o : Options, o.narrowing = .cousot ∨ o.narrowing = .crop →
        Completes (buildModule p 0 o) ∧
        ∀ f ∈ (p.moduleAt 0).functions, Completes (build p f o)) ∧
      ∀ v < p.values.size, ∀ assertions, (∀ t ∈ assertions, Smt.Term.Within p t) →
        ∃ s, Smt.script p v assertions = .ok s ∧
          ∀ depth, p.values.size ≤ depth → Smt.scriptTo p depth v assertions = .ok s := by
  have hDecode := decode_accepts d
  constructor
  · intro f hf
    rw [hf] at hDecode
    exact hDecode f rfl
  · intro p hp
    rw [hp] at hDecode
    refine ⟨fun o hNarrowing => ⟨?_, fun f hf => ?_⟩, fun v hv assertions h =>
      Smt.script_gives hDecode hv h⟩
    · obtain ⟨g, hBuild, hTo⟩ := buildModule_succeeds hDecode o
      rw [hBuild]
      exact completes_of_reaches hTo hNarrowing
    · obtain ⟨g, hBuild, hTo, -⟩ := build_succeeds hDecode.made (buildable_of_accepted hDecode hf) o
      rw [hBuild]
      exact completes_of_reaches hTo hNarrowing

/-- A function that counts to ten by calls of another one. -/
def tally : List Document.Func :=
  let instr (result op : String) (args : List String) (callee : String) : Document.Instr :=
    ⟨result, op, "i8", args, callee, none, none⟩
  let test : Document.Term :=
    ⟨"", some ["i", "slt", "10"], "body", "exit", "", [], "", none, none⟩
  [⟨"next", false, [⟨"x", "i8", some "0", none⟩],
      [⟨"entry", [instr "r" "add" ["x", "1"] ""],
        { (default : Document.Term) with ret := some ["r"] }⟩]⟩,
    ⟨"count", true, [],
      [⟨"entry", [], { (default : Document.Term) with jump := "head" }⟩,
        ⟨"head", [instr "i" "phi" ["0", "j"] ""], test⟩,
        ⟨"body", [instr "t" "sigma" ["i"] "", instr "j" "call" ["t"] "next"],
          { (default : Document.Term) with jump := "head" }⟩,
        ⟨"exit", [], { (default : Document.Term) with ret := some ["i"] }⟩]⟩]

/-- The module is accepted, and its calls are bound and its loop solved. -/
theorem tally_analyzable : ∃ p, decode tally = .ok p ∧ 0 < p.values.size ∧
    Completes (buildModule p 0 ⟨.crop, 0, false⟩) ∧
    (∀ f ∈ (p.moduleAt 0).functions, Completes (build p f ⟨.cousot, 0, false⟩)) ∧
    ∃ s, Smt.script p 0 [] = .ok s := by
  have hAccepted : ((decode tally).toOption.any fun p => decide (0 < p.values.size)) = true := by
    decide +kernel
  cases hp : decode tally with
  | error e =>
    rw [hp] at hAccepted
    cases hAccepted
  | ok p =>
    rw [hp] at hAccepted
    obtain ⟨hGraphs, hScripts⟩ := (decode_analyzable tally).2 p hp
    have hSize := of_decide_eq_true hAccepted
    obtain ⟨s, hs, -⟩ := hScripts 0 hSize [] nofun
    exact ⟨p, rfl, hSize, (hGraphs _ (.inr rfl)).1, (hGraphs _ (.inl rfl)).2, s, hs⟩

end ValueRange
