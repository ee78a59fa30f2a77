import ValueRange.Proofs.Graph.CountingSolution
import ValueRange.Proofs.Graph.Exactness
import ValueRange.Proofs.Range.Region

/-! Functions that count. A function whose loop counts up from a constant to a constant, one by one,
has the graph of such a loop: the test of the index gives the sigmas their regions, and each
instruction its operation, in order. So the ranges are those that the loop runs through. -/

namespace ValueRange

/-- The blocks and values of a function that counts. -/
structure Loop where
  entry : BlockId
  head : BlockId
  body : BlockId
  exit : BlockId
  first : ValueId
  limit : ValueId
  step : ValueId
  index : ValueId
  taken : ValueId
  next : ValueId
  last : ValueId

namespace Program

/-- The function counts from `a` up to `n` in signed integers of width `w`: the index starts with the
constant `a`, and while it is less than the constant `n`, one is added to it. -/
structure CountsUp (p : Program) (f : FuncId) (w a n : Int) (l : Loop) : Prop where
  params : (p.func f).params = #[]
  blocks : (p.func f).blocks = #[l.entry, l.head, l.body, l.exit]
  entry : (p.block l.entry).instrs = #[]
  entry_term : (p.block l.entry).term = some (.jump l.head)
  head : (p.block l.head).instrs = #[⟨.phi, some l.index, [some l.first, some l.next], none⟩]
  head_term : (p.block l.head).term =
    some (.test (.known .slt) (some l.index) (some l.limit) l.body l.exit)
  body : (p.block l.body).instrs = #[⟨.sigma, some l.taken, [some l.index], none⟩,
    ⟨.binary .add, some l.next, [some l.taken, some l.step], none⟩]
  body_term : (p.block l.body).term = some (.jump l.head)
  exit : (p.block l.exit).instrs = #[⟨.sigma, some l.last, [some l.index], none⟩]
  exit_term : (p.block l.exit).term = some (.ret [some l.last])
  typeOf : ∀ v ∈ (p.func f).values, p.typeOf v = .signed w
  first : l.first ∈ (p.func f).values ∧ (p.value l.first).const = some a
  limit : l.limit ∈ (p.func f).values ∧ (p.value l.limit).const = some n
  step : l.step ∈ (p.func f).values ∧ (p.value l.step).const = some 1

theorem Slot.site_eq {p : Program} {v : ValueId} {s : Option Site} (h : p.Slot v s) :
    (p.value v).site = s := by
  obtain ⟨x, hx, -, hSite⟩ := h
  rw [value, Array.getD_eq_getD_getElem?, hx]
  exact hSite

end Program

namespace Graph

open Program

variable {p : Program} {f : FuncId} {w a n : Int} {l : Loop} {g g' : Graph} {v x y : ValueId}
variable {b : BlockId}

/-! ### Operations in order -/

/-- The graphs have the same operations, and their branches tell the same. -/
structure SameRecord (g g' : Graph) : Prop where
  ops : g'.ops = g.ops
  factAt? (v : ValueId) (b : BlockId) : g'.factAt? v b = g.factAt? v b

/-- The second graph has one more operation, which defines the value, and its branches tell the
same. -/
structure Pushes (v : ValueId) (kind : Kind) (r : Range) (g g' : Graph) : Prop where
  ops : ∃ n, g'.valueAt? n = some v ∧ g'.ops = g.ops.push ⟨n, kind, r⟩
  factAt? (v : ValueId) (b : BlockId) : g'.factAt? v b = g.factAt? v b

theorem SameRecord.trans {g'' : Graph} (h : SameRecord g g') (h' : SameRecord g' g'') :
    SameRecord g g'' :=
  ⟨h'.ops.trans h.ops, fun v b => (h'.factAt? v b).trans (h.factAt? v b)⟩

theorem SameRecord.pushes {g'' : Graph} {kind : Kind} {r : Range} (h : SameRecord g g')
    (h' : Pushes v kind r g' g'') : Pushes v kind r g g'' :=
  ⟨h.ops ▸ h'.ops, fun v b => (h'.factAt? v b).trans (h.factAt? v b)⟩

/-- The graph is that of the loop: its operations are those of the instructions, in order, on the
nodes of their values. -/
structure Depicts (l : Loop) (n : Int) (c : Counter) (g : Graph) : Prop where
  ops : g.ops = c.ops g.sentinels n
  first : g.valueAt? c.first = some l.first
  step : g.valueAt? c.step = some l.step
  index : g.valueAt? c.index = some l.index
  taken : g.valueAt? c.taken = some l.taken
  next : g.valueAt? c.next = some l.next
  last : g.valueAt? c.last = some l.last

/-- What an action defines. -/
theorem Succeeds.traced {α : Type} {D E : ValueId → Prop} {action : GraphM α}
    {Q : α → Graph → Prop} (h : Succeeds p E g action Q) (hE : ∀ v, E v → D v) :
    Succeeds p D g action fun a g' => Q a g' ∧ Growth p E g g' :=
  (h.mono fun _ _ hTo hQ => ⟨hQ, hTo.growth⟩).weaken hE

/-- What the test of the index tells. -/
def indexFact (s : Sentinels) (n : Int) (l : Loop) : BranchFact :=
  ⟨l.body, l.exit, .within (Range.region s .slt (s.singleton n)),
    .within (Range.region s .sge (s.singleton n))⟩

/-- The graph that has no more than what the test of the index tells. -/
def tested (s : Sentinels) (o : Options) (n : Int) (l : Loop) : Graph :=
  { empty s o with branches := #[(l.index, indexFact s n l)] }

theorem undefined_tested (s : Sentinels) (o : Options) (n : Int) (l : Loop) (v : ValueId) :
    Undefined (tested s o n l) v := by
  intro m hm
  cases hm

theorem factAt?_tested (s : Sentinels) (o : Options) (n : Int) (l : Loop) (b : BlockId) :
    (tested s o n l).factAt? l.index b = BranchFact.at? (indexFact s n l) b := by
  have hFacts : (tested s o n l).branchFacts l.index = [indexFact s n l] := by
    simp [branchFacts, tested]
  unfold factAt?
  rw [hFacts, List.findSome?_cons]
  cases BranchFact.at? (indexFact s n l) b <;> rfl

section Regions

variable {s : Sentinels} (hn : s.Inner n)
include hn

theorem singleton_eq : s.singleton n = ⟨s, n, n, false⟩ :=
  Sentinels.interval_of_between hn.1.le le_rfl hn.2.le

theorem bounded_singleton : Range.Bounded s ⟨s, n, n, false⟩ := ⟨rfl, rfl, hn.1, le_rfl, hn.2⟩

theorem region_slt_singleton :
    Range.region s .slt (s.singleton n) = ⟨s, s.negInf, n - 1, false⟩ := by
  rw [singleton_eq hn]
  exact (bounded_singleton hn).region_slt

theorem region_sge_singleton : Range.region s .sge (s.singleton n) = ⟨s, n, s.posInf, false⟩ := by
  rw [singleton_eq hn]
  exact (bounded_singleton hn).region_sge

theorem factAt?_body (o : Options) (l : Loop) :
    (tested s o n l).factAt? l.index l.body = some (.within ⟨s, s.negInf, n - 1, false⟩) := by
  rw [factAt?_tested, ← region_slt_singleton hn]
  exact if_pos rfl

theorem factAt?_exit (o : Options) (hl : l.exit ≠ l.body) :
    (tested s o n l).factAt? l.index l.exit = some (.within ⟨s, n, s.posInf, false⟩) := by
  rw [factAt?_tested, ← region_sge_singleton hn]
  exact (if_neg hl).trans (if_pos rfl)

end Regions

section Steps

variable (hOpen : Extensible g)
include hOpen

theorem addValue_records (p : Program) (v : ValueId) :
    Succeeds p (fun _ => False) g (addValue p v) fun n g' =>
      g'.valueAt? n = some v ∧ SameRecord g g' := by
  obtain ⟨n, g', hRun, hTo, hn⟩ := addValue_succeeds hOpen p v
  refine ⟨n, g', hRun, hTo, hn, ?_⟩
  unfold addValue at hRun
  rw [run_get_bind] at hRun
  cases hNode : g.nodeOf? v with
  | some m =>
    rw [hNode] at hRun
    cases hRun
    exact ⟨rfl, fun _ _ => rfl⟩
  | none =>
    rw [hNode, run_bind, checkOpen, run_get_bind, hOpen.started] at hRun
    cases hRun
    exact ⟨rfl, fun _ _ => rfl⟩

theorem addValues_records (p : Program) (vs : List ValueId) :
    Succeeds p (fun _ => False) g (vs.mapM (addValue p)) fun ns g' =>
      ns.map g'.valueAt? = vs.map some ∧ SameRecord g g' := by
  induction vs generalizing g with
  | nil =>
    rw [List.mapM_nil]
    exact Succeeds.pure ⟨rfl, rfl, fun _ _ => rfl⟩
  | cons v vs ih =>
    rw [List.mapM_cons]
    refine Succeeds.bind (addValue_records hOpen p v) ?_
    rintro n g1 hTo1 ⟨hn, hSame1⟩
    refine Succeeds.bind (ih (hTo1.extensible hOpen)) ?_
    rintro ns g2 hTo2 ⟨hns, hSame2⟩
    refine Succeeds.pure ⟨?_, hSame1.trans hSame2⟩
    rw [List.map_cons, List.map_cons, hns, hTo2.growth.valueAt? hn]

theorem addOperation_pushes {kind : Kind} {r : Range} (hv : Undefined g v)
    (hKind : Admissible p g v kind r) (hFull : kind ≠ .phi []) :
    Succeeds p (· = v) g (addOperation p v kind r) fun _ g' => Pushes v kind r g g' := by
  unfold addOperation
  refine Succeeds.bind (checkOpen_succeeds hOpen) ?_
  rintro - g1 - rfl
  refine Succeeds.bind (addValue_records hOpen p v).quiet ?_
  rintro sink g2 hTo ⟨⟨hSink, hSame⟩, hGrowth⟩
  have hFree := hGrowth.undefined not_false hv sink hSink
  refine Succeeds.get_bind ?_
  rw [hFree]
  have hStep : Extension p (· = v) g2 (g2.pushOperation sink kind r) :=
    .operation (hTo.extensible hOpen).started hSink rfl hFree (hKind.grow hGrowth)
  refine ⟨g2.ops.size, g2.pushOperation sink kind r, rfl, ⟨.single hStep, fun hg op hOp => ?_⟩,
    hSame.pushes ⟨⟨sink, hStep.valueAt? hSink, rfl⟩, fun _ _ => rfl⟩⟩
  rcases Array.mem_push.mp hOp with hOp | rfl
  · exact hg op hOp
  · exact hFull

/-- An operation without a region of its own, after the nodes of its operands. -/
theorem addWhole_pushes {kind : Kind} (hRecord : SameRecord g g')
    (hGrowth : Growth p (fun _ => False) g g') (hv : Undefined g v)
    (hKind : Admissible p g' v kind g'.sentinels.max) (hFull : kind ≠ .phi []) :
    Succeeds p (· = v) g' (do return some (← addOperation p v kind (← get).sentinels.max))
      fun _ g'' => Pushes v kind g.sentinels.max g g'' ∧ Growth p (· = v) g' g'' := by
  refine Succeeds.get_bind (Succeeds.bind (addOperation_pushes (hGrowth.extensible hOpen)
    (hGrowth.undefined not_false hv) hKind hFull) fun _ g'' hTo h => Succeeds.pure ⟨?_, hTo.growth⟩)
  rw [← hGrowth.sameFrame.sentinels]
  exact hRecord.pushes h

theorem addInstr_phi (hInt : ∀ u ∈ [v, x, y], p.isInteger u = true) (hv : Undefined g v) :
    Succeeds p (· = v) g (addInstr p b ⟨.phi, some v, [some x, some y], none⟩) fun _ g' =>
      ∃ n m, g'.valueAt? n = some x ∧ g'.valueAt? m = some y ∧
        Pushes v (.phi [n, m]) g.sentinels.max g g' := by
  have hTracked : hasUntracked p [some x, some y] = .ok false := by simp [hasUntracked, hInt]
  unfold addInstr
  dsimp only
  rw [hInt v List.mem_cons_self]
  refine Succeeds.bind (Succeeds.lift hTracked) ?_
  rintro - g1 - ⟨rfl, rfl⟩
  refine Succeeds.bind (addValues_records hOpen p [x, y]).quiet ?_
  rintro ns g2 - ⟨⟨hns, hSame⟩, hGrowth⟩
  obtain ⟨n, m, rfl⟩ : ∃ n m, ns = [n, m] :=
    List.length_eq_two.mp ((List.length_map ..).symm.trans (congrArg List.length hns))
  refine (addWhole_pushes hOpen hSame hGrowth hv (admissible_phi (lt_of_map hns))
    (by simp)).mono ?_
  rintro - g3 - ⟨hPushes, hTo⟩
  simp only [List.map_cons, List.map_nil, List.cons.injEq, and_true] at hns
  exact ⟨n, m, hTo.valueAt? hns.1, hTo.valueAt? hns.2, hPushes⟩

theorem addInstr_binary {op : BinaryOp} (hInt : ∀ u ∈ [v, x, y], p.isInteger u = true)
    (hv : Undefined g v) :
    Succeeds p (· = v) g (addInstr p b ⟨.binary op, some v, [some x, some y], none⟩) fun _ g' =>
      ∃ n m, g'.valueAt? n = some x ∧ g'.valueAt? m = some y ∧
        Pushes v (.binary op n m) g.sentinels.max g g' := by
  have hTracked : hasUntracked p [some x, some y] = .ok false := by simp [hasUntracked, hInt]
  unfold addInstr
  dsimp only
  rw [hInt v List.mem_cons_self]
  refine Succeeds.bind (Succeeds.lift hTracked) ?_
  rintro - g1 - ⟨rfl, rfl⟩
  rw [show operandAt [some x, some y] 0 = pure x from rfl,
    show operandAt [some x, some y] 1 = pure y from rfl]
  simp only [Bool.false_eq_true, if_false, pure_bind]
  refine Succeeds.bind (addValue_records hOpen p x).quiet ?_
  rintro n g2 hTo2 ⟨⟨hn, hSame2⟩, hGrowth2⟩
  refine Succeeds.bind (addValue_records (hTo2.extensible hOpen) p y).quiet ?_
  rintro m g3 - ⟨⟨hm, hSame3⟩, hGrowth3⟩
  have hn := hGrowth3.valueAt? hn
  refine (addWhole_pushes hOpen (hSame2.trans hSame3) (hGrowth2.trans hGrowth3) hv
    (admissible_binary op (lt_of_valueAt? hn) (lt_of_valueAt? hm)) (by simp)).mono ?_
  rintro - g4 - ⟨hPushes, hTo⟩
  exact ⟨n, m, hTo.valueAt? hn, hTo.valueAt? hm, hPushes⟩

theorem addInstr_sigma {r : Range} (hInt : ∀ u ∈ [v, x], p.isInteger u = true)
    (hv : Undefined g v) (hFact : g.factAt? x b = some (.within r)) :
    Succeeds p (· = v) g (addInstr p b ⟨.sigma, some v, [some x], none⟩) fun _ g' =>
      ∃ n, g'.valueAt? n = some x ∧ Pushes v (.sigma n none) r g g' := by
  have hTracked : hasUntracked p [some x] = .ok false := by simp [hasUntracked, hInt]
  unfold addInstr
  dsimp only
  rw [hInt v List.mem_cons_self]
  refine Succeeds.bind (Succeeds.lift hTracked) ?_
  rintro - g1 - ⟨rfl, rfl⟩
  rw [show operandAt [some x] 0 = pure x from rfl]
  simp only [Bool.false_eq_true, if_false, pure_bind]
  refine Succeeds.bind (Q := fun _ g' => ∃ n, g'.valueAt? n = some x ∧
    Pushes v (.sigma n none) r g1 g') ?_ fun _ _ _ h => Succeeds.pure h
  unfold addSigma
  refine Succeeds.bind (addValue_records hOpen p x).quiet ?_
  rintro n g2 hTo ⟨⟨hn, hSame⟩, hGrowth⟩
  refine Succeeds.get_bind ?_
  rw [hSame.factAt?, hFact]
  have hKind : Admissible p g2 v (.sigma n none) r :=
    admissible_sigma (lt_of_valueAt? hn) (by simp) (absurd rfl)
  refine (addOperation_pushes (hTo.extensible hOpen) (hGrowth.undefined not_false hv) hKind
    (by simp)).mono fun _ g3 hTo3 h => ?_
  exact ⟨n, hTo3.growth.valueAt? hn, hSame.pushes h⟩

end Steps

end Graph

/-! ### The graph of a function that counts -/

namespace Program.CountsUp

open ValueRange.Graph

variable {p : Program} {f : FuncId} {w a n : Int} {l : Loop} {g : Graph} {v : ValueId} {s : Sentinels}
variable (h : CountsUp p f w a n l)
include h

theorem isInteger (hw : 0 < w) (hv : v ∈ (p.func f).values) : p.isInteger v = true := by
  rw [Program.isInteger, h.typeOf v hv]
  exact decide_eq_true hw

theorem instr_index : (p.block l.head).instrs[0]? =
    some ⟨.phi, some l.index, [some l.first, some l.next], none⟩ := by
  rw [h.head]
  rfl

theorem instr_taken : (p.block l.body).instrs[0]? =
    some ⟨.sigma, some l.taken, [some l.index], none⟩ := by
  rw [h.body]
  rfl

theorem instr_next : (p.block l.body).instrs[1]? =
    some ⟨.binary .add, some l.next, [some l.taken, some l.step], none⟩ := by
  rw [h.body]
  rfl

theorem instr_last : (p.block l.exit).instrs[0]? =
    some ⟨.sigma, some l.last, [some l.index], none⟩ := by
  rw [h.exit]
  rfl

variable (hp : p.Made)
include hp

theorem mem_values : l.index ∈ (p.func f).values ∧ l.taken ∈ (p.func f).values ∧
    l.next ∈ (p.func f).values ∧ l.last ∈ (p.func f).values :=
  ⟨hp.housed.values (by simp [h.blocks]) h.instr_index rfl,
    hp.housed.values (by simp [h.blocks]) h.instr_taken rfl,
    hp.housed.values (by simp [h.blocks]) h.instr_next rfl,
    hp.housed.values (by simp [h.blocks]) h.instr_last rfl⟩

theorem blocks_nodup : [l.entry, l.head, l.body, l.exit].Nodup := by
  have hNodup := hp.numbered.blocks f
  rwa [h.blocks] at hNodup

theorem exit_ne_body : l.exit ≠ l.body := by
  have hNodup := h.blocks_nodup hp
  simp only [List.nodup_cons, List.mem_cons, List.not_mem_nil, or_false, not_or] at hNodup
  exact Ne.symm hNodup.2.2.1

/-- Four instructions have four results. -/
theorem results_nodup : [l.index, l.taken, l.next, l.last].Nodup := by
  have hBlocks := h.blocks_nodup hp
  have hNe {b b' : BlockId} {k k' : Nat} {i i' : Instr} {v v' : ValueId}
      (hi : (p.block b).instrs[k]? = some i) (hi' : (p.block b').instrs[k']? = some i')
      (hv : i.result = some v) (hv' : i'.result = some v') (hne : b ≠ b' ∨ k ≠ k') : v ≠ v' := by
    rintro rfl
    cases hp.tidy.site_eq hi hi' hv hv'
    exact hne.elim (absurd rfl) (absurd rfl)
  simp only [List.nodup_cons, List.mem_cons, List.not_mem_nil, or_false, not_or] at hBlocks ⊢
  obtain ⟨-, ⟨hBody, hExit⟩, hEnd, -⟩ := hBlocks
  exact ⟨⟨hNe h.instr_index h.instr_taken rfl rfl (.inl hBody),
    hNe h.instr_index h.instr_next rfl rfl (.inl hBody),
    hNe h.instr_index h.instr_last rfl rfl (.inl hExit)⟩,
    ⟨hNe h.instr_taken h.instr_next rfl rfl (.inr (by decide)),
    hNe h.instr_taken h.instr_last rfl rfl (.inl hEnd)⟩,
    hNe h.instr_next h.instr_last rfl rfl (.inl hEnd), not_false, List.nodup_nil⟩

theorem addBranch_head (hw : 0 < w) (g : Graph) : (addBranch p l.head).run.run g =
    (.ok (), { g with branches := g.branches.push (l.index, indexFact g.sentinels n l) }) := by
  have hIndex := h.isInteger hw (h.mem_values hp).1
  have hLimit := h.isInteger hw h.limit.1
  have hSlot := hp.tidy.result h.instr_index rfl
  have hNe : (l.body == l.exit) = false := beq_eq_false_iff_ne.mpr (h.exit_ne_body hp).symm
  have hSite : (p.value l.index).site.bind p.instr? =
      some ⟨.phi, some l.index, [some l.first, some l.next], none⟩ := by
    rw [hSlot.site_eq]
    exact h.instr_index
  unfold addBranch
  rw [h.head_term]
  dsimp only
  unfold addTest
  simp only [hIndex, hLimit, hNe, hSlot.const_eq, h.limit.2, Bool.not_true, Bool.false_eq_true,
    if_false, Bool.or_self, Option.isSome_none, Option.isSome_some, Bool.and_true, Bool.not_false,
    if_true]
  have hFact : factOf p g.sentinels (.known .slt) l.limit l.body l.exit =
      .ok (indexFact g.sentinels n l) := by
    unfold factOf
    rw [h.limit.2]
    rfl
  rw [run_get_bind, run_bind, run_lift, hFact]
  simp only [run_bind]
  unfold addFact
  rw [run_modify_bind, hSite]
  rfl

/-- After the test of the index is recorded, the instructions add the operations of the loop. -/
theorem addInstrs_depicts (hw : 0 < w) (hOpen : Extensible g) (hOps : g.ops = #[])
    (hNew : ∀ v, Undefined g v)
    (hBody : g.factAt? l.index l.body =
      some (.within ⟨g.sentinels, g.sentinels.negInf, n - 1, false⟩))
    (hExit : g.factAt? l.index l.exit =
      some (.within ⟨g.sentinels, n, g.sentinels.posInf, false⟩)) :
    Succeeds p (p.Defines f) g (do
      let _ ← addInstr p l.head ⟨.phi, some l.index, [some l.first, some l.next], none⟩
      let _ ← addInstr p l.body ⟨.sigma, some l.taken, [some l.index], none⟩
      let _ ← addInstr p l.body ⟨.binary .add, some l.next, [some l.taken, some l.step], none⟩
      let _ ← addInstr p l.exit ⟨.sigma, some l.last, [some l.index], none⟩
      pure ()) fun _ g' => ∃ c, Depicts l n c g' := by
  have hInt {v : ValueId} (hv : v ∈ (p.func f).values) := h.isInteger hw hv
  obtain ⟨hIndex, hTaken, hNext, hLast⟩ := h.mem_values hp
  have hNodup := h.results_nodup hp
  simp only [List.nodup_cons, List.mem_cons, List.not_mem_nil, or_false, not_or] at hNodup
  obtain ⟨⟨hIndexTaken, hIndexNext, hIndexLast⟩, ⟨hTakenNext, hTakenLast⟩, hNextLast, -⟩ := hNodup
  have hDefines {b : BlockId} {k : Nat} {i : Instr} {v : ValueId} (hb : b ∈ (p.func f).blocks)
      (hi : (p.block b).instrs[k]? = some i) (hv : i.result = some v) (hCall : i.op ≠ .call)
      (u : ValueId) (hu : u = v) : p.Defines f u :=
    ⟨b, hb, i, Array.mem_of_getElem? hi, hu ▸ hv, hCall⟩
  -- the index
  refine Succeeds.bind (Succeeds.traced (addInstr_phi hOpen
    (by simp [hInt hIndex, hInt hNext, hInt h.first.1]) (hNew l.index))
    (hDefines (by simp [h.blocks]) h.instr_index rfl (by simp))) ?_
  rintro - g1 hTo1 ⟨⟨first, next, hFirst1, hNext1, hPush1⟩, hGrowth1⟩
  have hOpen1 := hTo1.extensible hOpen
  have hNew1 {v : ValueId} (hv : v ≠ l.index) := hGrowth1.undefined hv (hNew v)
  -- the index where the loop goes on
  refine Succeeds.bind (Succeeds.traced (addInstr_sigma hOpen1
    (by simp [hInt hIndex, hInt hTaken]) (hNew1 (Ne.symm hIndexTaken))
    ((hPush1.factAt? _ _).trans hBody))
    (hDefines (by simp [h.blocks]) h.instr_taken rfl (by simp))) ?_
  rintro - g2 hTo2 ⟨⟨index2, hIndex2, hPush2⟩, hGrowth2⟩
  have hOpen2 := hTo2.extensible hOpen1
  have hNew2 {v : ValueId} (hv : v ≠ l.index) (hv' : v ≠ l.taken) :=
    hGrowth2.undefined hv' (hNew1 hv)
  -- the next index
  refine Succeeds.bind (Succeeds.traced (addInstr_binary hOpen2
    (by simp [hInt hTaken, hInt hNext, hInt h.step.1])
    (hNew2 (Ne.symm hIndexNext) (Ne.symm hTakenNext)))
    (hDefines (by simp [h.blocks]) h.instr_next rfl (by simp))) ?_
  rintro - g3 hTo3 ⟨⟨taken3, step, hTaken3, hStep3, hPush3⟩, hGrowth3⟩
  have hOpen3 := hTo3.extensible hOpen2
  -- the index where the loop ends
  refine Succeeds.bind (Succeeds.traced (addInstr_sigma hOpen3
    (by simp [hInt hIndex, hInt hLast]) (hGrowth3.undefined (Ne.symm hNextLast)
      (hNew2 (Ne.symm hIndexLast) (Ne.symm hTakenLast)))
    ((hPush3.factAt? _ _).trans ((hPush2.factAt? _ _).trans ((hPush1.factAt? _ _).trans hExit))))
    (hDefines (by simp [h.blocks]) h.instr_last rfl (by simp))) ?_
  rintro - g4 hTo4 ⟨⟨index4, hIndex4, hPush4⟩, hGrowth4⟩
  obtain ⟨index, hIndex1, hOps1⟩ := hPush1.ops
  obtain ⟨taken, hTaken2, hOps2⟩ := hPush2.ops
  obtain ⟨next3, hNext3, hOps3⟩ := hPush3.ops
  obtain ⟨last, hLast4, hOps4⟩ := hPush4.ops
  have hKeep3 {m : NodeId} {v : ValueId} (hv : g3.valueAt? m = some v) := hGrowth4.valueAt? hv
  have hKeep2 {m : NodeId} {v : ValueId} (hv : g2.valueAt? m = some v) :=
    hKeep3 (hGrowth3.valueAt? hv)
  have hKeep1 {m : NodeId} {v : ValueId} (hv : g1.valueAt? m = some v) :=
    hKeep2 (hGrowth2.valueAt? hv)
  -- a value has one node, whichever instruction added it
  have hOpen4 := hTo4.extensible hOpen3
  cases hOpen4.injective (hKeep2 hIndex2) (hKeep1 hIndex1)
  cases hOpen4.injective hIndex4 (hKeep1 hIndex1)
  cases hOpen4.injective (hKeep3 hTaken3) (hKeep2 hTaken2)
  cases hOpen4.injective (hKeep3 hNext3) (hKeep1 hNext1)
  have hSentinels2 := (hGrowth2.sameFrame.sentinels).trans hGrowth1.sameFrame.sentinels
  have hSentinels4 := (hTo1.trans (hTo2.trans (hTo3.trans hTo4))).growth.sameFrame.sentinels
  refine Succeeds.pure ⟨⟨first, step, _, _, _, last⟩, ?_, hKeep1 hFirst1, hKeep3 hStep3,
    hKeep1 hIndex1, hKeep2 hTaken2, hKeep1 hNext1, hLast4⟩
  rw [hOps4, hOps3, hOps2, hOps1, hOps, hSentinels2, hSentinels4]
  rfl

/-- The graph of the function is that of the loop. -/
theorem addFunction_depicts (hw : 0 < w) (hn : s.Inner n) (o : Options) :
    Succeeds p (p.Defines f) (empty s o) (Graph.addFunction p f) fun _ g =>
      ∃ c, Depicts l n c g := by
  have hSilent {b : BlockId} {t : Terminator} (hb : (p.block b).term = some t)
      (ht : t = .jump l.head ∨ t = .ret [some l.last]) : addBranch p b = pure () := by
    unfold addBranch
    rw [hb]
    rcases ht with rfl | rfl <;> rfl
  unfold Graph.addFunction
  simp only [h.params, h.blocks, ← Array.forIn_toList, List.forIn_cons, List.forIn_nil, h.entry,
    h.head, h.body, h.exit, bind_assoc, pure_bind, hSilent h.entry_term (.inl rfl),
    hSilent h.body_term (.inl rfl), hSilent h.exit_term (.inr rfl)]
  refine Succeeds.bind (Q := fun _ g => g = tested s o n l)
    ⟨(), _, h.addBranch_head hp hw _, ⟨.single (.facts _ _), id⟩, rfl⟩ ?_
  rintro - g0 hTo rfl
  exact h.addInstrs_depicts hp hw (hTo.extensible (extensible_empty s o)) rfl (undefined_tested s o n l)
    (factAt?_body hn o l) (factAt?_exit hn o (h.exit_ne_body hp))

omit hp in
/-- All values have the width of the function. -/
theorem maxWidth_eq (hw : 0 < w) : p.maxWidth [f] = w := by
  have hWidth {v : ValueId} (hv : v ∈ (p.func f).values) : (p.typeOf v).signedWidth = w := by
    rw [h.typeOf v hv]
    rfl
  have hLe {vs : List ValueId} (hvs : ∀ v ∈ vs, v ∈ (p.func f).values) {k : Int} (hk : k ≤ w) :
      vs.foldl (fun w v => if p.isInteger v then Max.max w (p.typeOf v).signedWidth else w) k ≤
        w := by
    induction vs generalizing k with
    | nil => exact hk
    | cons v vs ih =>
      obtain ⟨hv, hvs⟩ := List.forall_mem_cons.mp hvs
      refine ih hvs ?_
      dsimp only
      rw [h.isInteger hw hv, if_pos rfl, hWidth hv]
      exact Int.max_le.mpr ⟨hk, Int.le_refl w⟩
  unfold maxWidth
  rw [List.flatMap_singleton]
  refine Int.le_antisymm (hLe (fun v hv => Array.mem_toList_iff.mp hv) (Int.le_of_lt hw)) ?_
  have hGe := signedWidth_le (Array.mem_toList_iff.mpr h.step.1) (h.isInteger hw h.step.1) 0
  rwa [hWidth h.step.1] at hGe

end Program.CountsUp

/-! ### Analysis -/

section Analysis

open ValueRange.Graph Program

variable {p : Program} {f : FuncId} {w a n : Int} {l : Loop} {o : Options} {g : Graph} {c : Counter}

/-- The sentinels of a width are the least and the greatest integer of its signed type. -/
theorem sentinels_ofWidth (hw : 2 ≤ w) :
    (Sentinels.ofWidth w).negInf = (IntType.signed w).minValue ∧
      (Sentinels.ofWidth w).posInf = (IntType.signed w).maxValue := by
  have hBits : (Sentinels.ofWidth w).bits - 1 = (w - 1).toNat := by
    rw [Sentinels.ofWidth, if_neg (by omega)]
    show Max.max 2 w.toNat - 1 = _
    omega
  unfold Sentinels.negInf Sentinels.posInf
  rw [hBits]
  exact ⟨rfl, rfl⟩

theorem Graph.Depicts.counting (h : Depicts l n c g) (hp : p.CountsUp f w a n l)
    (hMirrors : Mirrors p (p.Defines f) g) (hv : l.next ∈ (p.func f).values) (hw : 3 ≤ w)
    (hSentinels : g.sentinels = .ofWidth w) (hLow : (IntType.signed w).minValue < a) (hLess : a < n)
    (hHigh : n < (IntType.signed w).maxValue) : Counting c a n g := by
  obtain ⟨hNegInf, hPosInf⟩ := sentinels_ofWidth (Int.le_trans (by decide) hw)
  rw [← hSentinels] at hNegInf hPosInf
  have hConst {m : NodeId} {v : ValueId} {i : Int} (hm : g.valueAt? m = some v)
      (hi : (p.value v).const = some i) : ∃ x, g.nodes[m]? = some x ∧ x.const = some i := by
    obtain ⟨x, hx, rfl⟩ := Option.map_eq_some_iff.mp hm
    exact ⟨x, hx, (hMirrors.node hx).2.1.trans hi⟩
  have hType : g.typeOf c.next = .signed w := (hMirrors.typeOf_eq h.next).trans (hp.typeOf _ hv)
  have hOne : 1 < (IntType.signed w).maxValue := by
    have hPow : 4 ≤ pow2 (w - 1).toNat := pow2_mono (k := 2) (by omega)
    show 1 < pow2 (w - 1).toNat - 1
    omega
  exact {
    ops := h.ops
    first := hConst h.first hp.first.2
    step := hConst h.step hp.step.2
    countable := by
      rw [hType]
      exact ⟨hNegInf ▸ hLow, hLess, hPosInf ▸ hHigh, hPosInf ▸ hOne, by omega, by omega⟩ }

/-- A loop that counts up by one from a constant to a constant is solved exactly, in signed integers
of each width of at least three bits, whichever narrowing is chosen. -/
theorem analyze_countsUp (hp : p.Made) (h : CountsUp p f w a n l) (hw : 3 ≤ w)
    (hLow : (IntType.signed w).minValue < a) (hLess : a < n)
    (hHigh : n < (IntType.signed w).maxValue) (hWidth : o.width = 0)
    (hNarrowing : o.narrowing = .cousot ∨ o.narrowing = .crop) :
    ∃ g, analyze p f o = .ok g ∧
      g.rangeOf l.index = (Sentinels.ofWidth w).interval a n ∧
      g.rangeOf l.taken = (Sentinels.ofWidth w).interval a (n - 1) ∧
      g.rangeOf l.next = (Sentinels.ofWidth w).interval (a + 1) n ∧
      g.rangeOf l.last = (Sentinels.ofWidth w).interval n n := by
  obtain ⟨hNegInf, hPosInf⟩ := sentinels_ofWidth (Int.le_trans (by decide) hw)
  have hSentinels : sentinelsFor p o [f] = .ofWidth w := by
    rw [sentinelsFor, if_pos hWidth, h.maxWidth_eq (by omega)]
  have hInner : (Sentinels.ofWidth w).Inner n := ⟨by omega, by omega⟩
  obtain ⟨_, g, hBuild, hTo, c, hDepicts⟩ := h.addFunction_depicts hp (by omega) hInner o
  rw [← hSentinels] at hBuild hTo
  have hBuilt : Built p g := ⟨o, .inl ⟨f, congrArg Prod.snd hBuild⟩⟩
  have hFrame := hTo.growth.sameFrame
  have hCounting := hDepicts.counting h (hTo.growth.ready (ready_empty ..)).mirrors
    (h.mem_values hp).2.2.1 hw (hFrame.sentinels.trans hSentinels) hLow hLess hHigh
  obtain ⟨g', hRun, hAnswers, hIndex, hTaken, hNext, hLast⟩ := hCounting.solve
    (Built.unsolved hp hBuilt) (Built.unstarted hp hBuilt).trend (hFrame.narrowing ▸ hNarrowing)
  rw [hFrame.sentinels.trans hSentinels] at hIndex hTaken hNext hLast
  have hRange {m : NodeId} {v : ValueId} (hm : g.valueAt? m = some v) : g'.rangeOf v = g'.range m :=
    hAnswers.rangeOf (hTo.extensible (extensible_empty ..)) hm
  have hInterval {x y : Int} (hx : a ≤ x) (hxy : x ≤ y) (hy : y ≤ n) :
      (⟨.ofWidth w, x, y, false⟩ : Range) = (Sentinels.ofWidth w).interval x y :=
    (Sentinels.interval_of_between (by omega) hxy (by omega)).symm
  refine ⟨g', by rw [analyze, build, hBuild, solveBuilt, hRun]; rfl, ?_, ?_, ?_, ?_⟩
  · rw [hRange hDepicts.index, hIndex, hInterval (by omega) (by omega) (by omega)]
  · rw [hRange hDepicts.taken, hTaken, hInterval (by omega) (by omega) (by omega)]
  · rw [hRange hDepicts.next, hNext, hInterval (by omega) (by omega) (by omega)]
  · rw [hRange hDepicts.last, hLast, hInterval (by omega) (by omega) (by omega)]

/-- A loop that counts from one up to two in three bits. Its step is the constant that it starts
with. -/
def Program.stepping : Program :=
  let t : IntType := .signed 3
  let p := ((Program.addFunction 0 "stepping").run start).2
  let p := ((constant 0 t 2).run p).2
  let p := ((constant 0 t 1).run p).2
  let p := ((addBlock 0 "entry").run p).2
  let p := ((addBlock 0 "loop").run p).2
  let p := ((addBlock 0 "body").run p).2
  let p := ((addBlock 0 "exit").run p).2
  let p := ((emit 1 .phi "x" t [some 1, some 4] none none).run p).2
  let p := ((emit 2 .sigma "x.t" t [some 2] none none).run p).2
  let p := ((emit 2 (.binary .add) "x.next" t [some 3, some 1] none none).run p).2
  let p := ((emit 3 .sigma "x.f" t [some 2] none none).run p).2
  let p := p.terminate 0 (.jump 1)
  let p := p.terminate 1 (.test (.known .slt) (some 2) (some 0) 2 3)
  let p := p.terminate 2 (.jump 1)
  p.terminate 3 (.ret [some 5])

theorem Program.stepping_made : stepping.Made :=
  .terminate (.terminate (.terminate (.terminate (.emit (.emit (.emit (.emit (.addBlock (.addBlock
    (.addBlock (.addBlock (.constant (.constant (.addFunction .start 0 _) 0 _ _) 0 _ _) 0 _) 0 _)
    0 _) 0 _) 1 _ _ _ _ _ _) 2 _ _ _ _ _ _) 2 _ _ _ _ _ _) 3 _ _ _ _ _ _) 0 _) 1 _) 2 _) 3 _

theorem Program.stepping_countsUp :
    stepping.CountsUp 0 3 1 2 ⟨0, 1, 2, 3, 1, 0, 1, 2, 3, 4, 5⟩ where
  params := by decide +kernel
  blocks := by decide +kernel
  entry := by decide +kernel
  entry_term := by decide +kernel
  head := by decide +kernel
  head_term := by decide +kernel
  body := by decide +kernel
  body_term := by decide +kernel
  exit := by decide +kernel
  exit_term := by decide +kernel
  typeOf := by decide +kernel
  first := by decide +kernel
  limit := by decide +kernel
  step := by decide +kernel

/-- The loop that takes one step in the smallest width. -/
theorem stepping_solved : stepping.Made ∧
    stepping.CountsUp 0 3 1 2 ⟨0, 1, 2, 3, 1, 0, 1, 2, 3, 4, 5⟩ ∧
    ∃ g, analyze stepping 0 ⟨.crop, 0, false⟩ = .ok g ∧
      g.rangeOf 2 = (Sentinels.ofWidth 3).interval 1 2 ∧
      g.rangeOf 3 = (Sentinels.ofWidth 3).interval 1 1 ∧
      g.rangeOf 4 = (Sentinels.ofWidth 3).interval 2 2 ∧
      g.rangeOf 5 = (Sentinels.ofWidth 3).interval 2 2 :=
  ⟨stepping_made, stepping_countsUp, analyze_countsUp stepping_made stepping_countsUp (by decide)
    (by decide) (by decide) (by decide) rfl (.inr rfl)⟩

end Analysis

end ValueRange
