import ValueRange.Analysis
import ValueRange.Proofs.Graph.Acyclic
import ValueRange.Proofs.Graph.Assembly
import ValueRange.Proofs.Graph.Points

/-! The ranges of straight-line programs. The graph of such a program has no loop, so that each result
gets the evaluation of its operation, which is saturating arithmetic: the range is a point, or
unbounded. It holds the exact integer unless a sentinel that was taken for an infinity changed it. -/

namespace ValueRange

open ValueRange.Graph Program

variable {p : Program} {f : FuncId} {b : BlockId} {k : Nat} {i : Instr} {v x : ValueId}

/-! ### Building -/

theorem Program.Arithmetic.supplied (h : Arithmetic p f b k i) : i.Supplied := by
  cases h with
  | copy hOp hArgs _ => constructor <;> simp [hOp, hArgs]
  | binary hOp _ hArgs _ _ => constructor <;> simp [hOp, hArgs]

theorem Program.StraightLine.isInteger (h : StraightLine p f b) (hx : Available p f b k x) :
    p.isInteger x = true := by
  cases hx with
  | const _ hInt _ => exact hInt
  | result _ hi hv =>
    obtain ⟨u, hu, hInt⟩ := h.result hi
    cases hv.symm.trans hu
    exact hInt

theorem Program.StraightLine.tracked (h : StraightLine p f b)
    (hi : (p.block b).instrs[k]? = some i) : hasUntracked p i.args = .ok false := by
  cases h.arithmetic hi with
  | copy _ hArgs hx => simp [hArgs, hasUntracked, h.isInteger hx]
  | binary _ _ hArgs hx hy => simp [hArgs, hasUntracked, h.isInteger hx, h.isInteger hy]

theorem Program.StraightLine.buildable (h : StraightLine p f b) : Buildable p f := by
  have hOnly {c : BlockId} (hc : c ∈ (p.func f).blocks) : c = b := by
    rw [h.blocks] at hc
    exact Array.mem_singleton.mp hc
  refine ⟨fun hb hi => ?_, fun g hb => ?_⟩
  · cases hOnly hb
    obtain ⟨k, hk⟩ := Array.mem_iff_getElem?.mp hi
    exact (h.arithmetic hk).supplied
  · cases hOnly hb
    obtain ⟨results, hTerm⟩ := h.returns
    unfold addBranch
    rw [hTerm]
    exact Succeeds.pure trivial

/-- The operation reads the nodes of the operands of the instruction. -/
inductive Graph.Computes (p : Program) (f : FuncId) (b : BlockId) (k : Nat) (g : Graph) (i : Instr) :
    Kind → Prop
  | copy {x : ValueId} {a : NodeId} {t t' : IntType} (hOp : i.op = .unary .copy)
      (hArgs : i.args = [some x]) (hx : Available p f b k x) (ha : g.valueAt? a = some x) :
      Computes p f b k g i (.unary .copy a t t')
  | binary {op : BinaryOp} {x y : ValueId} {a c : NodeId} (hOp : i.op = .binary op)
      (hRing : op ∈ [BinaryOp.add, .sub, .mul]) (hArgs : i.args = [some x, some y])
      (hx : Available p f b k x) (hy : Available p f b k y) (ha : g.valueAt? a = some x)
      (hc : g.valueAt? c = some y) : Computes p f b k g i (.binary op a c)

/-- A graph of the straight-line program before it is solved. -/
structure Graph.Traces (p : Program) (f : FuncId) (b : BlockId) (g : Graph) : Prop where
  ready : Ready p (p.Defines f) g
  extensible : Extensible g
  models : ∀ i ∈ (p.block b).instrs, Models p g i

section Traces

variable {g g' : Graph} (hp : p.Made) (h : StraightLine p f b)
include h

/-- Each result has its operation. -/
theorem Graph.Traces.computes (hg : Traces p f b g) (hi : (p.block b).instrs[k]? = some i)
    (hv : i.result = some v) :
    ∃ (o : OpId) (op : Operation), g.ops[o]? = some op ∧ g.valueAt? op.sink = some v ∧
      Computes p f b k g i op.kind := by
  obtain ⟨u, hu, hInt⟩ := h.result hi
  cases hv.symm.trans hu
  have hRepresents := (hg.models i (Array.mem_of_getElem? hi)).represents hv hInt (h.tracked hi)
  cases h.arithmetic hi with
  | copy hOp hArgs hx =>
    obtain ⟨op, hMem, hSink, x', a, t, t', hx', ha, hKind⟩ := hRepresents.unary hOp
    obtain ⟨o, ho⟩ := Array.mem_iff_getElem?.mp hMem
    rw [hArgs] at hx'
    cases hx'
    exact ⟨o, op, ho, hSink, hKind ▸ .copy hOp hArgs hx ha⟩
  | binary hOp hRing hArgs hx hy =>
    obtain ⟨op, hMem, hSink, x', y', a, c, hx', hy', ha, hc, hKind⟩ := hRepresents.binary hOp
    obtain ⟨o, ho⟩ := Array.mem_iff_getElem?.mp hMem
    rw [hArgs] at hx' hy'
    cases hx'
    cases hy'
    exact ⟨o, op, ho, hSink, hKind ▸ .binary hOp hRing hArgs hx hy ha hc⟩

/-- Each operation is that of an instruction. -/
theorem Graph.Traces.exists_instr (hg : Traces p f b g) {o : OpId} {op : Operation}
    (ho : g.ops[o]? = some op) : ∃ k i v, (p.block b).instrs[k]? = some i ∧ i.result = some v ∧
      g.valueAt? op.sink = some v ∧ Computes p f b k g i op.kind := by
  have hDef := (hg.ready.wired.definition_iff op.sink o).mpr ⟨op, ho, rfl⟩
  obtain ⟨y, hy, hyDef⟩ := Option.bind_eq_some_iff.mp hDef
  obtain ⟨c, hc, i, hi, hv, -⟩ := hg.ready.mirrors.defined hy (by simp [hyDef])
  rw [h.blocks] at hc
  cases Array.mem_singleton.mp hc
  obtain ⟨k, hk⟩ := Array.mem_iff_getElem?.mp hi
  have hSink : g.valueAt? op.sink = some y.value := by rw [Graph.valueAt?, hy, Option.map_some]
  obtain ⟨o', op', ho', hSink', hComputes⟩ := hg.computes h hk hv
  cases hg.ready.wired.eq_of_sink ho ho' (hg.extensible.injective hSink hSink')
  cases ho.symm.trans ho'
  exact ⟨k, i, y.value, hk, hv, hSink, hComputes⟩

omit h in
theorem Graph.Computes.available {kind : Kind} (hComputes : Computes p f b k g i kind) {n : NodeId}
    (hn : n ∈ kind.operands ∨ ∃ c, kind.bound? = some (n, c)) :
    ∃ x, Available p f b k x ∧ g.valueAt? n = some x := by
  cases hComputes with
  | copy _ _ hx ha =>
    simp only [Kind.operands, Kind.bound?, List.mem_singleton, reduceCtorEq, exists_false,
      or_false] at hn
    exact ⟨_, hx, hn ▸ ha⟩
  | binary _ _ _ hx hy ha hc =>
    simp only [Kind.operands, Kind.bound?, List.mem_cons, List.not_mem_nil, reduceCtorEq,
      exists_false, or_false] at hn
    rcases hn with rfl | rfl
    · exact ⟨_, hx, ha⟩
    · exact ⟨_, hy, hc⟩

/-- From the result of an instruction only results of later ones are reached. -/
theorem Graph.Traces.reach (hg : Traces p f b g) (hTidy : p.Tidy) {n m : NodeId}
    (hi : (p.block b).instrs[k]? = some i) (hv : i.result = some v) (hn : g.valueAt? n = some v)
    (hReach : Reach g.successors n m) : ∃ j i' u, k ≤ j ∧ (p.block b).instrs[j]? = some i' ∧
      i'.result = some u ∧ g.valueAt? m = some u := by
  induction hReach with
  | refl => exact ⟨k, i, v, Nat.le_refl k, hi, hv, hn⟩
  | tail _ hStep ih =>
    obtain ⟨j, i', u, hj, hi', hu, hm⟩ := ih
    obtain ⟨o, op, ho, rfl, hRead⟩ := (hg.ready.wired.mem_successors _ _).mp hStep
    obtain ⟨j', i'', w, hi'', hw, hSink, hComputes⟩ := hg.exists_instr h ho
    obtain ⟨x, hx, hx'⟩ := hComputes.available hRead
    cases hm.symm.trans hx'
    refine ⟨j', i'', w, ?_, hi'', hw, hSink⟩
    by_contra hlt
    exact hTidy.ne_result hx (by omega) hi' hu

theorem Graph.Traces.acyclic (hg : Traces p f b g) (hTidy : p.Tidy) {o : OpId} {op : Operation}
    (ho : g.ops[o]? = some op) (n : NodeId)
    (hn : n ∈ op.kind.operands ∨ ∃ c, op.kind.bound? = some (n, c)) :
    ¬ Reach g.successors op.sink n := by
  intro hReach
  obtain ⟨k, i, v, hi, hv, hSink, hComputes⟩ := hg.exists_instr h ho
  obtain ⟨x, hx, hx'⟩ := hComputes.available hn
  obtain ⟨j, i', u, hj, hi', hu, hm⟩ := hg.reach h hTidy hi hv hSink hReach
  cases hm.symm.trans hx'
  exact hTidy.ne_result hx hj hi' hu

end Traces

/-! ### Values -/

theorem Program.le_maxWidth {vs : List ValueId} (w : Int) : w ≤ vs.foldl (fun w v =>
    if p.isInteger v then Max.max w (p.typeOf v).signedWidth else w) w := by
  induction vs generalizing w with
  | nil => exact Int.le_refl w
  | cons v vs ih =>
    refine Int.le_trans ?_ (ih _)
    dsimp only
    split
    · exact Int.le_max_left ..
    · exact Int.le_refl w

theorem Program.signedWidth_le {vs : List ValueId} (hv : v ∈ vs) (hInt : p.isInteger v = true)
    (w : Int) : (p.typeOf v).signedWidth ≤ vs.foldl (fun w v =>
      if p.isInteger v then Max.max w (p.typeOf v).signedWidth else w) w := by
  induction vs generalizing w with
  | nil => cases hv
  | cons u vs ih =>
    rcases List.mem_cons.mp hv with rfl | hv
    · rw [List.foldl_cons, if_pos hInt]
      exact Int.le_trans (Int.le_max_right ..) (le_maxWidth _)
    · exact ih hv _

/-- The sentinels of the widest type of a function are wide enough for its values. -/
theorem Program.signedWidth_le_bits {o : Options} (ho : o.width = 0) (hv : v ∈ (p.func f).values)
    (hInt : p.isInteger v = true) : (p.typeOf v).signedWidth ≤ (sentinelsFor p o [f]).bits := by
  have hLe : (p.typeOf v).signedWidth ≤ p.maxWidth [f] := by
    refine signedWidth_le ?_ hInt 0
    rw [List.flatMap_singleton]
    exact Array.mem_toList_iff.mpr hv
  have hPos : 0 < (p.typeOf v).signedWidth := by
    have : 0 < (p.typeOf v).width := of_decide_eq_true hInt
    unfold IntType.signedWidth
    split <;> omega
  rw [sentinelsFor, if_pos ho, Sentinels.ofWidth, if_neg (by omega)]
  have : (p.maxWidth [f]).toNat ≤ Nat.max 2 (p.maxWidth [f]).toNat := Nat.le_max_right ..
  dsimp only
  omega

/-- The exact integers of the function lie strictly between the sentinels. -/
def Program.Interior (p : Program) (f : FuncId) (b : BlockId) (s : Sentinels) : Prop :=
  ∀ x ∈ (p.func f).values, ∀ n, p.execute .exact b x = some n → s.Inner n

/-- The solved graph has the point of the value that saturating arithmetic computes. It knows the
exact integer, and is that integer where no sentinel is met. -/
structure Graph.Pointed (p : Program) (f : FuncId) (b : BlockId) (g : Graph) (x : ValueId) (n : Int)
    (a : Option Int) : Prop where
  exact : p.execute .exact b x = some n
  saturating : p.execute (.saturating g.sentinels) b x = some a
  knows : g.sentinels.Knows a n
  sharp : p.Interior f b g.sentinels → a = some n
  range {m : NodeId} : g.valueAt? m = some x → g.range m = g.sentinels.point a

theorem Program.StraightLine.mem_values (h : StraightLine p f b) (hp : p.Made)
    (hx : Available p f b k x) : x ∈ (p.func f).values := by
  cases hx with
  | const hMem _ _ => exact hMem
  | result _ hi hv => exact hp.housed.values (by simp [h.blocks]) hi hv

section Pointed

variable {g g' : Graph} (hp : p.Made) (h : StraightLine p f b) (hg : Traces p f b g)
  (hSolved : Evaluated g g')
include hp hg hSolved

theorem Graph.Traces.pointed_const {c : Int} (hx : x ∈ (p.func f).values)
    (hc : (p.value x).const = some c) :
    Pointed p f b g' x c (some (g'.sentinels.clamp c)) where
  exact := hp.tidy.execute_const .exact hc
  saturating := hp.tidy.execute_const (.saturating _) hc
  knows := knows_clamp _ c
  sharp hInterior := by
    obtain ⟨hl, hu⟩ := hInterior x hx c (hp.tidy.execute_const .exact hc)
    rw [Sentinels.clamp_of_between (Int.le_of_lt hl) (Int.le_of_lt hu)]
  range {m} hm := by
    rw [hSolved.valueAt?] at hm
    obtain ⟨y, hy, rfl⟩ := Option.map_eq_some_iff.mp hm
    have hConst : y.const = some c := (hg.ready.mirrors.node hy).2.1.trans hc
    have hUndefined : y.definition = none := by
      by_contra hDef
      obtain ⟨b', -, i, hi, hv, -⟩ := hg.ready.mirrors.defined hy hDef
      obtain ⟨k, hk⟩ := Array.mem_iff_getElem?.mp hi
      rw [(hp.tidy.result hk hv).const_eq] at hc
      cases hc
    rw [hSolved.fixed hy hUndefined, Sentinels.point_clamp, hSolved.sentinels, startRange, hConst]

include h

theorem Graph.Traces.pointed_result (hi : (p.block b).instrs[k]? = some i) (hv : i.result = some v)
    (hWidth : (p.typeOf v).signedWidth ≤ g'.sentinels.bits)
    (hExact : ∀ n, p.execute .exact b v = some n → (p.typeOf v).Contains n)
    (hOperands : ∀ x, Available p f b k x → ∃ n a, Pointed p f b g' x n a) :
    ∃ n a, Pointed p f b g' v n a := by
  obtain ⟨o, ⟨sink, kind, r⟩, ho, hSink, hComputes⟩ := hg.computes h hi hv
  have hExecute {α : Type} (M : Interpretation α) := h.execute_result M hp.tidy hi hv
  -- the sink is the only node of the result, and its operation is not a sigma
  have hRange {m : NodeId} (hm : g'.valueAt? m = some v) : g'.range m = g'.evalKind sink kind := by
    rw [hSolved.valueAt?] at hm
    cases hg.extensible.injective hm hSink
    have hWhole : r = g'.sentinels.max := by
      rw [hSolved.sentinels]
      refine hg.ready.mirrors.whole ho fun n hn => ?_
      cases hn
      cases hComputes
    refine (hSolved.eval ho ?_).trans (eval_of_max hWhole)
    cases hComputes <;> rfl
  cases hComputes with
  | copy hOp hArgs hx ha =>
    obtain ⟨n, a, hPointed⟩ := hOperands _ hx
    have hCopy {α : Type} (M : Interpretation α) : p.execute M b v = p.execute M b _ :=
      (hExecute M).trans (Instr.value?_copy hOp hArgs)
    refine ⟨n, a, (hCopy _).trans hPointed.exact, (hCopy _).trans hPointed.saturating,
      hPointed.knows, hPointed.sharp, fun hm => (hRange hm).trans ?_⟩
    exact hPointed.range (hSolved.valueAt? _ ▸ ha)
  | @binary op x y l r hOp hRing hArgs hx hy hl hr =>
    obtain ⟨n, a, hLeft⟩ := hOperands x hx
    obtain ⟨n', a', hRight⟩ := hOperands y hy
    obtain ⟨c, F, hCorner, hF⟩ := exists_meaning hRing
    have hSaturate : (Interpretation.saturating g'.sentinels).binary? op =
        some (g'.sentinels.saturate op c) := congrArg (Option.map _) hCorner
    have hValue : p.execute .exact b v = some (F n n') :=
      (hExecute _).trans (Instr.value?_binary hOp hArgs hF hLeft.exact hRight.exact)
    have hContains := hExact _ hValue
    obtain ⟨hLow, hHigh⟩ := hContains.between hWidth
    refine ⟨_, _, hValue, ?_, hLeft.knows.saturate hCorner hF hRight.knows hLow hHigh,
      fun hInterior => ?_, fun hm => (hRange hm).trans ?_⟩
    · exact (hExecute _).trans
        (Instr.value?_binary hOp hArgs hSaturate hLeft.saturating hRight.saturating)
    · have hInner {z : ValueId} (hz : Available p f b k z) := hInterior z (h.mem_values hp hz)
      rw [hLeft.sharp hInterior, hRight.sharp hInterior]
      exact saturate_of_inner hCorner hF (hInner hx n hLeft.exact) (hInner hy n' hRight.exact) hLow
        hHigh
    · rw [evalKind, hLeft.range (hSolved.valueAt? _ ▸ hl), hRight.range (hSolved.valueAt? _ ▸ hr),
        hSolved.typeOf, hg.ready.mirrors.typeOf_eq hSink]
      exact hLeft.knows.evalBinary hCorner hF hRight.knows hContains

end Pointed

/-- The solution of a straight-line program whose exact results are in their types. Each result has
the point that saturating arithmetic computes. So its range holds the exact integer exactly if
saturating arithmetic gives that integer, or knows nothing; and it is that integer if no constant and
no result is a sentinel. -/
theorem analyze_straightLine (hp : p.Made) (h : StraightLine p f b) {o : Options}
    (hWidth : o.width = 0) (hNarrowing : o.narrowing = .cousot ∨ o.narrowing = .crop)
    (hExact : ∀ (k : Nat) i v n, (p.block b).instrs[k]? = some i → i.result = some v →
      p.execute .exact b v = some n → (p.typeOf v).Contains n) :
    ∃ g, analyze p f o = .ok g ∧ ∀ (k : Nat) i v, (p.block b).instrs[k]? = some i →
      i.result = some v → ∃ n a, p.execute .exact b v = some n ∧
        p.execute (.saturating (sentinelsFor p o [f])) b v = some a ∧
        g.rangeOf v = (sentinelsFor p o [f]).point a ∧
        (n ∈ g.rangeOf v ↔ a = none ∨ a = some n) ∧
        (p.Interior f b (sentinelsFor p o [f]) →
          g.rangeOf v = (sentinelsFor p o [f]).singleton n) := by
  have hBlock : b ∈ (p.func f).blocks := by simp [h.blocks]
  obtain ⟨g, hBuild, hTo, hModels⟩ := build_succeeds hp h.buildable o
  have hTraces : Traces p f b g := ⟨hTo.growth.ready (ready_empty ..),
    hTo.extensible (extensible_empty ..), hModels b hBlock⟩
  have hUnsolved : Unsolved g := Built.unsolved hp ⟨o, .inl ⟨f, congrArg Prod.snd hBuild⟩⟩
  have hFrame := hTo.growth.sameFrame
  obtain ⟨g', hRun, hSolved⟩ := hUnsolved.solve_acyclic (hFrame.narrowing ▸ hNarrowing)
    fun ho n => hTraces.acyclic h hp.tidy ho n
  have hSentinels : g'.sentinels = sentinelsFor p o [f] := hSolved.sentinels.trans hFrame.sentinels
  have hBits {k : Nat} {i : Instr} {v : ValueId} (hi : (p.block b).instrs[k]? = some i)
      (hv : i.result = some v) : (p.typeOf v).signedWidth ≤ g'.sentinels.bits := by
    obtain ⟨u, hu, hInt⟩ := h.result hi
    cases hv.symm.trans hu
    rw [hSentinels]
    exact signedWidth_le_bits hWidth (hp.housed.values hBlock hi hv) hInt
  refine ⟨g', by rw [analyze, hBuild, solveBuilt, hRun]; rfl, fun k i v hi hv => ?_⟩
  have hAvailable : Available p f b (k + 1) v := .result (Nat.lt_succ_self k) hi hv
  obtain ⟨n, a, hPointed⟩ := hAvailable.induct (P := fun x => ∃ n a, Pointed p f b g' x n a)
    (fun hx _ hc => ⟨_, _, hTraces.pointed_const hp hSolved hx hc⟩)
    fun hi hv => hTraces.pointed_result hp h hSolved hi hv (hBits hi hv)
      fun n => hExact _ _ _ n hi hv
  obtain ⟨o', op, -, hSink, -⟩ := hTraces.computes h hi hv
  have hSink' : g'.valueAt? op.sink = some v := (hSolved.valueAt? _).trans hSink
  have hRange : g'.rangeOf v = g'.sentinels.point a := by
    rw [hSolved.rangeOf hTraces.extensible hSink, hPointed.range hSink']
  obtain ⟨hLow, hHigh⟩ := (hExact k i v n hi hv hPointed.exact).between (hBits hi hv)
  rw [← hSentinels]
  refine ⟨n, a, hPointed.exact, hPointed.saturating, hRange, ?_, fun hInterior => ?_⟩
  · rw [hRange]
    exact Sentinels.mem_point hPointed.knows.holds hLow hHigh
  · rw [hRange, hPointed.sharp hInterior]
    rfl

/-- The greatest signed integer of eight bits less one, and the difference of that to itself. -/
def edge : Program :=
  let t : IntType := .signed 8
  let p := ((Program.addFunction 0 "edge").run Program.start).2
  let p := ((Program.constant 0 t 127).run p).2
  let p := ((Program.constant 0 t 1).run p).2
  let p := ((Program.addBlock 0 "entry").run p).2
  let p := ((Program.emit 0 (.binary .sub) "x" t [some 0, some 1] none none).run p).2
  let p := ((Program.emit 0 (.binary .sub) "y" t [some 2, some 2] none none).run p).2
  p.terminate 0 (.ret [some 3])

theorem edge_made : edge.Made :=
  .terminate (.emit (.emit (.addBlock (.constant (.constant (.addFunction .start 0 _) 0 _ _) 0 _ _)
    0 _) 0 _ _ _ _ _ _) 0 _ _ _ _ _ _) 0 _

theorem edge_instrs : (edge.block 0).instrs = #[⟨.binary .sub, some 2, [some 0, some 1], none⟩,
    ⟨.binary .sub, some 3, [some 2, some 2], none⟩] := by
  decide +kernel

theorem edge_cases {k : Nat} {i : Instr} (hi : (edge.block 0).instrs[k]? = some i) :
    k = 0 ∧ i = ⟨.binary .sub, some 2, [some 0, some 1], none⟩ ∨
      k = 1 ∧ i = ⟨.binary .sub, some 3, [some 2, some 2], none⟩ := by
  rw [edge_instrs] at hi
  match k with
  | 0 => exact .inl ⟨rfl, (Option.some.inj hi).symm⟩
  | 1 => exact .inr ⟨rfl, (Option.some.inj hi).symm⟩
  | k + 2 => cases hi

theorem edge_straightLine : StraightLine edge 0 0 where
  blocks := by decide +kernel
  returns := ⟨[some 3], by decide +kernel⟩
  result hi := by
    rcases edge_cases hi with ⟨-, rfl⟩ | ⟨-, rfl⟩
    · exact ⟨2, rfl, by decide +kernel⟩
    · exact ⟨3, rfl, by decide +kernel⟩
  arithmetic hi := by
    rcases edge_cases hi with ⟨rfl, rfl⟩ | ⟨rfl, rfl⟩
    · refine .binary rfl (by simp) rfl (.const (c := 127) ?_ ?_ ?_) (.const (c := 1) ?_ ?_ ?_) <;>
        decide +kernel
    · have hx : Available edge 0 0 1 2 :=
        .result Nat.zero_lt_one (congrArg (·[0]?) edge_instrs) rfl
      exact .binary rfl (by simp) rfl hx hx

/-- The first difference has the range of the greatest integer, which misses it, and the second one
is unbounded. -/
theorem edge_analyzed : ∃ g, analyze edge 0 ⟨.cousot, 0, false⟩ = .ok g ∧
    g.rangeOf 2 = (Sentinels.ofWidth 8).point (some 127) ∧
    g.rangeOf 3 = (Sentinels.ofWidth 8).point none := by
  have hExact : ∀ (k : Nat) i v n, (edge.block 0).instrs[k]? = some i → i.result = some v →
      edge.execute .exact 0 v = some n → (edge.typeOf v).Contains n := by
    intro k i v n hi hv hn
    rcases edge_cases hi with ⟨-, rfl⟩ | ⟨-, rfl⟩
    · cases hv
      cases hn.symm.trans (show edge.execute .exact 0 2 = some 126 by decide +kernel)
      exact ⟨by decide +kernel, by decide +kernel⟩
    · cases hv
      cases hn.symm.trans (show edge.execute .exact 0 3 = some 0 by decide +kernel)
      exact ⟨by decide +kernel, by decide +kernel⟩
  obtain ⟨g, hg, hAll⟩ := analyze_straightLine edge_made edge_straightLine
    (o := ⟨.cousot, 0, false⟩) rfl (.inl rfl) hExact
  obtain ⟨_, a, -, ha, hFirst, -⟩ := hAll 0 _ 2 (congrArg (·[0]?) edge_instrs) rfl
  obtain ⟨_, c, -, hc, hSecond, -⟩ := hAll 1 _ 3 (congrArg (·[1]?) edge_instrs) rfl
  have hWidth : sentinelsFor edge ⟨.cousot, 0, false⟩ [0] = .ofWidth 8 := by decide +kernel
  rw [hWidth] at ha hc hFirst hSecond
  cases ha.symm.trans (show _ = some (some 127) by decide +kernel)
  cases hc.symm.trans (show _ = some none by decide +kernel)
  exact ⟨g, hg, hFirst, hSecond⟩

/-- The constants and the exact differences are in their type, but the range of the first difference
does not hold it. -/
theorem edge_missed : ∃ g, analyze edge 0 ⟨.cousot, 0, false⟩ = .ok g ∧
    edge.execute .exact 0 2 = some 126 ∧ (edge.typeOf 2).Contains 126 ∧ 126 ∉ g.rangeOf 2 := by
  have hAnswer : ((analyze edge 0 ⟨.cousot, 0, false⟩).toOption.any fun g =>
      decide (126 ∉ g.rangeOf 2)) = true := by decide +kernel
  cases hg : analyze edge 0 ⟨.cousot, 0, false⟩ with
  | error e =>
    rw [hg] at hAnswer
    cases hAnswer
  | ok g =>
    rw [hg] at hAnswer
    exact ⟨g, rfl, by decide +kernel, ⟨by decide +kernel, by decide +kernel⟩,
      of_decide_eq_true hAnswer⟩

end ValueRange
