import ValueRange.Proofs.Graph.Course
import ValueRange.Proofs.Graph.Writes

/-! Ranges stay well-formed. All ranges that a graph holds, in its nodes, its operations and what
its branches tell, are well-formed ranges of its sentinels. Each addition to a graph keeps this, and
so does each write of a solution, so that it holds throughout the solution of a graph that was put
together by any calls. -/

namespace ValueRange

open Range

/-- A fact that gives a range gives a well-formed one. -/
def Fact.Formed (s : Sentinels) : Fact → Prop
  | .within r => WellFormed s r
  | .against _ _ => True

namespace Graph

variable {p : Program} {s : Sentinels} {g g' : Graph} {n : NodeId} {o : OpId} {op : Operation}
  {m : Meet} {r : Range} {v : ValueId}

/-- All ranges that the graph holds are well-formed ranges of the sentinels. -/
structure Formed (s : Sentinels) (g : Graph) : Prop where
  sentinels : g.sentinels = s
  range (n : NodeId) : WellFormed s (g.range n)
  intersect {o : OpId} {op : Operation} : g.ops[o]? = some op → WellFormed s op.intersect
  branch {v : ValueId} {f : BranchFact} : (v, f) ∈ g.branches → f.onYes.Formed s ∧ f.onNo.Formed s
  switch {v : ValueId} {f : SwitchFact} {b : BlockId} {r : Range} : (v, f) ∈ g.switches →
    f.cases.lookup b = some r → WellFormed s r

namespace Formed

theorem regular (h : Formed s g) : Regular g := ⟨fun n => h.sentinels ▸ h.range n⟩

theorem max (h : Formed s g) : WellFormed s g.sentinels.max := h.sentinels ▸ .max g.sentinels

theorem empty (s : Sentinels) (o : Options) : Formed s (empty s o) where
  sentinels := rfl
  range _ := .max s
  intersect h := by simp [Graph.empty] at h
  branch h := absurd h (Array.not_mem_empty _)
  switch h := absurd h (Array.not_mem_empty _)

theorem factAt? (h : Formed s g) {b : BlockId} {fact : Fact} (hFact : g.factAt? v b = some fact) :
    fact.Formed s := by
  rcases recorded_of_factAt? hFact with ⟨f, hMem, hAt⟩ | ⟨f, hMem, hAt⟩
  · obtain ⟨hYes, hNo⟩ := h.branch hMem
    unfold BranchFact.at? at hAt
    split_ifs at hAt
    · exact Option.some.inj hAt ▸ hYes
    · exact Option.some.inj hAt ▸ hNo
  · obtain ⟨r, hr, rfl⟩ := Option.map_eq_some_iff.mp hAt
    exact h.switch hMem hr

/-! ### Additions -/

theorem pushNode (h : Formed s g) (p : Program) (v : ValueId) :
    Formed s { g with nodes := g.nodes.push (newNode p v) } where
  sentinels := h.sentinels
  range n := by
    have hOld := h.range n
    unfold Graph.range range? at hOld ⊢
    dsimp only
    rw [Array.getElem?_push]
    split
    · exact h.max
    · exact hOld
  intersect := h.intersect
  branch := h.branch
  switch := h.switch

theorem pushOperation (h : Formed s g) (sink : NodeId) (kind : Kind) (hr : WellFormed s r) :
    Formed s (g.pushOperation sink kind r) where
  sentinels := h.sentinels
  range n := by
    have hOld := h.range n
    unfold Graph.range range? at hOld ⊢
    rw [nodes_pushOperation, Option.bind_map]
    exact hOld
  intersect {o op} ho := by
    rcases (ops_pushOperation g sink kind r o op).mp ho with ⟨-, rfl⟩ | ho
    · exact hr
    · exact h.intersect ho
  branch := h.branch
  switch := h.switch

theorem extendPhi (h : Formed s g) (o : OpId) (sources : List NodeId) :
    Formed s (g.extendPhi o sources) where
  sentinels := h.sentinels
  range n := by
    have hOld := h.range n
    unfold Graph.range range? at hOld ⊢
    rw [nodes_extendPhi, Option.bind_map]
    exact hOld
  intersect {o' op} ho := by
    obtain ⟨old, hOld, rfl⟩ := (ops_extendPhi g o sources o' op).mp ho
    have hSame : (withSources o sources o' old).intersect = old.intersect := by
      rcases withSources_cases o sources o' old with hCase | ⟨_, -, hCase⟩ <;> rw [hCase]
    rw [hSame]
    exact h.intersect hOld
  branch := h.branch
  switch := h.switch

theorem pushFact (h : Formed s g) (v : ValueId) {f : BranchFact}
    (hf : f.onYes.Formed s ∧ f.onNo.Formed s) :
    Formed s { g with branches := g.branches.push (v, f) } where
  sentinels := h.sentinels
  range := h.range
  intersect := h.intersect
  branch hMem := by
    rcases Array.mem_push.mp hMem with hMem | hMem
    · exact h.branch hMem
    · cases hMem
      exact hf
  switch := h.switch

theorem pushCases (h : Formed s g) (v : ValueId) (cases : List (Int × BlockId))
    (otherwise : BlockId) :
    Formed s { g with
      switches := g.switches.push (v, ⟨caseRanges g.sentinels cases otherwise⟩) } where
  sentinels := h.sentinels
  range := h.range
  intersect := h.intersect
  branch := h.branch
  switch hMem hr := by
    rcases Array.mem_push.mp hMem with hMem | hMem
    · exact h.switch hMem hr
    · cases hMem
      exact h.sentinels ▸ ((caseTable_caseRanges g.sentinels cases otherwise).found hr).2.1

/-! ### Writes -/

theorem seed (h : Formed s g) : Formed s g.seed := by
  cases hs : g.started with
  | true =>
    rw [Graph.seed, hs, if_pos rfl]
    exact h
  | false =>
    have hSentinels := (sentinels_seed hs).trans h.sentinels
    refine ⟨hSentinels, fun n => hSentinels ▸ (regular_seed hs).range n, ?_, ?_, ?_⟩
    · rw [ops_seed hs]
      exact h.intersect
    · rw [seed_of_not_started hs]
      exact h.branch
    · rw [seed_of_not_started hs]
      exact h.switch

/-- A graph of the same shape is formed if its state is. -/
theorem of_shape (h : Formed s g) (hShape : g'.shape = g.shape) (hr : Regular g')
    (hOps : ∀ {o : OpId} {op : Operation}, g'.ops[o]? = some op → WellFormed s op.intersect) :
    Formed s g' := by
  have hSentinels := (sentinels_of_shape hShape).trans h.sentinels
  have hBranches : g'.branches = g.branches := congrArg (·.branches) hShape
  have hSwitches : g'.switches = g.switches := congrArg (·.switches) hShape
  exact ⟨hSentinels, fun n => hSentinels ▸ hr.range n, hOps, hBranches ▸ h.branch,
    hSwitches ▸ h.switch⟩

theorem setRange (h : Formed s g) (n : NodeId) (hr : WellFormed s r) : Formed s (g.setRange n r) :=
  h.of_shape (shape_setRange g n r) (h.regular.setRange n (h.sentinels ▸ hr)) h.intersect

theorem of_sameState (h : Formed s g) (hSame : SameState g g') : Formed s g' :=
  h.of_shape hSame.shape (hSame.regular h.regular) (hSame.ops ▸ h.intersect)

theorem resolve (h : Formed s g) (n : NodeId) (o : OpId) : Formed s (g.resolve n o) := by
  refine h.of_shape (shape_resolve g n o) ⟨fun k => ?_⟩ fun {o' op} ho => ?_
  · have hSentinels := sentinels_of_shape (shape_resolve g n o)
    rw [range_of_nodes (nodes_resolve g n o) hSentinels, hSentinels]
    exact h.regular.range k
  · unfold Graph.resolve at ho
    split at ho
    · rw [ops_setIntersect] at ho
      obtain ⟨old, hOld, rfl⟩ := Option.map_eq_some_iff.mp ho
      split
      · exact h.sentinels ▸ (h.regular.range n).region _
      · exact h.intersect hOld
    · exact h.intersect ho

end Formed

theorem lawful_of_meetOf {narrowing : Narrowing}
    (hm : m = .widening ∨ meetOf narrowing = .ok m) : m.Lawful := by
  rcases hm with rfl | hm
  · exact lawful_widening
  · cases narrowing with
    | cousot =>
      cases hm
      exact tight_narrowing.toLawful
    | crop =>
      cases hm
      exact tight_cropping.toLawful
    | other code => cases hm

/-- One write keeps ranges formed. -/
theorem Formed.write (h : Formed s g) (hWrite : Write g g') : Formed s g' := by
  cases hWrite with
  | arrange | finish => exact ⟨h.sentinels, h.range, h.intersect, h.branch, h.switch⟩
  | turn hm _ hStep =>
    refine h.setRange _ (h.sentinels ▸ ?_)
    exact (lawful_of_meetOf hm).wellFormed (h.regular.range _) (h.regular.eval _) hStep
  | freeze comp => exact h.of_sameState (sameState_freeze comp g)
  | resolve n o => exact h.resolve n o
  | assign o =>
    unfold assign
    split
    · exact h.setRange _ (h.sentinels ▸ h.regular.eval _)
    · exact h
  | record pos comp phase => exact h.of_sameState (sameState_record pos comp phase g)

theorem Formed.writes (h : Formed s g) (hWrites : Writes g g') : Formed s g' := by
  induction hWrites with
  | refl => exact h
  | tail _ hWrite ih => exact ih.write hWrite

/-! ### Calls -/

theorem keeps_checkOpen (I : Graph → Prop) : Keeps I checkOpen := by
  refine Keeps.get_bind fun g _ => ?_
  split
  · exact Keeps.throw _
  · exact Keeps.pure _

theorem formed_addValue (p : Program) (v : ValueId) : Keeps (Formed s) (addValue p v) := by
  refine Keeps.get_bind fun g _ => ?_
  split
  · exact Keeps.pure _
  · exact (keeps_checkOpen _).bind fun _ => fun g hg => hg.pushNode p v

theorem formed_addOperation (kind : Kind) (hr : WellFormed s r) :
    Keeps (Formed s) (addOperation p v kind r) := by
  refine (keeps_checkOpen _).bind fun _ => (formed_addValue p v).bind fun sink => ?_
  have hPush : Keeps (Formed s)
      (modifyGet fun g => (g.ops.size, g.pushOperation sink kind r)) :=
    fun g hg => hg.pushOperation sink kind hr
  refine Keeps.get_bind fun g _ => ?_
  split
  · exact (Keeps.throw _).bind fun _ => hPush
  · exact hPush

theorem formed_addSigma (b : BlockId) (result source : ValueId) :
    Keeps (Formed s) (addSigma p b result source) := by
  refine (formed_addValue p source).bind fun src => Keeps.get_bind fun g hg => ?_
  split
  · refine (formed_addValue p _).bind fun n => Keeps.get_bind fun g' hg' => ?_
    exact formed_addOperation _ hg'.max
  · -- only here an operation starts with an intersection of its own
    rename_i r hFact
    exact formed_addOperation _ (hg.factAt? hFact)
  · exact Keeps.get_bind fun g' hg' => formed_addOperation _ hg'.max

theorem keeps_operandAt (I : Graph → Prop) (args : List (Option ValueId)) (i : Nat) :
    Keeps I (operandAt args i) := by
  unfold operandAt
  split
  · exact Keeps.pure _
  · exact Keeps.throw _

theorem formed_addInstr (p : Program) (b : BlockId) (i : Instr) :
    Keeps (Formed s) (addInstr p b i) := by
  have hWhole (v : ValueId) (kind : Kind) :
      Keeps (Formed s) (do return some (← addOperation p v kind (← get).sentinels.max)) :=
    Keeps.get_bind fun g hg => (formed_addOperation kind hg.max).andThen
  unfold addInstr
  split
  · exact Keeps.pure _
  split
  · exact Keeps.pure _
  refine Keeps.lift_bind fun untracked _ => ?_
  split
  · exact (formed_addValue p _).andThen
  split
  · refine (keeps_operandAt _ _ _).bind fun a => (formed_addValue p a).bind fun src => ?_
    exact hWhole _ _
  · refine (keeps_operandAt _ _ _).bind fun a => (formed_addValue p a).bind fun lhs => ?_
    refine (keeps_operandAt _ _ _).bind fun a' => (formed_addValue p a').bind fun rhs => ?_
    exact hWhole _ _
  · exact (Keeps.mapM (formed_addValue p)).bind fun sources => hWhole _ _
  · exact (keeps_operandAt _ _ _).bind fun a => (formed_addSigma b _ a).andThen
  · exact (formed_addValue p _).andThen

theorem formed_addBinding (p : Program) (v : ValueId) (sources : List ValueId) :
    Keeps (Formed s) (addBinding p v sources) := by
  unfold addBinding
  split
  · exact (formed_addValue p v).bind fun n => Keeps.get_bind fun g _ => Keeps.pure _
  refine (Keeps.mapM (formed_addValue p)).bind fun srcs => Keeps.get_bind fun g hg => ?_
  split
  · rename_i o _
    have hExtend : Keeps (Formed s) (do
        checkOpen
        modify (extendPhi o srcs)
        return some o) :=
      (keeps_checkOpen _).bind fun _ => (Keeps.modify fun g hg => hg.extendPhi o srcs).andThen
    split
    · exact (Keeps.throw _).bind fun _ => hExtend
    · exact hExtend
  · exact (formed_addOperation _ hg.max).andThen

theorem formed_factOf {pred : Predicate} {yes no : BlockId} {f : BranchFact}
    (h : factOf p s pred v yes no = .ok f) : f.onYes.Formed s ∧ f.onNo.Formed s := by
  have hSingle (k : Int) : WellFormed s (s.singleton k) := .interval s k k
  unfold factOf at h
  split at h
  · cases h
    exact ⟨(hSingle _).region _, (hSingle _).region _⟩
  · cases h
    exact ⟨trivial, trivial⟩
  · cases h
  · cases h

theorem formed_addFact (v : ValueId) {f : BranchFact} (hf : f.onYes.Formed s ∧ f.onNo.Formed s) :
    Keeps (Formed s) (addFact p v f) :=
  Keeps.addFact (fun _ hg => hg.pushFact v hf) fun _ _ _ hg => hg.pushFact _ hf

theorem formed_addTest (pred : Predicate) (x y : Option ValueId) (yes no : BlockId) :
    Keeps (Formed s) (addTest p pred x y yes no) := by
  refine Keeps.addTest (fun g hg x' y' f _ _ _ hf => ?_) fun g hg x' y' flipped f _ _ _ _ hf => ?_
  · exact formed_addFact x' (formed_factOf (hg.sentinels ▸ hf))
  · exact formed_addFact y' (formed_factOf (hg.sentinels ▸ hf))

theorem formed_addBranch (p : Program) (b : BlockId) : Keeps (Formed s) (addBranch p b) := by
  unfold addBranch
  split
  · exact formed_addTest _ _ _ _ _
  · split
    · split
      · exact Keeps.modify fun g hg => hg.pushCases _ _ _
      · exact Keeps.pure _
    · exact Keeps.throw _
  · exact Keeps.pure _

theorem formed_addFunction (p : Program) (f : FuncId) : Keeps (Formed s) (addFunction p f) := by
  unfold addFunction
  refine (Keeps.forInArray fun v _ => ?_).bind fun _ => ?_
  · split
    · exact (formed_addValue p v).andThen
    · exact Keeps.pure _
  refine (Keeps.forInArray fun b _ => (formed_addBranch p b).andThen).bind fun _ => ?_
  refine (Keeps.forInArray fun b _ => ?_).andThen
  exact (Keeps.forInArray fun i _ => (formed_addInstr p b i).andThen).andThen

theorem formed_bindParams (p : Program) (f : FuncId) (calls : List Instr) :
    Keeps (Formed s) (bindParams p f calls) := by
  unfold bindParams
  refine (Keeps.forIn fun x _ => ?_).andThen
  dsimp only
  split
  · refine Keeps.lift_bind fun args _ => ?_
    split
    · exact (formed_addBinding p _ args).andThen
    · exact Keeps.pure _
  · exact Keeps.pure _

theorem formed_bindResults (p : Program) (f : FuncId) (calls : List Instr) :
    Keeps (Formed s) (bindResults p f calls) := by
  unfold bindResults
  refine Keeps.lift_bind fun returned _ => ?_
  dsimp only
  split
  · exact Keeps.pure _
  refine (Keeps.forIn fun call _ => ?_).andThen
  split
  · split
    · exact (formed_addBinding p _ _).andThen
    · exact Keeps.pure _
  · exact Keeps.pure _

theorem formed_addModule (p : Program) (k : ModuleId) : Keeps (Formed s) (addModule p k) := by
  unfold addModule
  refine (Keeps.forInArray fun f _ => (formed_addFunction p f).andThen).bind fun _ => ?_
  refine (Keeps.forInArray fun f _ => Keeps.andThen ?_).andThen
  unfold bindCalls
  dsimp only
  split
  · exact (formed_bindParams p f _).bind fun _ => formed_bindResults p f _
  · exact formed_bindResults p f _

theorem formed_solve : Keeps (Formed s) solve := by
  intro g hg
  cases hs : g.solved with
  | true =>
    unfold solve
    rw [run_get_bind, hs, if_pos rfl]
    exact hg
  | false => exact hg.seed.writes (writes_solve hs)

/-- A call that adds to a graph or solves it. It may fail, and then leaves what it did before. -/
inductive Call : Graph → Graph → Prop
  | addValue (p : Program) (v : ValueId) (g : Graph) : Call g ((addValue p v).run.run g).2
  | addInstr (p : Program) (b : BlockId) (i : Instr) (g : Graph) :
      Call g ((addInstr p b i).run.run g).2
  | addBranch (p : Program) (b : BlockId) (g : Graph) : Call g ((addBranch p b).run.run g).2
  | addBinding (p : Program) (v : ValueId) (sources : List ValueId) (g : Graph) :
      Call g ((addBinding p v sources).run.run g).2
  | addFunction (p : Program) (f : FuncId) (g : Graph) : Call g ((addFunction p f).run.run g).2
  | addModule (p : Program) (k : ModuleId) (g : Graph) : Call g ((addModule p k).run.run g).2
  | solve (g : Graph) : Call g (solve.run.run g).2

/-- The graph comes from one without nodes by some calls. -/
def Session (g : Graph) : Prop := ∃ s o, Relation.ReflTransGen Call (empty s o) g

theorem Built.session (h : Built p g) : Session g := by
  obtain ⟨o, ⟨f, rfl⟩ | ⟨k, rfl⟩⟩ := h
  · exact ⟨_, o, .single (.addFunction p f _)⟩
  · exact ⟨_, o, .single (.addModule p k _)⟩

/-- One call keeps ranges formed. -/
theorem Formed.call (h : Formed s g) (hCall : Call g g') : Formed s g' := by
  cases hCall with
  | addValue p v => exact formed_addValue p v g h
  | addInstr p b i => exact formed_addInstr p b i g h
  | addBranch p b => exact formed_addBranch p b g h
  | addBinding p v sources => exact formed_addBinding p v sources g h
  | addFunction p f => exact formed_addFunction p f g h
  | addModule p k => exact formed_addModule p k g h
  | solve => exact formed_solve g h

theorem Session.formed (h : Session g) : Formed g.sentinels g := by
  obtain ⟨s, o, hCalls⟩ := h
  have hFormed : Formed s g := by
    induction hCalls with
    | refl => exact .empty s o
    | tail _ hCall ih => exact ih.call hCall
  exact hFormed.sentinels ▸ hFormed

/-- Ranges are made well-formed, and every operation on ranges keeps them so and is empty for an
empty operand; a union is empty if both operands are. Throughout the solution of a graph that any
calls left behind, from its first ranges on and also if it fails, the ranges of the nodes and the
intersections of the operations are well-formed ranges of the sentinels of the graph. -/
theorem ranges_wellFormed (s : Sentinels) (hg : Session g) :
    ((∀ l u, WellFormed s (s.interval l u)) ∧ (∀ n, WellFormed s (s.singleton n)) ∧
      ∀ h, WellFormed s (s.ofHint h)) ∧
    ((∀ f : BinaryOp, Strict₂ s f.transfer) ∧ Strict₂ s intersect ∧
      ∀ r o, WellFormed s r → WellFormed s o →
        WellFormed s (r.union o) ∧ (r.isEmpty = true → o.isEmpty = true → r.union o = s.empty)) ∧
    ((∀ w, Strict s fun r => r.truncate w) ∧ Strict s signExtend ∧
      (∀ w, 0 < w → Strict s fun r => r.zeroExtend w) ∧ ∀ t, Strict s fun r => r.convert t) ∧
    (∀ c r, WellFormed s r → WellFormed s (region s c r)) ∧
    (g.solved = false → Writes g.seed (solve.run.run g).2) ∧
    ∀ g', Writes g.seed g' → g'.sentinels = g.sentinels ∧
      (∀ n, WellFormed g.sentinels (g'.range n)) ∧
      ∀ (o : OpId) (op : Operation), g'.ops[o]? = some op →
        WellFormed g.sentinels op.intersect := by
  refine ⟨⟨.interval s, fun n => .interval s n n, fun h => .interval s _ _⟩,
    ⟨strict₂_transfer s, strict₂_intersect s, ?_⟩,
    ⟨fun w => strict_convert s (.signed w), strict_signExtend s, ?_, strict_convert s⟩, ?_,
    writes_solve, ?_⟩
  · intro r o hr ho
    refine ⟨hr.union ho, fun he he' => ?_⟩
    rw [union, if_pos he]
    exact ho.eq_empty he'
  · intro w _
    exact strict_zeroExtend s w
  · intro c r hr
    exact hr.region c
  · intro g' hWrites
    have hFormed := hg.formed.seed.writes hWrites
    exact ⟨hFormed.sentinels, hFormed.range, fun o op => hFormed.intersect⟩

/-- The loop that counts up, before and after it is solved. -/
theorem looping_wellFormed :
    Session looping ∧ Writes looping.seed (solve.run.run looping).2 ∧
      (∀ n, WellFormed looping.sentinels (looping.seed.range n)) ∧
      (∀ n, WellFormed looping.sentinels ((solve.run.run looping).2.range n)) ∧
      ∀ (o : OpId) (op : Operation), (solve.run.run looping).2.ops[o]? = some op →
        WellFormed looping.sentinels op.intersect := by
  have hSession : Session looping :=
    Built.session (p := Program.counting) ⟨⟨.crop, 0, false⟩, .inl ⟨0, rfl⟩⟩
  have hAll := (ranges_wellFormed (.ofWidth 8) hSession).2.2.2.2
  have hWrites := hAll.1 looping_unstarted.solved
  exact ⟨hSession, hWrites, (hAll.2 looping.seed .refl).2.1, (hAll.2 _ hWrites).2⟩

end Graph

end ValueRange
