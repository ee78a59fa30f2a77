import ValueRange.Proofs.Graph.Embedding
import ValueRange.Proofs.Program.Completeness

/-! Building a graph behind another one. If the values that a function mentions are new to a graph,
adding the function to it does what adding the function to an empty graph does: the same nodes,
operations and facts come behind those that are there, with all references moved on. -/

namespace ValueRange

/-- The function mentions values in `P` only, and what defines these reads values in `P`. -/
structure Program.Mentions (p : Program) (f : FuncId) (P : ValueId → Prop) : Prop where
  param {v : ValueId} : v ∈ (p.func f).params → P v
  result {b : BlockId} {i : Instr} {v : ValueId} : b ∈ (p.func f).blocks →
    i ∈ (p.block b).instrs → i.result = some v → P v
  arg {b : BlockId} {i : Instr} {v : ValueId} : b ∈ (p.func f).blocks →
    i ∈ (p.block b).instrs → some v ∈ i.args → P v
  operand {b : BlockId} {t : Terminator} {v : ValueId} : b ∈ (p.func f).blocks →
    (p.block b).term = some t → some v ∈ t.operands → P v
  source {v u : ValueId} {i : Instr} : P v → (p.value v).site.bind p.instr? = some i →
    some u ∈ i.args → P u

namespace Graph

variable {P Q : ValueId → Prop} {G g g' : Graph} {n : NodeId} {v : ValueId}

/-! ### One graph behind another -/

/-- The graph `G` with `g` behind it. -/
def append (G g : Graph) : Graph :=
  { G with
    nodes := G.nodes ++ g.nodes.map (Node.shift G.ops.size)
    ops := G.ops ++ g.ops.map (Operation.shift G.nodes.size)
    branches := G.branches ++ g.branches
    switches := G.switches ++ g.switches }

theorem append_empty (G : Graph) (s : Sentinels) (o : Options) : G.append (empty s o) = G := by
  simp [append, empty]

theorem getElem?_append_add (G g : Graph) (n : NodeId) : (G.append g).nodes[n + G.nodes.size]? =
    (g.nodes[n]?).map (Node.shift G.ops.size) := by
  show (G.nodes ++ _)[n + G.nodes.size]? = _
  rw [Array.getElem?_append_right (Nat.le_add_left _ _), Nat.add_sub_cancel, Array.getElem?_map]

theorem getElem?_append_lt (g : Graph) (hn : n < G.nodes.size) :
    (G.append g).nodes[n]? = G.nodes[n]? :=
  Array.getElem?_append_left hn

theorem size_append (G g : Graph) : (G.append g).nodes.size = G.nodes.size + g.nodes.size := by
  show (G.nodes ++ _).size = _
  rw [Array.size_append, Array.size_map]

/-- The second graph stands in the whole. -/
theorem SameFrame.embeds (h : SameFrame G g) : Embeds G.nodes.size G.ops.size g (G.append g) := by
  refine ⟨h.sentinels.symm, h.narrowing.symm, fun {n x} hx => ?_, fun {o op} ho => ?_⟩
  · rw [getElem?_append_add, hx]
    rfl
  · show (G.ops ++ _)[o + G.ops.size]? = _
    rw [Array.getElem?_append_right (Nat.le_add_left _ _), Nat.add_sub_cancel, Array.getElem?_map,
      ho]
    rfl

/-- What stands in the first graph stands in the whole. -/
theorem Embeds.append {a b : Nat} {h : Graph} (hEmbeds : Embeds a b g h) (g' : Graph) :
    Embeds a b g (h.append g') := by
  refine ⟨hEmbeds.sentinels, hEmbeds.narrowing, fun {n x} hx => ?_, fun {o op} ho => ?_⟩
  · have hOld := hEmbeds.node hx
    rw [getElem?_append_lt g' (Array.getElem?_eq_some_iff.mp hOld).1, hOld]
  · have hOld := hEmbeds.op ho
    refine Eq.trans ?_ hOld
    exact Array.getElem?_append_left (Array.getElem?_eq_some_iff.mp hOld).1

theorem pushNode_append (p : Program) (v : ValueId) (G g : Graph) :
    { G.append g with nodes := (G.append g).nodes.push (newNode p v) } =
      G.append { g with nodes := g.nodes.push (newNode p v) } := by
  simp only [append, Array.map_push, Array.append_push]
  rfl

/-- An operation adds nothing to the nodes before those it refers to. -/
theorem withOperation_of_lt {a n : Nat} (o : OpId) (sink : NodeId) (kind : Kind) (hn : n < a)
    (x : Node) : withOperation o (sink + a) (kind.shift a) n x = x := by
  have hLater (m : Nat) : m + a ≠ n := by omega
  have hCount : (kind.shift a).operands.count n = 0 := by
    rw [Kind.operands_shift, List.count_eq_zero]
    intro hMem
    obtain ⟨m, -, hm⟩ := List.mem_map.mp hMem
    exact hLater m hm
  have hBound : (kind.shift a).bound?.any (·.1 == n) = false := by
    rw [Kind.bound?_shift, Option.any_map, Option.any_eq_false_iff_get]
    exact fun _ => beq_eq_false_iff_ne.mpr (hLater _)
  unfold withOperation
  rw [if_neg (Ne.symm (hLater sink)), hCount, hBound, List.replicate_zero, List.append_nil]
  simp

theorem withOperation_shift (a b : Nat) (o : OpId) (sink : NodeId) (kind : Kind) (n : NodeId)
    (x : Node) : withOperation (o + b) (sink + a) (kind.shift a) (n + a) (x.shift b) =
      (withOperation o sink kind n x).shift b := by
  have hCount : (kind.operands.map (· + a)).count (n + a) = kind.operands.count n :=
    List.count_map_of_injective _ (· + a) (fun _ _ => Nat.add_right_cancel) n
  unfold withOperation Node.shift
  simp only [Kind.operands_shift, Kind.bound?_shift, hCount, Option.any_map, List.map_append,
    List.map_replicate, Nat.add_right_cancel_iff]
  congr 1
  · split <;> rfl
  · have hSame : (fun e : NodeId × Comparison => e.1 + a == n + a) = fun e => e.1 == n := by
      funext e
      rw [Bool.eq_iff_iff, beq_iff_eq, beq_iff_eq, Nat.add_right_cancel_iff]
    rw [hSame, apply_ite (List.map (· + b))]
    rfl

/-- An operation is added behind the first graph. -/
theorem pushOperation_append (G g : Graph) (sink : NodeId) (kind : Kind) (r : Range) :
    (G.append g).pushOperation (sink + G.nodes.size) (kind.shift G.nodes.size) r =
      G.append (g.pushOperation sink kind r) := by
  have hOpsSize : (G.append g).ops.size = g.ops.size + G.ops.size := by
    show (G.ops ++ _).size = _
    rw [Array.size_append, Array.size_map, Nat.add_comm]
  have hNodes : ((G.append g).pushOperation (sink + G.nodes.size) (kind.shift G.nodes.size) r).nodes =
      (G.append (g.pushOperation sink kind r)).nodes := by
    refine Array.ext_getElem? fun n => ?_
    rw [nodes_pushOperation]
    rcases Nat.lt_or_ge n G.nodes.size with hn | hn
    · rw [getElem?_append_lt g hn, getElem?_append_lt _ hn]
      exact Option.map_congr (fun x _ => withOperation_of_lt _ sink kind hn x) |>.trans Option.map_id'
    · obtain ⟨m, rfl⟩ : ∃ m, n = m + G.nodes.size := ⟨n - G.nodes.size, by omega⟩
      rw [getElem?_append_add, getElem?_append_add, nodes_pushOperation, Option.map_map,
        Option.map_map, hOpsSize]
      exact Option.map_congr fun x _ => withOperation_shift ..
  have hOps : ((G.append g).pushOperation (sink + G.nodes.size) (kind.shift G.nodes.size) r).ops =
      (G.append (g.pushOperation sink kind r)).ops := by
    show (G.ops ++ g.ops.map _).push _ = G.ops ++ (g.ops.push _).map _
    rw [Array.map_push, Array.append_push]
    rfl
  exact congrArg₂ (fun nodes ops => { G.append g with nodes, ops }) hNodes hOps

/-! ### What a graph says -/

/-- The nodes and the facts of the graph are about values in `P`. -/
structure Confined (P : ValueId → Prop) (g : Graph) : Prop where
  node {x : Node} : x ∈ g.nodes → P x.value
  branch {e : ValueId × BranchFact} : e ∈ g.branches → P e.1
  switch {e : ValueId × SwitchFact} : e ∈ g.switches → P e.1
  bound {e : ValueId × BranchFact} {c : Comparison} {u : ValueId} : e ∈ g.branches →
    e.2.onYes = .against c u ∨ e.2.onNo = .against c u → P u

theorem confined_empty (P : ValueId → Prop) (s : Sentinels) (o : Options) :
    Confined P (empty s o) := by
  constructor <;> intros <;> simp_all [empty]

theorem Confined.mono (h : Confined P g) (hPQ : ∀ v, P v → Q v) : Confined Q g :=
  ⟨fun hx => hPQ _ (h.node hx), fun he => hPQ _ (h.branch he), fun he => hPQ _ (h.switch he),
    fun he hu => hPQ _ (h.bound he hu)⟩

theorem Confined.append (hG : Confined P G) (hg : Confined P g) : Confined P (G.append g) := by
  refine ⟨fun {x} hx => ?_, fun {e} he => ?_, fun {e} he => ?_, fun {e c u} he hu => ?_⟩
  · rcases Array.mem_append.mp hx with hx | hx
    · exact hG.node hx
    · obtain ⟨y, hy, rfl⟩ := Array.mem_map.mp hx
      exact (hg.node hy : P y.value)
  · exact (Array.mem_append.mp he).elim hG.branch hg.branch
  · exact (Array.mem_append.mp he).elim hG.switch hg.switch
  · exact (Array.mem_append.mp he).elim (hG.bound · hu) (hg.bound · hu)

/-- The second graph is like the first one, but about other values. -/
structure Beside (P : ValueId → Prop) (G g : Graph) : Prop where
  frame : SameFrame G g
  old : Confined (fun v => ¬ P v) G
  new : Confined P g

theorem Beside.step (h : Beside P G g) (hFrame : SameFrame g g') (hNew : Confined P g') :
    Beside P G g' :=
  ⟨h.frame.trans hFrame, h.old, hNew⟩

theorem Beside.nodeOf? (h : Beside P G g) (hv : P v) :
    (G.append g).nodeOf? v = (g.nodeOf? v).map (· + G.nodes.size) := by
  have hNone : G.nodes.findIdx? (fun x => x.value == v) = none := by
    refine Array.findIdx?_eq_none_iff.mpr fun x hx => beq_eq_false_iff_ne.mpr ?_
    rintro rfl
    exact h.old.node hx hv
  unfold Graph.nodeOf?
  show (G.nodes ++ _).findIdx? _ = _
  rw [Array.findIdx?_append, hNone, Array.findIdx?_map]
  rfl

/-- Facts about other values do not count. -/
theorem filter_append_of_ne {β : Type} {xs : Array (ValueId × β)} (ys : Array (ValueId × β))
    (hxs : ∀ e ∈ xs, e.1 ≠ v) :
    (xs ++ ys).toList.filter (fun e => e.1 == v) = ys.toList.filter fun e => e.1 == v := by
  have hNone : xs.toList.filter (fun e => e.1 == v) = [] :=
    List.filter_eq_nil_iff.mpr fun e he hEq =>
      hxs e (Array.mem_toList_iff.mp he) (beq_iff_eq.mp hEq)
  rw [Array.toList_append, List.filter_append, hNone, List.nil_append]

theorem Beside.factAt? (h : Beside P G g) (hv : P v) (b : BlockId) :
    (G.append g).factAt? v b = g.factAt? v b := by
  have hBranches : (G.append g).branchFacts v = g.branchFacts v :=
    congrArg (List.map _) (filter_append_of_ne g.branches fun e he hEq =>
      h.old.branch he (hEq ▸ hv))
  have hSwitches : (G.append g).switchFacts v = g.switchFacts v :=
    congrArg (List.map _) (filter_append_of_ne g.switches fun e he hEq =>
      h.old.switch he (hEq ▸ hv))
  unfold Graph.factAt?
  rw [hBranches, hSwitches]

/-! ### Actions on both graphs -/

/-- If the first action succeeds on `g`, the second one does the same behind `G`; the results are
related. -/
def Grafts {α : Type} (P : ValueId → Prop) (G g : Graph) (x y : GraphM α) (R : α → α → Prop) : Prop :=
  ∀ a g', x.run.run g = (.ok a, g') →
    Beside P G g' ∧ ∃ a', R a a' ∧ y.run.run (G.append g) = (.ok a', G.append g')

namespace Grafts

variable {α β : Type} {x y : GraphM α} {R : α → α → Prop} {S : β → β → Prop}

theorem pure {a a' : α} (h : Beside P G g) (hR : R a a') :
    Grafts P G g (Pure.pure a) (Pure.pure a') R := by
  rintro b g' ⟨⟩
  exact ⟨h, a', hR, rfl⟩

theorem throw (e : Fault) : Grafts P G g (MonadExcept.throw e) y R := nofun

theorem lift {e : Except Fault α} (h : Beside P G g) (hR : ∀ a, e = .ok a → R a a) :
    Grafts P G g (liftM e) (liftM e) R := by
  intro a g' hRun
  rw [run_lift] at hRun
  obtain ⟨rfl, rfl⟩ := Prod.mk.inj hRun
  exact ⟨h, a, hR a rfl, rfl⟩

theorem bind {f f' : α → GraphM β} (hx : Grafts P G g x y R)
    (hf : ∀ a a' g', Beside P G g' → R a a' → Grafts P G g' (f a) (f' a') S) :
    Grafts P G g (x >>= f) (y >>= f') S := by
  intro b g'' hRun
  rw [run_bind] at hRun
  cases hFirst : x.run.run g with
  | mk answer g' =>
    rw [hFirst] at hRun
    cases answer with
    | error e => cases hRun
    | ok a =>
      obtain ⟨hBeside, a', ha, hRun'⟩ := hx a g' hFirst
      obtain ⟨hBeside', b', hb, hLast⟩ := hf a a' g' hBeside ha b g'' hRun
      refine ⟨hBeside', b', hb, ?_⟩
      rw [run_bind, hRun']
      exact hLast

theorem get_bind {f f' : Graph → GraphM β} (h : Grafts P G g (f g) (f' (G.append g)) S) :
    Grafts P G g (get >>= f) (get >>= f') S := by
  intro b g' hRun
  rw [run_get_bind] at hRun ⊢
  exact h b g' hRun

theorem modify {step step' : Graph → Graph} (h : Beside P G (step g))
    (hStep : step' (G.append g) = G.append (step g)) :
    Grafts P G g (modify step) (modify step') Eq := by
  rintro a g' ⟨⟩
  refine ⟨h, (), rfl, ?_⟩
  rw [run_modify, hStep]

theorem forIn {xs : List α} {f : α → PUnit → GraphM (ForInStep PUnit)} (hg : Beside P G g)
    (h : ∀ x ∈ xs, ∀ g', Beside P G g' → Grafts P G g' (f x ⟨⟩) (f x ⟨⟩) Eq) :
    Grafts P G g (forIn xs PUnit.unit f) (ForIn.forIn xs PUnit.unit f) Eq := by
  induction xs generalizing g with
  | nil => exact pure hg rfl
  | cons x xs ih =>
    rw [List.forIn_cons]
    refine bind (h x List.mem_cons_self g hg) ?_
    rintro step - g' hg' rfl
    cases step with
    | done _ => exact pure hg' rfl
    | yield _ => exact ih hg' fun y hy => h y (List.mem_cons_of_mem x hy)

theorem forInArray {xs : Array α} {f : α → PUnit → GraphM (ForInStep PUnit)} (hg : Beside P G g)
    (h : ∀ x ∈ xs, ∀ g', Beside P G g' → Grafts P G g' (f x ⟨⟩) (f x ⟨⟩) Eq) :
    Grafts P G g (ForIn.forIn xs PUnit.unit f) (ForIn.forIn xs PUnit.unit f) Eq := by
  rw [← Array.forIn_toList]
  exact forIn hg fun x hx => h x (Array.mem_toList_iff.mp hx)

/-- An action followed by one that changes nothing. -/
theorem andPure {f f' : α → β} (h : Grafts P G g x y R) :
    Grafts P G g (x >>= fun a => Pure.pure (f a)) (y >>= fun a => Pure.pure (f' a))
      fun _ _ => True :=
  bind h fun _ _ _ hg _ => pure hg trivial

/-- A step of a loop, whose result is not used. -/
theorem andYield (h : Grafts P G g x y R) :
    Grafts P G g (x >>= fun _ => Pure.pure (ForInStep.yield PUnit.unit))
      (y >>= fun _ => Pure.pure (ForInStep.yield PUnit.unit)) Eq :=
  bind h fun _ _ _ hg _ => pure hg rfl

end Grafts

section Builders

variable {p : Program}

theorem checkOpen_grafts (h : Beside P G g) : Grafts P G g checkOpen checkOpen Eq := by
  refine Grafts.get_bind ?_
  show Grafts P G g _ (if G.started then _ else _) Eq
  rw [← h.frame.started]
  split
  · exact Grafts.throw _
  · exact Grafts.pure h rfl

theorem addValue_grafts (h : Beside P G g) (hv : P v) :
    Grafts P G g (addValue p v) (addValue p v) fun n n' => n' = n + G.nodes.size := by
  unfold addValue
  refine Grafts.get_bind ?_
  rw [h.nodeOf? hv]
  cases g.nodeOf? v with
  | some n => exact Grafts.pure h rfl
  | none =>
    refine Grafts.bind (checkOpen_grafts h) fun _ _ g1 h1 _ => ?_
    rintro n g' ⟨⟩
    refine ⟨h1.step ⟨rfl, rfl, rfl, rfl⟩
      ⟨fun {x} hx => ?_, h1.new.branch, h1.new.switch, h1.new.bound⟩,
      g1.nodes.size + G.nodes.size, rfl, ?_⟩
    · rcases Array.mem_push.mp hx with hx | rfl
      · exact h1.new.node hx
      · exact hv
    · show (Except.ok (G.append g1).nodes.size, { G.append g1 with
        nodes := (G.append g1).nodes.push (newNode p v) }) = _
      rw [pushNode_append, size_append, Nat.add_comm]

theorem addOperation_grafts (h : Beside P G g) (hv : P v) (kind : Kind) (r : Range) :
    Grafts P G g (addOperation p v kind r) (addOperation p v (kind.shift G.nodes.size) r)
      fun _ _ => True := by
  unfold addOperation
  refine Grafts.bind (checkOpen_grafts h) fun _ _ g1 h1 _ => ?_
  refine Grafts.bind (addValue_grafts h1 hv) ?_
  rintro sink - g2 h2 rfl
  refine Grafts.get_bind ?_
  have hDefinition : (G.append g2).definition (sink + G.nodes.size) =
      (g2.definition sink).map (· + G.ops.size) := by
    rw [definition, getElem?_append_add, Option.bind_map, definition, Option.map_bind]
    rfl
  rw [hDefinition, Option.isSome_map]
  split
  · exact Grafts.bind (Grafts.throw (R := fun _ _ => False) _) fun _ _ _ _ h => h.elim
  · rintro o g' ⟨⟩
    refine ⟨h2.step ⟨rfl, rfl, rfl, rfl⟩ ⟨fun {x} hx => ?_, h2.new.branch, h2.new.switch,
      h2.new.bound⟩, (G.append g2).ops.size, trivial, ?_⟩
    · obtain ⟨n, hn⟩ := Array.mem_iff_getElem?.mp hx
      rw [nodes_pushOperation] at hn
      obtain ⟨y, hy, rfl⟩ := Option.map_eq_some_iff.mp hn
      exact (h2.new.node (Array.mem_of_getElem? hy) : P y.value)
    · rw [← pushOperation_append]
      rfl

theorem Confined.fact (hg : Confined P g) {b : BlockId} {c : Comparison} {u : ValueId}
    (hFact : g.factAt? v b = some (.against c u)) : P u := by
  unfold Graph.factAt? at hFact
  split at hFact
  case h_1 fact hBranch =>
    cases hFact
    obtain ⟨f, hf, hAt⟩ := List.exists_of_findSome?_eq_some hBranch
    obtain ⟨e, he, rfl⟩ := List.mem_map.mp hf
    refine hg.bound (c := c) (Array.mem_toList_iff.mp (List.mem_filter.mp he).1) ?_
    unfold BranchFact.at? at hAt
    split at hAt
    · exact .inl (Option.some.inj hAt)
    · split at hAt
      · exact .inr (Option.some.inj hAt)
      · cases hAt
  case h_2 =>
    obtain ⟨f, -, hCase⟩ := List.exists_of_findSome?_eq_some hFact
    obtain ⟨r, -, hr⟩ := Option.map_eq_some_iff.mp hCase
    cases hr

theorem addSigma_grafts {b : BlockId} {source : ValueId} (h : Beside P G g) (hv : P v)
    (hSource : P source) :
    Grafts P G g (addSigma p b v source) (addSigma p b v source) fun _ _ => True := by
  unfold addSigma
  refine Grafts.bind (addValue_grafts h hSource) ?_
  rintro src - g1 h1 rfl
  refine Grafts.get_bind ?_
  rw [h1.factAt? hSource]
  cases hFact : g1.factAt? source b with
  | none =>
    refine Grafts.get_bind ?_
    rw [h1.frame.sentinels]
    exact addOperation_grafts h1 hv (.sigma src none) _
  | some fact =>
    cases fact with
    | within r => exact addOperation_grafts h1 hv (.sigma src none) r
    | against c bound =>
      refine Grafts.bind (addValue_grafts h1 (h1.new.fact hFact)) ?_
      rintro n - g2 h2 rfl
      refine Grafts.get_bind ?_
      rw [h2.frame.sentinels]
      exact addOperation_grafts h2 hv (.sigma src (some (n, c))) _

theorem operandAt_grafts (h : Beside P G g) {args : List (Option ValueId)}
    (hArgs : ∀ v, some v ∈ args → P v) (k : Nat) :
    Grafts P G g (operandAt args k) (operandAt args k) fun a a' => a' = a ∧ P a := by
  unfold operandAt
  split
  case h_1 a ha => exact Grafts.pure h ⟨rfl, hArgs a (List.mem_of_getElem? ha)⟩
  case h_2 => exact Grafts.throw _

theorem addValues_grafts (h : Beside P G g) {vs : List ValueId} (hvs : ∀ v ∈ vs, P v) :
    Grafts P G g (vs.mapM (addValue p)) (vs.mapM (addValue p)) fun ns ns' =>
      ns' = ns.map (· + G.nodes.size) := by
  induction vs generalizing g with
  | nil => exact Grafts.pure h rfl
  | cons v vs ih =>
    rw [List.mapM_cons]
    refine Grafts.bind (addValue_grafts h (hvs v List.mem_cons_self)) ?_
    rintro n - g1 h1 rfl
    refine Grafts.bind (ih h1 fun u hu => hvs u (List.mem_cons_of_mem v hu)) ?_
    rintro ns - g2 h2 rfl
    exact Grafts.pure h2 rfl

theorem addInstr_grafts {b : BlockId} {i : Instr} (h : Beside P G g)
    (hResult : ∀ v, i.result = some v → P v) (hArgs : ∀ v, some v ∈ i.args → P v) :
    Grafts P G g (addInstr p b i) (addInstr p b i) fun _ _ => True := by
  unfold addInstr
  cases hv : i.result with
  | none => exact Grafts.pure h trivial
  | some v =>
    have hPv := hResult v hv
    dsimp only
    split
    · exact Grafts.pure h trivial
    refine Grafts.bind (Grafts.lift (R := Eq) h fun _ _ => rfl) ?_
    rintro untracked - g1 h1 rfl
    split
    · exact (addValue_grafts h1 hPv).andPure
    split
    · rename_i op _
      refine Grafts.bind (operandAt_grafts h1 hArgs 0) ?_
      rintro a _ g2 h2 ⟨rfl, ha⟩
      refine Grafts.bind (addValue_grafts h2 ha) ?_
      rintro src - g3 h3 rfl
      refine Grafts.get_bind ?_
      rw [h3.frame.sentinels]
      exact (addOperation_grafts h3 hPv (.unary op src _ _) _).andPure
    · rename_i op _
      refine Grafts.bind (operandAt_grafts h1 hArgs 0) ?_
      rintro a _ g2 h2 ⟨rfl, ha⟩
      refine Grafts.bind (addValue_grafts h2 ha) ?_
      rintro lhs - g3 h3 rfl
      refine Grafts.bind (operandAt_grafts h3 hArgs 1) ?_
      rintro a' _ g4 h4 ⟨rfl, ha'⟩
      refine Grafts.bind (addValue_grafts h4 ha') ?_
      rintro rhs - g5 h5 rfl
      refine Grafts.get_bind ?_
      rw [h5.frame.sentinels]
      exact (addOperation_grafts h5 hPv (.binary op lhs rhs) _).andPure
    · refine Grafts.bind (addValues_grafts h1 fun u hu => ?_) ?_
      · obtain ⟨a, ha, rfl⟩ := List.mem_filterMap.mp hu
        exact hArgs u ha
      rintro sources - g2 h2 rfl
      refine Grafts.get_bind ?_
      rw [h2.frame.sentinels]
      exact (addOperation_grafts h2 hPv (.phi sources) _).andPure
    · refine Grafts.bind (operandAt_grafts h1 hArgs 0) ?_
      rintro a _ g2 h2 ⟨rfl, ha⟩
      exact (addSigma_grafts h2 hPv ha).andPure
    · exact (addValue_grafts h1 hPv).andPure

/-- The values that a fact compares with are in `P`. -/
def BranchFact.Within (P : ValueId → Prop) (f : BranchFact) : Prop :=
  ∀ c u, f.onYes = .against c u ∨ f.onNo = .against c u → P u

theorem pushBranch_grafts (h : Beside P G g) (hv : P v) {f : BranchFact}
    (hf : BranchFact.Within P f) :
    Grafts P G g (modify fun g => { g with branches := g.branches.push (v, f) })
      (modify fun g => { g with branches := g.branches.push (v, f) }) Eq := by
  refine Grafts.modify (h.step ⟨rfl, rfl, rfl, rfl⟩ ⟨h.new.node, fun {e} he => ?_, h.new.switch,
    fun {e c u} he hu => ?_⟩) ?_
  · rcases Array.mem_push.mp he with he | rfl
    · exact h.new.branch he
    · exact hv
  · rcases Array.mem_push.mp he with he | rfl
    · exact h.new.bound he hu
    · exact hf c u hu
  · simp only [append, Array.append_push]

theorem addFact_grafts {fn : FuncId} (hp : p.Mentions fn P) (h : Beside P G g) (hv : P v)
    {f : BranchFact} (hf : BranchFact.Within P f) :
    Grafts P G g (addFact p v f) (addFact p v f) Eq := by
  have hSource {op : Opcode} {arg : Option ValueId} {u : ValueId} (hArg : arg = some u)
      (hSite : (((p.value v).site.bind p.instr?).map fun i => (i.op, i.args)) = some (op, [arg])) :
      P u := by
    obtain ⟨i, hi, hSame⟩ := Option.map_eq_some_iff.mp hSite
    refine hp.source hv hi ?_
    rw [(Prod.mk.inj hSame).2, hArg]
    exact List.mem_singleton_self _
  unfold addFact
  refine Grafts.bind (pushBranch_grafts h hv hf) ?_
  rintro - - g1 h1 -
  split
  iterate 2
    case _ hSite =>
      split
      · exact Grafts.throw _
      · split
        · exact pushBranch_grafts h1 (hSource rfl hSite) hf
        · exact Grafts.pure h1 rfl
  · exact Grafts.pure h1 rfl

theorem within_factOf {s : Sentinels} {pred : Predicate} {other : ValueId} {yes no : BlockId}
    {f : BranchFact} (hf : factOf p s pred other yes no = .ok f) (hOther : P other) :
    BranchFact.Within P f := by
  unfold factOf at hf
  split at hf <;> cases hf <;> rintro c u (hu | hu) <;> cases hu <;> exact hOther

theorem addTest_grafts {fn : FuncId} (hp : p.Mentions fn P) (h : Beside P G g) (pred : Predicate)
    {x y : Option ValueId} (hx : ∀ v, x = some v → P v) (hy : ∀ v, y = some v → P v)
    (yes no : BlockId) :
    Grafts P G g (addTest p pred x y yes no) (addTest p pred x y yes no) Eq := by
  unfold addTest
  cases x with
  | none => exact Grafts.throw _
  | some x =>
    dsimp only
    split
    · exact Grafts.pure h rfl
    cases y with
    | none => exact Grafts.throw _
    | some y =>
      dsimp only
      split
      · exact Grafts.pure h rfl
      refine Grafts.get_bind ?_
      rw [show (G.append g).sentinels = g.sentinels from h.frame.sentinels.symm]
      have hFact {g1 : Graph} (h1 : Beside P G g1) (pred : Predicate) {u v : ValueId} (hu : P u)
          (hv : P v) : Grafts P G g1
            (do addFact p u (← liftM (factOf p g.sentinels pred v yes no)))
            (do addFact p u (← liftM (factOf p g.sentinels pred v yes no))) Eq := by
        refine Grafts.bind (Grafts.lift (R := fun f f' => f' = f ∧ BranchFact.Within P f) h1
          fun f hf => ⟨rfl, within_factOf hf hv⟩) ?_
        rintro f _ g2 h2 ⟨rfl, hf⟩
        exact addFact_grafts hp h2 hu hf
      have hSecond {g1 : Graph} (h1 : Beside P G g1) : Grafts P G g1
          (if !(p.value y).const.isSome then do
            let flipped ← liftM pred.flip
            addFact p y (← liftM (factOf p g.sentinels (.known flipped) x yes no))
          else pure ())
          (if !(p.value y).const.isSome then do
            let flipped ← liftM pred.flip
            addFact p y (← liftM (factOf p g.sentinels (.known flipped) x yes no))
          else pure ()) Eq := by
        split
        · refine Grafts.bind (Grafts.lift (R := Eq) h1 fun _ _ => rfl) ?_
          rintro flipped - g2 h2 rfl
          exact hFact h2 (.known flipped) (hy y rfl) (hx x rfl)
        · exact Grafts.pure h1 rfl
      split
      · exact Grafts.pure h rfl
      · split
        · refine Grafts.bind (Grafts.lift (R := fun f f' => f' = f ∧ BranchFact.Within P f) h
            fun f hf => ⟨rfl, within_factOf hf (hy y rfl)⟩) ?_
          rintro f _ g2 h2 ⟨rfl, hf⟩
          refine Grafts.bind (addFact_grafts hp h2 (hx x rfl) hf) ?_
          exact fun _ _ _ h3 _ => hSecond h3
        · exact hSecond h

theorem addBranch_grafts {fn : FuncId} (hp : p.Mentions fn P) {b : BlockId}
    (hb : b ∈ (p.func fn).blocks) (h : Beside P G g) :
    Grafts P G g (addBranch p b) (addBranch p b) Eq := by
  unfold addBranch
  split
  case h_1 pred x y yes no ht =>
    refine addTest_grafts hp h pred (fun v hv => ?_) (fun v hv => ?_) yes no
    · exact hp.operand hb ht (hv ▸ List.mem_cons_self)
    · exact hp.operand hb ht (hv ▸ List.mem_cons_of_mem _ List.mem_cons_self)
  case h_2 on cases otherwise ht =>
    cases on with
    | none => exact Grafts.throw _
    | some on =>
      dsimp only
      split
      · refine Grafts.modify (h.step ⟨rfl, rfl, rfl, rfl⟩ ⟨h.new.node, h.new.branch,
          fun {e} he => ?_, h.new.bound⟩) ?_
        · rcases Array.mem_push.mp he with he | rfl
          · exact h.new.switch he
          · exact hp.operand hb ht List.mem_cons_self
        · simp only [append, Array.append_push, h.frame.sentinels]
      · exact Grafts.pure h rfl
  case h_3 => exact Grafts.pure h rfl

/-- A function is added behind a graph that knows none of its values as it is added to a graph on its
own. -/
theorem addFunction_grafts {fn : FuncId} (hp : p.Mentions fn P) (h : Beside P G g) :
    Grafts P G g (addFunction p fn) (addFunction p fn) Eq := by
  unfold addFunction
  refine Grafts.bind (Grafts.forInArray h fun v hv g1 h1 => ?_) fun _ _ g1 h1 _ => ?_
  · split
    · exact (addValue_grafts h1 (hp.param hv)).andYield
    · exact Grafts.pure h1 rfl
  refine Grafts.bind (Grafts.forInArray h1 fun b hb g2 h2 => ?_) fun _ _ g2 h2 _ => ?_
  · exact (addBranch_grafts hp hb h2).andYield
  refine Grafts.bind (Grafts.forInArray h2 fun b hb g3 h3 => ?_) fun _ _ g3 h3 _ =>
    Grafts.pure h3 rfl
  refine Grafts.andYield (Grafts.forInArray h3 fun i hi g4 h4 => ?_)
  exact (addInstr_grafts h4 (fun v hv => hp.result hb hi hv) fun v hv => hp.arg hb hi hv).andYield

end Builders

end Graph

end ValueRange
