import Mathlib.Logic.Relation
import ValueRange.Graph.Calls

/-! Building a graph step by step. Whatever is added to a graph, and whether or not it fails
half-way, the graph goes through a sequence of small extensions: a node, an operation whose sources
have nodes, more sources of a phi, or a fact about a branch. -/

namespace ValueRange.Graph

section Runs

variable {α β : Type} (g : Graph)

theorem run_bind (x : GraphM α) (f : α → GraphM β) :
    (x >>= f).run.run g = match x.run.run g with
      | (.ok a, g') => (f a).run.run g'
      | (.error e, g') => (.error e, g') := by
  rw [ExceptT.run_bind, StateT.run_bind]
  show (match x.run.run g with | (a, s') => _) = _
  rcases x.run.run g with ⟨e | a, g'⟩ <;> rfl

theorem run_get_bind (f : Graph → GraphM β) : (get >>= f).run.run g = (f g).run.run g := by
  rw [run_bind]
  rfl

theorem run_modify (f : Graph → Graph) : (modify f : GraphM Unit).run.run g = (.ok (), f g) := rfl

theorem run_modify_bind (step : Graph → Graph) (f : PUnit → GraphM β) :
    (modify step >>= f).run.run g = (f ⟨⟩).run.run (step g) := by
  rw [run_bind]
  rfl

theorem run_lift (e : Except Fault α) : (liftM e : GraphM α).run.run g = (e, g) := rfl

end Runs

/-- The value of a node. -/
def valueAt? (g : Graph) (n : NodeId) : Option ValueId := (g.nodes[n]?).map (·.value)

/-- The operation may define the value: its sources have nodes, a conversion names the types of its
source and of the value, and only a sigma has an intersection of its own. -/
structure Admissible (p : Program) (g : Graph) (v : ValueId) (kind : Kind) (r : Range) : Prop where
  operand_lt : ∀ n ∈ kind.operands, n < g.nodes.size
  bound_lt : ∀ {n c}, kind.bound? = some (n, c) → n < g.nodes.size
  converts : ∀ {op n source target}, kind = .unary op n source target →
    (∃ a, g.valueAt? n = some a ∧ source = p.typeOf a) ∧ target = p.typeOf v
  whole : (∀ n, kind ≠ .sigma n none) → r = g.sentinels.max

/-- One step of building a graph. Only values in `D` are defined by operations. -/
inductive Extension (p : Program) (D : ValueId → Prop) : Graph → Graph → Prop
  | value {g : Graph} {v : ValueId} (hOpen : g.started = false) (hNew : g.nodeOf? v = none) :
      Extension p D g { g with nodes := g.nodes.push (newNode p v) }
  | operation {g : Graph} {v : ValueId} {sink : NodeId} {kind : Kind} {r : Range}
      (hOpen : g.started = false) (hSink : g.valueAt? sink = some v) (hDefined : D v)
      (hFree : g.definition sink = none) (hKind : Admissible p g v kind r) :
      Extension p D g (g.pushOperation sink kind r)
  | sources {g : Graph} {o : OpId} {sources : List NodeId} (hOpen : g.started = false)
      (hPhi : g.isPhi o = true) (hSources : ∀ n ∈ sources, n < g.nodes.size) :
      Extension p D g (g.extendPhi o sources)
  | facts {g : Graph} (branches : Array (ValueId × BranchFact))
      (switches : Array (ValueId × SwitchFact)) :
      Extension p D g { g with branches, switches }

/-- A sequence of steps. -/
abbrev Growth (p : Program) (D : ValueId → Prop) : Graph → Graph → Prop :=
  Relation.ReflTransGen (Extension p D)

section Nodes

variable {p : Program} {D : ValueId → Prop} {g g' : Graph} {n : NodeId} {v : ValueId}

/-- Reading sources adds the operation to their uses, once for each reading. -/
theorem getElem?_addUses (o : OpId) (sources : List NodeId) (ns : Array Node) (n : NodeId) :
    (sources.foldl (fun ns src =>
      ns.modify src fun x => { x with uses := x.uses ++ [o] }) ns)[n]? =
    (ns[n]?).map fun x => { x with uses := x.uses ++ List.replicate (sources.count n) o } := by
  induction sources generalizing ns with
  | nil => simp
  | cons src rest ih =>
    rw [List.foldl_cons, ih, Array.getElem?_modify, List.count_cons]
    by_cases h : src = n
    · subst h
      cases ns[src]? with
      | none => simp
      | some x => simp [List.replicate_succ]
    · simp [h]

theorem size_addUses (o : OpId) (sources : List NodeId) (ns : Array Node) :
    (sources.foldl (fun ns src =>
      ns.modify src fun x => { x with uses := x.uses ++ [o] }) ns).size = ns.size := by
  induction sources generalizing ns with
  | nil => rfl
  | cons src rest ih => rw [List.foldl_cons, ih, Array.size_modify]

/-- What an operation adds to a node: its definition, its uses and the sigmas that it bounds. -/
def withOperation (o : OpId) (sink : NodeId) (kind : Kind) (n : NodeId) (x : Node) : Node :=
  { x with
    definition := if n = sink then some o else x.definition
    uses := x.uses ++ List.replicate (kind.operands.count n) o
    bounds := x.bounds ++ if kind.bound?.any (·.1 == n) then [o] else [] }

theorem nodes_pushOperation (g : Graph) (sink : NodeId) (kind : Kind) (r : Range) (n : NodeId) :
    (g.pushOperation sink kind r).nodes[n]? =
      (g.nodes[n]?).map (withOperation g.ops.size sink kind n) := by
  unfold pushOperation withOperation
  cases hb : kind.bound? with
  | none =>
    simp only [getElem?_addUses, Array.getElem?_modify]
    by_cases h : sink = n
    · subst h
      cases g.nodes[sink]? <;> simp
    · cases g.nodes[n]? <;> simp [h, Ne.symm h]
  | some b =>
    obtain ⟨m, c⟩ := b
    simp only [getElem?_addUses, Array.getElem?_modify, Option.any_some, beq_iff_eq]
    by_cases h : sink = n
    · subst h
      by_cases hm : m = sink <;> cases g.nodes[sink]? <;> simp [hm]
    · by_cases hm : m = n <;> cases g.nodes[n]? <;> simp [h, Ne.symm h, hm]

theorem size_pushOperation (g : Graph) (sink : NodeId) (kind : Kind) (r : Range) :
    (g.pushOperation sink kind r).nodes.size = g.nodes.size := by
  unfold pushOperation
  cases kind.bound? <;> simp only [Array.size_modify, size_addUses]

theorem nodes_extendPhi (g : Graph) (o : OpId) (sources : List NodeId) (n : NodeId) :
    (g.extendPhi o sources).nodes[n]? = (g.nodes[n]?).map fun x =>
      { x with uses := x.uses ++ List.replicate (sources.count n) o } :=
  getElem?_addUses o sources g.nodes n

/-- A step keeps what stands outside the nodes, the operations and the facts. -/
structure SameFrame (g g' : Graph) : Prop where
  sentinels : g'.sentinels = g.sentinels
  narrowing : g'.narrowing = g.narrowing
  started : g'.started = g.started
  solved : g'.solved = g.solved

theorem SameFrame.trans {g'' : Graph} (h : SameFrame g g') (h' : SameFrame g' g'') :
    SameFrame g g'' :=
  ⟨h'.sentinels.trans h.sentinels, h'.narrowing.trans h.narrowing, h'.started.trans h.started,
    h'.solved.trans h.solved⟩

theorem Extension.sameFrame (h : Extension p D g g') : SameFrame g g' := by
  cases h <;> exact ⟨rfl, rfl, rfl, rfl⟩

theorem Growth.sameFrame (h : Growth p D g g') : SameFrame g g' := by
  induction h with
  | refl => exact ⟨rfl, rfl, rfl, rfl⟩
  | tail _ hStep ih => exact ih.trans hStep.sameFrame

/-- A node keeps its value. -/
theorem Extension.valueAt? (h : Extension p D g g') (hv : g.valueAt? n = some v) :
    g'.valueAt? n = some v := by
  unfold Graph.valueAt? at hv ⊢
  cases h with
  | value _ _ =>
    obtain ⟨x, hx, -⟩ := Option.map_eq_some_iff.mp hv
    obtain ⟨hn, -⟩ := Array.getElem?_eq_some_iff.mp hx
    rw [Array.getElem?_push_lt hn, ← Array.getElem?_eq_getElem hn]
    exact hv
  | operation _ _ _ _ _ =>
    rw [nodes_pushOperation, Option.map_map]
    exact hv
  | sources _ _ _ =>
    rw [nodes_extendPhi, Option.map_map]
    exact hv
  | facts _ _ => exact hv

theorem Growth.valueAt? (h : Growth p D g g') (hv : g.valueAt? n = some v) :
    g'.valueAt? n = some v := by
  induction h with
  | refl => exact hv
  | tail _ hStep ih => exact hStep.valueAt? ih

theorem lt_of_valueAt? (h : g.valueAt? n = some v) : n < g.nodes.size := by
  obtain ⟨x, hx, -⟩ := Option.map_eq_some_iff.mp h
  exact (Array.getElem?_eq_some_iff.mp hx).1

theorem Extension.size_le (h : Extension p D g g') : g.nodes.size ≤ g'.nodes.size := by
  cases h with
  | value _ _ => exact by simp only [Array.size_push, Nat.le_add_right]
  | operation _ _ _ _ _ => exact Nat.le_of_eq (size_pushOperation _ _ _ _).symm
  | sources _ _ _ => exact Nat.le_of_eq (size_addUses _ _ _).symm
  | facts _ _ => exact Nat.le_refl _

theorem Growth.size_le (h : Growth p D g g') : g.nodes.size ≤ g'.nodes.size := by
  induction h with
  | refl => exact Nat.le_refl _
  | tail _ hStep ih => exact Nat.le_trans ih hStep.size_le

/-- What is admissible stays so. -/
theorem Admissible.grow {kind : Kind} {r : Range} (h : Admissible p g v kind r)
    (hGrow : Growth p D g g') : Admissible p g' v kind r where
  operand_lt n hn := Nat.lt_of_lt_of_le (h.operand_lt n hn) hGrow.size_le
  bound_lt hb := Nat.lt_of_lt_of_le (h.bound_lt hb) hGrow.size_le
  converts hk := by
    obtain ⟨⟨a, ha, hSource⟩, hTarget⟩ := h.converts hk
    exact ⟨⟨a, hGrow.valueAt? ha, hSource⟩, hTarget⟩
  whole hk := by rw [h.whole hk, hGrow.sameFrame.sentinels]

theorem admissible_unary {op : UnaryOp} {a : ValueId} (hn : g.valueAt? n = some a) (v : ValueId) :
    Admissible p g v (.unary op n (p.typeOf a) (p.typeOf v)) g.sentinels.max where
  operand_lt m hm := by
    rw [List.mem_singleton.mp hm]
    exact lt_of_valueAt? hn
  bound_lt := nofun
  converts := by
    rintro _ _ _ _ ⟨⟩
    exact ⟨⟨a, hn, rfl⟩, rfl⟩
  whole _ := rfl

theorem admissible_binary (op : BinaryOp) {m : NodeId} (hn : n < g.nodes.size)
    (hm : m < g.nodes.size) : Admissible p g v (.binary op n m) g.sentinels.max where
  operand_lt k hk := by
    simp only [Kind.operands, List.mem_cons, List.not_mem_nil, or_false] at hk
    rcases hk with rfl | rfl
    · exact hn
    · exact hm
  bound_lt := nofun
  converts := nofun
  whole _ := rfl

theorem admissible_phi {sources : List NodeId} (h : ∀ n ∈ sources, n < g.nodes.size) :
    Admissible p g v (.phi sources) g.sentinels.max :=
  ⟨h, nofun, nofun, fun _ => rfl⟩

theorem admissible_sigma {bound : Option (NodeId × Comparison)} {r : Range} (hn : n < g.nodes.size)
    (hBound : ∀ {m c}, bound = some (m, c) → m < g.nodes.size)
    (hr : bound ≠ none → r = g.sentinels.max) : Admissible p g v (.sigma n bound) r where
  operand_lt k hk := by
    rw [List.mem_singleton.mp hk]
    exact hn
  bound_lt := hBound
  converts := nofun
  whole h := hr fun hNone => h n (by rw [hNone])

theorem valueAt?_of_nodeOf? (h : g.nodeOf? v = some n) : g.valueAt? n = some v := by
  obtain ⟨hn, hv, -⟩ := Array.findIdx?_eq_some_iff_getElem.mp h
  rw [Graph.valueAt?, Array.getElem?_eq_getElem hn, Option.map_some, beq_iff_eq.mp hv]

end Nodes

/-- Whatever comes of the action, it takes the graph through steps; a result satisfies `Q`. -/
def Extends {α : Type} (p : Program) (D : ValueId → Prop) (g : Graph) (x : GraphM α)
    (Q : α → Graph → Prop) : Prop :=
  Growth p D g (x.run.run g).2 ∧ ∀ a, (x.run.run g).1 = .ok a → Q a (x.run.run g).2

namespace Extends

variable {α β : Type} {p : Program} {D : ValueId → Prop} {g : Graph} {Q : α → Graph → Prop}
  {R : β → Graph → Prop}

theorem pure {a : α} (h : Q a g) : Extends p D g (pure a) Q :=
  ⟨.refl, fun b hb => by cases hb; exact h⟩

theorem throw (e : Fault) : Extends p D g (throw e : GraphM α) Q := ⟨.refl, nofun⟩

theorem lift {e : Except Fault α} (h : ∀ a, e = .ok a → Q a g) : Extends p D g (liftM e) Q :=
  ⟨.refl, h⟩

theorem mono {x : GraphM α} {Q' : α → Graph → Prop} (h : Extends p D g x Q)
    (hQ : ∀ a g', Growth p D g g' → Q a g' → Q' a g') : Extends p D g x Q' :=
  ⟨h.1, fun a ha => hQ a _ h.1 (h.2 a ha)⟩

theorem bind {x : GraphM α} {f : α → GraphM β} (hx : Extends p D g x Q)
    (hf : ∀ a g', Growth p D g g' → Q a g' → Extends p D g' (f a) R) :
    Extends p D g (x >>= f) R := by
  obtain ⟨hGrow, hOk⟩ := hx
  unfold Extends
  rw [run_bind]
  rcases hRun : x.run.run g with ⟨e | a, g'⟩
  · rw [hRun] at hGrow
    exact ⟨hGrow, nofun⟩
  · rw [hRun] at hGrow hOk
    obtain ⟨hGrow', hOk'⟩ := hf a g' hGrow (hOk a rfl)
    exact ⟨hGrow.trans hGrow', hOk'⟩

theorem get_bind {f : Graph → GraphM β} (h : Extends p D g (f g) R) :
    Extends p D g (get >>= f) R := by
  unfold Extends
  rw [run_get_bind]
  exact h

theorem modify {f : Graph → Graph} (h : Extension p D g (f g)) :
    Extends p D g (modify f) fun _ g' => g' = f g :=
  ⟨.single h, fun _ _ => rfl⟩

/-- A loop takes steps if its body does. -/
theorem forIn {xs : List α} {f : α → PUnit → GraphM (ForInStep PUnit)}
    (h : ∀ x ∈ xs, ∀ g', Growth p D g g' → Extends p D g' (f x ⟨⟩) fun _ _ => True) :
    Extends p D g (forIn xs PUnit.unit f) fun _ _ => True := by
  induction xs generalizing g with
  | nil => exact pure trivial
  | cons x xs ih =>
    rw [List.forIn_cons]
    refine bind (h x List.mem_cons_self g .refl) fun step g' hGrow _ => ?_
    cases step with
    | done _ => exact pure trivial
    | yield _ =>
      exact ih fun y hy g'' hGrow' => h y (List.mem_cons_of_mem x hy) g'' (hGrow.trans hGrow')

/-- The results of a traversal satisfy what the results of its steps satisfy and later steps
keep. -/
theorem mapM {xs : List α} {f : α → GraphM β} {P : α → β → Graph → Prop}
    (h : ∀ x ∈ xs, ∀ g', Growth p D g g' → Extends p D g' (f x) (P x))
    (hKeep : ∀ x b g' g'', Growth p D g' g'' → P x b g' → P x b g'') :
    Extends p D g (xs.mapM f) fun bs g' => ∀ b ∈ bs, ∃ x ∈ xs, P x b g' := by
  induction xs generalizing g with
  | nil =>
    rw [List.mapM_nil]
    exact pure nofun
  | cons x xs ih =>
    rw [List.mapM_cons]
    refine bind (h x List.mem_cons_self g .refl) fun b g' hGrow hb => ?_
    refine bind (ih fun y hy g'' hGrow' =>
      h y (List.mem_cons_of_mem x hy) g'' (hGrow.trans hGrow')) fun bs g'' hGrow' hbs => ?_
    refine pure fun c hc => ?_
    rcases List.mem_cons.mp hc with rfl | hc
    · exact ⟨x, List.mem_cons_self, hKeep x c g' g'' hGrow' hb⟩
    · obtain ⟨y, hy, hP⟩ := hbs c hc
      exact ⟨y, List.mem_cons_of_mem x hy, hP⟩

end Extends

section Builders

variable {p : Program} {D : ValueId → Prop} {g : Graph} {v : ValueId}

theorem checkOpen_extends (p : Program) (D : ValueId → Prop) (g : Graph) :
    Extends p D g checkOpen fun _ g' => g' = g ∧ g.started = false := by
  refine Extends.get_bind ?_
  cases hStarted : g.started with
  | true => exact Extends.throw _
  | false => exact Extends.pure ⟨rfl, rfl⟩

theorem addValue_extends (p : Program) (D : ValueId → Prop) (g : Graph) (v : ValueId) :
    Extends p D g (addValue p v) fun n g' => g'.valueAt? n = some v := by
  unfold addValue
  refine Extends.get_bind ?_
  cases hNode : g.nodeOf? v with
  | some n => exact Extends.pure (valueAt?_of_nodeOf? hNode)
  | none =>
    refine Extends.bind (checkOpen_extends p D g) fun _ g' _ hg => ?_
    obtain ⟨rfl, hOpen⟩ := hg
    refine ⟨.single (.value hOpen hNode), fun n hn => ?_⟩
    cases hn
    show ((g'.nodes.push (newNode p v))[g'.nodes.size]?).map (·.value) = some v
    rw [Array.getElem?_push_size]
    rfl

/-- An admissible operation is added for a value in `D`, unless that is defined already. -/
theorem addOperation_extends {kind : Kind} {r : Range} (hv : D v)
    (hKind : Admissible p g v kind r) :
    Extends p D g (addOperation p v kind r) fun _ _ => True := by
  unfold addOperation
  refine Extends.bind (checkOpen_extends p D g) fun _ g1 hGrow hg => ?_
  obtain ⟨rfl, hOpen⟩ := hg
  refine Extends.bind (addValue_extends p D g1 v) fun sink g2 hGrow hSink => ?_
  refine Extends.get_bind ?_
  cases hFree : g2.definition sink with
  | some o => exact Extends.bind (Extends.throw (Q := fun _ _ => False) _) fun _ _ _ h => h.elim
  | none =>
    exact ⟨.single (.operation (hGrow.sameFrame.started.trans hOpen) hSink hv hFree
      (hKind.grow hGrow)), fun _ _ => trivial⟩

theorem addSigma_extends {b : BlockId} {source : ValueId} (hv : D v) :
    Extends p D g (addSigma p b v source) fun _ _ => True := by
  unfold addSigma
  refine Extends.bind (addValue_extends p D g source) fun src g1 _ hSrc => ?_
  refine Extends.get_bind ?_
  have hLt := lt_of_valueAt? hSrc
  cases g1.factAt? source b with
  | none => exact Extends.get_bind (addOperation_extends hv (admissible_sigma hLt nofun (absurd rfl)))
  | some fact =>
    cases fact with
    | within r => exact addOperation_extends hv (admissible_sigma hLt nofun (absurd rfl))
    | against c bound =>
      refine Extends.bind (addValue_extends p D g1 bound) fun n g2 hGrow hBound => ?_
      refine Extends.get_bind (addOperation_extends hv
        (admissible_sigma (lt_of_valueAt? (hGrow.valueAt? hSrc)) ?_ fun _ => rfl))
      rintro m c' ⟨⟩
      exact lt_of_valueAt? hBound

theorem operandAt_extends (args : List (Option ValueId)) (i : Nat) :
    Extends p D g (operandAt args i) fun a g' => g' = g ∧ args[i]? = some (some a) := by
  unfold operandAt
  split
  · exact Extends.pure ⟨rfl, ‹_›⟩
  · exact Extends.throw _

/-- An action followed by one that changes nothing. -/
theorem Extends.andThen {α β : Type} {x : GraphM α} {f : α → β}
    (h : Extends p D g x fun _ _ => True) :
    Extends p D g (x >>= fun a => Pure.pure (f a)) fun _ _ => True :=
  Extends.bind h fun _ _ _ _ => Extends.pure trivial

theorem addValue_grows (p : Program) (D : ValueId → Prop) (g : Graph) (v : ValueId) :
    Extends p D g (addValue p v) fun _ _ => True :=
  (addValue_extends p D g v).mono fun _ _ _ _ => trivial

/-- The nodes of some values. -/
theorem addValues_extends (p : Program) (D : ValueId → Prop) (g : Graph) (vs : List ValueId) :
    Extends p D g (vs.mapM (addValue p)) fun ns g' => ∀ n ∈ ns, n < g'.nodes.size := by
  refine (Extends.mapM (P := fun v n g' => g'.valueAt? n = some v)
    (fun v _ g' _ => addValue_extends p D g' v)
    fun v n g' g'' hGrow h => hGrow.valueAt? h).mono fun ns g' _ h n hn => ?_
  obtain ⟨v, -, hv⟩ := h n hn
  exact lt_of_valueAt? hv

theorem addInstr_extends {b : BlockId} {i : Instr}
    (hi : ∀ v, i.result = some v → p.isInteger v = true → D v) :
    Extends p D g (addInstr p b i) fun _ _ => True := by
  unfold addInstr
  cases hv : i.result with
  | none => exact Extends.pure trivial
  | some v =>
    cases hInt : p.isInteger v with
    | false =>
      simp only [hInt, Bool.not_false, if_true]
      exact Extends.pure trivial
    | true =>
      have hD : D v := hi v hv hInt
      simp only [hInt, Bool.not_true, Bool.false_eq_true, if_false]
      refine Extends.bind (Extends.lift (Q := fun _ _ => True) fun _ _ => trivial)
        fun untracked g1 _ _ => ?_
      split
      · exact (addValue_grows p D g1 v).andThen
      · split
        · rename_i op _
          refine Extends.bind (operandAt_extends i.args 0) fun a g2 _ ha => ?_
          refine Extends.bind (addValue_extends p D g2 a) fun src g3 _ hSrc => ?_
          exact Extends.get_bind (addOperation_extends hD (admissible_unary hSrc v)).andThen
        · rename_i op _
          refine Extends.bind (operandAt_extends i.args 0) fun a g2 _ ha => ?_
          refine Extends.bind (addValue_extends p D g2 a) fun lhs g3 _ hLhs => ?_
          refine Extends.bind (operandAt_extends i.args 1) fun a' g4 hGrow ha' => ?_
          refine Extends.bind (addValue_extends p D g4 a') fun rhs g5 hGrow' hRhs => ?_
          have hLhs' := hGrow'.valueAt? (hGrow.valueAt? hLhs)
          exact Extends.get_bind (addOperation_extends hD
            (admissible_binary op (lt_of_valueAt? hLhs') (lt_of_valueAt? hRhs))).andThen
        · refine Extends.bind (addValues_extends p D g1 _) fun ns g2 _ hNs => ?_
          exact Extends.get_bind (addOperation_extends hD (admissible_phi hNs)).andThen
        · refine Extends.bind (operandAt_extends i.args 0) fun a g2 _ _ => ?_
          exact (addSigma_extends hD).andThen
        · exact (addValue_grows p D g1 v).andThen

theorem addBinding_extends {sources : List ValueId} (hv : D v) :
    Extends p D g (addBinding p v sources) fun _ _ => True := by
  unfold addBinding
  split
  · refine Extends.bind (addValue_grows p D g v) fun n g1 _ _ => ?_
    exact Extends.get_bind (Extends.pure trivial)
  · refine Extends.bind (addValues_extends p D g sources) fun srcs g1 _ hSrcs => ?_
    refine Extends.get_bind ?_
    split
    · rename_i o _
      cases hPhi : g1.isPhi o with
      | false =>
        simp only [Bool.not_false, if_true]
        exact Extends.bind (Extends.throw (Q := fun _ _ => False) _) fun _ _ _ h => h.elim
      | true =>
        simp only [Bool.not_true, Bool.false_eq_true, if_false]
        refine Extends.bind (checkOpen_extends p D g1) fun _ g2 _ hg => ?_
        obtain ⟨rfl, hOpen⟩ := hg
        exact Extends.bind (Extends.modify (.sources hOpen hPhi hSrcs)) fun _ _ _ _ =>
          Extends.pure trivial
    · exact (addOperation_extends hv (admissible_phi hSrcs)).andThen

theorem addFact_extends (f : BranchFact) : Extends p D g (addFact p v f) fun _ _ => True := by
  unfold addFact
  refine Extends.bind (Extends.modify (.facts _ _)) fun _ g1 _ _ => ?_
  -- a copy and a sign extension pass the fact on in the same way
  split
  iterate 2
    · split
      · exact Extends.throw _
      · split
        · exact (Extends.modify (.facts _ _)).mono fun _ _ _ _ => trivial
        · exact Extends.pure trivial
  · exact Extends.pure trivial

theorem addFactOf_extends (g : Graph) (s : Sentinels) (pred : Predicate) (u v : ValueId)
    (yes no : BlockId) :
    Extends p D g (do addFact p u (← liftM (factOf p s pred v yes no))) fun _ _ => True :=
  Extends.bind (Extends.lift (Q := fun _ _ => True) fun _ _ => trivial) fun f _ _ _ =>
    addFact_extends f

theorem addTest_extends (pred : Predicate) (x y : Option ValueId) (yes no : BlockId) :
    Extends p D g (addTest p pred x y yes no) fun _ _ => True := by
  unfold addTest
  cases x with
  | none => exact Extends.throw _
  | some x =>
    dsimp only
    split
    · exact Extends.pure trivial
    cases y with
    | none => exact Extends.throw _
    | some y =>
      dsimp only
      split
      · exact Extends.pure trivial
      refine Extends.get_bind ?_
      have hSecond (g1 : Graph) : Extends p D g1
          (if !(p.value y).const.isSome then do
            let flipped ← liftM pred.flip
            addFact p y (← liftM (factOf p g.sentinels (.known flipped) x yes no))
          else pure ()) fun _ _ => True := by
        split
        · exact Extends.bind (Extends.lift (Q := fun _ _ => True) fun _ _ => trivial)
            fun flipped g2 _ _ => addFactOf_extends g2 _ _ y x yes no
        · exact Extends.pure trivial
      split
      · exact Extends.pure trivial
      · split
        · refine Extends.bind (Extends.lift (Q := fun _ _ => True) fun _ _ => trivial)
            fun f g1 _ _ => ?_
          exact Extends.bind (addFact_extends f) fun _ g2 _ _ => hSecond g2
        · exact hSecond g

theorem addBranch_extends (b : BlockId) : Extends p D g (addBranch p b) fun _ _ => True := by
  unfold addBranch
  split
  · exact addTest_extends _ _ _ _ _
  · split
    · split
      · exact (Extends.modify (.facts _ _)).mono fun _ _ _ _ => trivial
      · exact Extends.pure trivial
    · exact Extends.throw _
  · exact Extends.pure trivial

/-- A loop over an array. -/
theorem Extends.forInArray {α : Type} {xs : Array α} {f : α → PUnit → GraphM (ForInStep PUnit)}
    (h : ∀ x ∈ xs, ∀ g', Growth p D g g' → Extends p D g' (f x ⟨⟩) fun _ _ => True) :
    Extends p D g (ForIn.forIn xs PUnit.unit f) fun _ _ => True := by
  rw [← Array.forIn_toList]
  exact Extends.forIn fun x hx => h x (Array.mem_toList_iff.mp hx)

end Builders

/-- The tracked values that parameters and instructions of the program define are in `D`. -/
structure Definable (p : Program) (D : ValueId → Prop) : Prop where
  result : ∀ {b i v}, i ∈ (p.block b).instrs → i.result = some v → p.isInteger v = true → D v
  param : ∀ {f v}, v ∈ (p.func f).params → p.isInteger v = true → D v

namespace Definable

variable {p : Program} {D : ValueId → Prop} {g : Graph}

theorem addFunction (hD : Definable p D) (f : FuncId) :
    Extends p D g (addFunction p f) fun _ _ => True := by
  unfold Graph.addFunction
  refine Extends.bind (Extends.forInArray fun v _ g1 _ => ?_) fun _ g1 _ _ => ?_
  · split
    · exact (addValue_grows p D g1 v).andThen
    · exact Extends.pure trivial
  refine Extends.bind (Extends.forInArray fun b _ g2 _ => (addBranch_extends b).andThen)
    fun _ g2 _ _ => ?_
  refine Extends.andThen (Extends.forInArray fun b _ g3 _ => ?_)
  refine Extends.andThen (Extends.forInArray fun i hi g4 _ => ?_)
  exact (addInstr_extends fun v hv => hD.result hi hv).andThen

theorem call_result (hD : Definable p D) {m : ModuleId} {f : FuncId} {i : Instr} {v : ValueId}
    (hi : i ∈ p.calls m f) (hv : i.result = some v) (hInt : p.isInteger v = true) : D v := by
  simp only [Program.calls, Program.instrs, List.mem_flatMap, List.mem_filter] at hi
  obtain ⟨-, -, ⟨b, -, hi⟩, -⟩ := hi
  exact hD.result (Array.mem_toList_iff.mp hi) hv hInt

theorem bindParams (hD : Definable p D) (f : FuncId) (calls : List Instr) :
    Extends p D g (bindParams p f calls) fun _ _ => True := by
  unfold Graph.bindParams
  refine Extends.andThen (Extends.forIn fun x hx g1 _ => ?_)
  obtain ⟨v, i⟩ := x
  have hv : v ∈ (p.func f).params := Array.mem_toList_iff.mp (List.fst_mem_of_mem_zipIdx hx)
  dsimp only
  cases hInt : p.isInteger v with
  | false => exact Extends.pure trivial
  | true =>
    refine Extends.bind (Extends.lift (Q := fun _ _ => True) fun _ _ => trivial)
      fun args g2 _ _ => ?_
    split
    · exact (addBinding_extends (hD.param hv hInt)).andThen
    · exact Extends.pure trivial

theorem bindResults (hD : Definable p D) (m : ModuleId) (f : FuncId) :
    Extends p D g (bindResults p f (p.calls m f)) fun _ _ => True := by
  unfold Graph.bindResults
  refine Extends.bind (Extends.lift (Q := fun _ _ => True) fun _ _ => trivial)
    fun returned g1 _ _ => ?_
  dsimp only
  split
  · exact Extends.pure trivial
  refine Extends.andThen (Extends.forIn fun call hCall g2 _ => ?_)
  split
  · rename_i v hv
    cases hInt : p.isInteger v with
    | false => exact Extends.pure trivial
    | true => exact (addBinding_extends (hD.call_result hCall hv hInt)).andThen
  · exact Extends.pure trivial

theorem bindCalls (hD : Definable p D) (m : ModuleId) (f : FuncId) :
    Extends p D g (bindCalls p m f) fun _ _ => True := by
  unfold Graph.bindCalls
  dsimp only
  split
  · exact Extends.bind (hD.bindParams f _) fun _ g1 _ _ => hD.bindResults m f
  · exact hD.bindResults m f

theorem addModule (hD : Definable p D) (m : ModuleId) :
    Extends p D g (addModule p m) fun _ _ => True := by
  unfold Graph.addModule
  refine Extends.bind (Extends.forInArray fun f _ g1 _ => (hD.addFunction f).andThen)
    fun _ g1 _ _ => ?_
  exact Extends.andThen (Extends.forInArray fun f _ g2 _ => (hD.bindCalls m f).andThen)

end Definable

/-- The graph is what building a function or a module of the program leaves behind, also where that
fails. -/
def Built (p : Program) (g : Graph) : Prop :=
  ∃ o : Options, (∃ f, (build p f o).2 = g) ∨ ∃ m, (buildModule p m o).2 = g

/-- A built graph comes from an empty one by steps. -/
theorem Built.growth {p : Program} {D : ValueId → Prop} {g : Graph} (hD : Definable p D)
    (h : Built p g) : ∃ s o, Growth p D (empty s o) g := by
  obtain ⟨o, ⟨f, rfl⟩ | ⟨m, rfl⟩⟩ := h
  · exact ⟨_, o, (hD.addFunction f).1⟩
  · exact ⟨_, o, (hD.addModule m).1⟩

end ValueRange.Graph
