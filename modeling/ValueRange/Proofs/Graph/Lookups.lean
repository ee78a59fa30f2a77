import ValueRange.Graph.Export
import ValueRange.Proofs.Graph.Course
import ValueRange.Proofs.Graph.Definitions
import ValueRange.Proofs.Graph.Writes

/-! What a graph is asked for. The functions that evaluate, write and draw a graph answer defaults
where they look up something that is not there. They have strict forms here, which answer nothing
then; in an intact graph these answer the same as the others, so that no default is ever taken. A
solution keeps the range of each node once it has one. -/

namespace ValueRange.Graph

/-! ### Strict forms -/

section Strict

variable (g : Graph)

/-- The type of a node that is there. -/
def typeOf? (n : NodeId) : Option IntType := (g.nodes[n]?).map (·.type)

/-- The name of a node that is there. -/
def label? (n : NodeId) : Option String := (g.nodes[n]?).map (·.label)

/-- The range of an operation before its intersection. A union needs a source. -/
def evalKind? (sink : NodeId) : Kind → Option Range
  | .unary op source sourceType targetType => do
    return evalUnary op (← g.range? source) sourceType targetType
  | .sigma source _ => g.range? source
  | .binary op lhs rhs => do
    return evalBinary g.sentinels op (← g.typeOf? sink) (← g.range? lhs) (← g.range? rhs)
  | .phi sources => do
    if sources = [] then none
    else return unionAll g.sentinels (← sources.mapM g.range?)

/-- The range of an operation, if all that it reads is there. -/
def eval? (op : Operation) : Option Range := do
  let r ← g.evalKind? op.sink op.kind
  return if op.intersect.isMax then r else r.intersect op.intersect

/-- The right side of an operation's text. -/
def kindText? : Kind → Option String
  | .unary o source _ _ => do return o.text ++ " " ++ (← g.label? source)
  | .sigma source none => do return "sigma " ++ (← g.label? source)
  | .sigma source (some (n, c)) => do
    return "sigma " ++ (← g.label? source) ++ " " ++ c.symbol ++ " " ++ (← g.label? n)
  | .binary o lhs rhs => do return o.text ++ " " ++ (← g.label? lhs) ++ ", " ++ (← g.label? rhs)
  | .phi sources => do return "phi " ++ ", ".intercalate (← sources.mapM g.label?)

/-- The text of an operation, if all nodes that it names are there. -/
def operationText? (op : Operation) : Option String := do
  let rhs ← g.kindText? op.kind
  return (← g.label? op.sink) ++ " = " ++ rhs ++
    if op.intersect.isMax then "" else " ∩ " ++ op.intersect.text

/-- The text of a node that is there and has a range. -/
def nodeText? (n : NodeId) : Option String := do
  return (← g.label? n) ++ " " ++ (← g.range? n).text

/-- The number of a node's component. If components are known, the node must have one. -/
def numbered? (n : NodeId) : Option (Option Nat) :=
  match g.components with
  | none => some none
  | some cs => (cs.numberOf[n]?).map some

def nodeVertex? (n : NodeId) : Option Vertex := do
  return ⟨nodeName n, ← g.nodeText? n, false, ← g.numbered? n⟩

def opVertex? (o : OpId) (op : Operation) : Option Vertex := do
  let label := op.kind.text ++ if op.intersect.isMax then "" else " " ++ op.intersect.text
  return ⟨opName o, label, true, ← g.numbered? op.sink⟩

/-- The graph as lists, if all that they tell is there. -/
def drawing? : Option Drawing := do
  let ops := g.ops.toList.zipIdx
  let nodes ← (List.range g.nodes.size).mapM g.nodeVertex?
  let boxes ← ops.mapM fun (op, o) => g.opVertex? o op
  return ⟨nodes ++ boxes, ops.flatMap fun (op, o) => opEdges o op⟩

end Strict

/-! ### Intact graphs -/

/-- Each node has a range. -/
def Ranged (g : Graph) : Prop := ∀ n < g.nodes.size, (g.range? n).isSome = true

/-- All that evaluating, solving or drawing the graph looks up is there: the nodes and operations
that it refers to, a first source of each union, and a range and a component of each node. No end of
a range without zero is zero, so that no quotient is by zero. -/
structure Intact (g : Graph) : Prop where
  wired : Wired g
  full : Full g
  ranged : Ranged g
  component {n : NodeId} : n < g.nodes.size → ∃ i, g.componentOf n = .ok i
  divisor {n : NodeId} : (g.range n).isEmpty = false → 0 ∉ g.range n →
    ∀ r c, c ∈ Range.corners r (g.range n) → c.2 ≠ .fin 0

/-- The graph is evaluated, written and drawn without a default. -/
structure Covered (g : Graph) : Prop where
  eval {o : OpId} {op : Operation} : g.ops[o]? = some op → g.eval? op = some (g.eval op)
  operationText {o : OpId} {op : Operation} : g.ops[o]? = some op →
    g.operationText? op = some (g.operationText op)
  drawing : g.drawing? = some g.drawing

variable {g g' g₀ : Graph} {n : NodeId} {o : OpId} {op : Operation} {t : Task}

theorem mapM_eq_some {α β : Type} {f : α → Option β} {h : α → β} {l : List α}
    (hf : ∀ x ∈ l, f x = some (h x)) : l.mapM f = some (l.map h) := by
  induction l with
  | nil => rfl
  | cons x l ih =>
    rw [List.mapM_cons, hf x List.mem_cons_self, ih fun x hx => hf x (List.mem_cons_of_mem _ hx)]
    rfl

theorem typeOf?_eq (hn : n < g.nodes.size) : g.typeOf? n = some (g.typeOf n) := by
  rw [typeOf?, typeOf, Array.getElem?_eq_getElem hn]
  rfl

theorem label?_eq (hn : n < g.nodes.size) : g.label? n = some (g.label n) := by
  rw [label?, label, Array.getElem?_eq_getElem hn]
  rfl

namespace Intact

variable (h : Intact g)

include h

theorem range?_eq (hn : n < g.nodes.size) : g.range? n = some (g.range n) := by
  obtain ⟨r, hr⟩ := Option.isSome_iff_exists.mp (h.ranged n hn)
  rw [range, hr]
  rfl

theorem nodeText?_eq (hn : n < g.nodes.size) : g.nodeText? n = some (g.nodeText n) := by
  rw [nodeText?, nodeText, label?_eq hn, h.range?_eq hn]
  rfl

theorem numbered?_eq (hn : n < g.nodes.size) : g.numbered? n = some (g.component? n) := by
  obtain ⟨i, hi⟩ := h.component hn
  unfold componentOf at hi
  unfold numbered? component?
  cases hc : g.components with
  | none => rfl
  | some cs =>
    rw [hc] at hi
    dsimp only at hi ⊢
    cases hNumber : cs.numberOf[n]? with
    | none =>
      rw [hNumber] at hi
      cases hi
    | some i => rw [Option.map_some, Option.map_some, Array.getD_eq_getD_getElem?, hNumber]; rfl

theorem eval?_eq (ho : g.ops[o]? = some op) : g.eval? op = some (g.eval op) := by
  have hSink := typeOf?_eq (h.wired.sink_lt ho)
  have hOperand (n : NodeId) (hn : n ∈ op.kind.operands) : g.range? n = some (g.range n) :=
    h.range?_eq (h.wired.operand_lt ho hn)
  have hFull := h.full op (Array.mem_of_getElem? ho)
  obtain ⟨sink, kind, r⟩ := op
  have hKind : g.evalKind? sink kind = some (g.evalKind sink kind) := by
    cases kind with
    | unary u source t t' =>
      rw [evalKind?, evalKind, hOperand source List.mem_cons_self]
      rfl
    | sigma source bound => exact hOperand source List.mem_cons_self
    | binary b lhs rhs =>
      rw [evalKind?, evalKind, hSink, hOperand lhs List.mem_cons_self,
        hOperand rhs (List.mem_cons_of_mem lhs List.mem_cons_self)]
      rfl
    | phi sources =>
      rw [evalKind?, evalKind, if_neg fun hNil => hFull (congrArg Kind.phi hNil),
        mapM_eq_some (l := sources) hOperand]
      rfl
  rw [eval?, hKind]
  rfl

theorem operationText?_eq (ho : g.ops[o]? = some op) :
    g.operationText? op = some (g.operationText op) := by
  have hSink := label?_eq (h.wired.sink_lt ho)
  have hOperand (n : NodeId) (hn : n ∈ op.kind.operands) : g.label? n = some (g.label n) :=
    label?_eq (h.wired.operand_lt ho hn)
  have hBound {n : NodeId} {c : Comparison} (hn : op.kind.bound? = some (n, c)) :
      g.label? n = some (g.label n) := label?_eq (h.wired.bound_lt ho hn)
  obtain ⟨sink, kind, r⟩ := op
  rw [operationText?, operationText, hSink]
  cases kind with
  | unary u source t t' =>
    rw [kindText?, hOperand source List.mem_cons_self]
    rfl
  | sigma source bound =>
    cases bound with
    | none =>
      rw [kindText?, hOperand source List.mem_cons_self]
      simp
    | some b =>
      rw [kindText?, hOperand source List.mem_cons_self, hBound (n := b.1) (c := b.2) rfl]
      simp [String.append_assoc]
  | binary b lhs rhs =>
    rw [kindText?, hOperand lhs List.mem_cons_self,
      hOperand rhs (List.mem_cons_of_mem lhs List.mem_cons_self)]
    rfl
  | phi sources =>
    rw [kindText?, mapM_eq_some (l := sources) hOperand]
    rfl

theorem drawing?_eq : g.drawing? = some g.drawing := by
  have hNodes : (List.range g.nodes.size).mapM g.nodeVertex? =
      some ((List.range g.nodes.size).map g.nodeVertex) := by
    refine mapM_eq_some fun n hn => ?_
    have hSize := List.mem_range.mp hn
    rw [nodeVertex?, nodeVertex, h.nodeText?_eq hSize, h.numbered?_eq hSize]
    rfl
  have hOps : g.ops.toList.zipIdx.mapM (fun (op, o) => g.opVertex? o op) =
      some (g.ops.toList.zipIdx.map fun (op, o) => g.opVertex o op) := by
    refine mapM_eq_some fun ⟨op, o⟩ hMem => ?_
    have ho : g.ops[o]? = some op := by
      rw [← Array.getElem?_toList]
      exact List.mem_zipIdx_iff_getElem?.mp hMem
    dsimp only
    rw [opVertex?, opVertex, h.numbered?_eq (h.wired.sink_lt ho)]
    rfl
  unfold drawing? drawing
  extract_lets ops
  rw [hNodes, hOps]
  rfl

/-- In an intact graph nothing that is looked up is missing. -/
theorem covered : Covered g where
  eval ho := h.eval?_eq ho
  operationText ho := h.operationText?_eq ho
  drawing := h.drawing?_eq

end Intact

/-! ### The ranges of a solution -/

theorem ranged_seed (h : g.started = false) : Ranged g.seed := by
  intro n hn
  unfold seed at hn ⊢
  rw [h, if_neg Bool.false_ne_true] at hn ⊢
  rw [range?, Array.getElem?_eq_getElem hn, Array.getElem_map]
  rfl

theorem Ranged.of_nodes (h : g'.nodes = g.nodes) (hg : Ranged g) : Ranged g' := by
  unfold Ranged range? at *
  rw [h]
  exact hg

theorem Ranged.setRange (hg : Ranged g) (n : NodeId) (r : Range) : Ranged (g.setRange n r) := by
  intro m hm
  have hSize : m < g.nodes.size := by
    rw [← size_of_shape (shape_setRange g n r)]
    exact hm
  unfold range? Graph.setRange
  rw [Array.getElem?_modify]
  split
  · rw [Array.getElem?_eq_getElem hSize]
    rfl
  · exact hg m hSize

theorem Write.ranged (h : Write g g') (hg : Ranged g) : Ranged g' := by
  cases h with
  | arrange | finish => exact hg
  | turn => exact hg.setRange _ _
  | freeze comp =>
    intro n hn
    rw [range?_freeze]
    rw [size_of_shape (shape_freeze comp g)] at hn
    exact hg n hn
  | resolve n o => exact hg.of_nodes (nodes_resolve g n o)
  | assign o =>
    unfold Graph.assign
    split
    · exact hg.setRange _ _
    · exact hg
  | record pos comp phase => exact hg.of_nodes (nodes_record pos comp phase g)

theorem Writes.ranged (h : Writes g g') (hg : Ranged g) : Ranged g' := by
  induction h with
  | refl => exact hg
  | tail _ hStep ih => exact hStep.ranged ih

namespace Task

theorem writes_turned {m : Meet} (hm : m = .widening ∨ meetOf g₀.narrowing = .ok m) (turns : Nat)
    {h : Graph} (hWrites : Writes g₀ h) : Writes g₀ (t.turned g m turns h) := by
  unfold turned
  split
  · exact hWrites.iterateQueue hm t.pos turns _
  · exact hWrites

theorem writes_frozen (h : Writes g₀ g) : Writes g₀ (t.frozen g) := by
  have hWidened : Writes g₀ (t.widened g) := writes_turned (.inl rfl) _ (h.tail (.record g _ _ _))
  exact (hWidened.tail (.freeze _ _)).tail (.record _ _ _ _)

theorem writes_fixed (h : Writes g₀ g) : Writes g₀ (t.fixed g) :=
  ((writes_frozen h).resolveBounds _ _).tail (.record _ _ _ _)

variable (hm : meetOf g₀.narrowing = .ok t.meet)

include hm

theorem writes_narrowed (h : Writes g₀ g) : Writes g₀ (t.narrowed g) :=
  (writes_turned (.inr hm) _ (writes_fixed h)).tail (.record _ _ _ _)

theorem writes_propagated (h : Writes g₀ g) : Writes g₀ (t.propagated g) :=
  ((writes_narrowed hm h).propagate _ _).tail (.record _ _ _ _)

/-- Each moment of a component is reached by writes. -/
theorem writes_state (h : Writes g₀ g) (i : Moment) : Writes g₀ (t.state g i) := by
  cases i with
  | widening turns => exact writes_turned (.inl rfl) turns (h.tail (.record g _ _ _))
  | frozen => exact writes_frozen h
  | narrowing turns => exact writes_turned (.inr hm) turns (writes_fixed h)
  | propagating evaluations =>
    exact List.foldlRecOn _ _ ((writes_narrowed hm h).resolveBounds _ _) fun g hg o _ =>
      hg.tail (.assign g o)

end Task

theorem writes_before {m : Meet} (cs : Components) (hm : meetOf g.narrowing = .ok m) (k : Nat) :
    Writes g (before m cs g k) := by
  induction k with
  | zero => exact .refl
  | succ k ih => exact Task.writes_propagated hm ih

end ValueRange.Graph
