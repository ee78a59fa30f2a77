import ValueRange.Proofs.Graph.Solution

/-! The values that the nodes of a graph may take. They are the least sets of values of the nodes'
types that hold the constants, everything that a node without a definition may be, and what the
operations give for values of their sources. A solution holds all of them. -/

namespace ValueRange

/-- The integer lies within the bounds of a hint. -/
def Hint.Holds (h : Hint) (x : Int) : Prop :=
  (∀ l, h.lower = some l → l ≤ x) ∧ ∀ u, h.upper = some u → x ≤ u

namespace Graph

open Range

/-- The values that a node may take. -/
inductive Meaning (g : Graph) : NodeId → Int → Prop
  | const {n : NodeId} {node : Node} {c : Int} (hn : g.nodes[n]? = some node)
      (hc : node.const = some c) (ht : node.type.Contains c) : Meaning g n c
  | free {n : NodeId} {node : Node} {x : Int} (hn : g.nodes[n]? = some node)
      (hc : node.const = none) (hd : node.definition = none)
      (hh : ∀ h, node.hint = some h → h.Holds x) (ht : node.type.Contains x) : Meaning g n x
  | unary {o : OpId} {op : Operation} {u : UnaryOp} {a : NodeId} {t t' : IntType} {x z : Int}
      (ho : g.ops[o]? = some op) (hk : op.kind = .unary u a t t') (hx : Meaning g a x)
      (hz : u.Gives t t' x z) (ht : (g.typeOf op.sink).Contains z) : Meaning g op.sink z
  | sigma {o : OpId} {op : Operation} {a : NodeId} {x : Int} (ho : g.ops[o]? = some op)
      (hk : op.kind = .sigma a none) (hx : Meaning g a x) (hi : x ∈ op.intersect)
      (ht : (g.typeOf op.sink).Contains x) : Meaning g op.sink x
  | bounded {o : OpId} {op : Operation} {a b : NodeId} {c : Comparison} {x y : Int}
      (ho : g.ops[o]? = some op) (hk : op.kind = .sigma a (some (b, c))) (hx : Meaning g a x)
      (hy : Meaning g b y) (hc : c.Holds x y) (ht : (g.typeOf op.sink).Contains x) :
      Meaning g op.sink x
  | binary {o : OpId} {op : Operation} {f : BinaryOp} {a b : NodeId} {x y z : Int}
      (ho : g.ops[o]? = some op) (hk : op.kind = .binary f a b) (hx : Meaning g a x)
      (hy : Meaning g b y) (hz : f.Gives x y z) (ht : (g.typeOf op.sink).Contains z) :
      Meaning g op.sink z
  | phi {o : OpId} {op : Operation} {sources : List NodeId} {a : NodeId} {x : Int}
      (ho : g.ops[o]? = some op) (hk : op.kind = .phi sources) (ha : a ∈ sources)
      (hx : Meaning g a x) (ht : (g.typeOf op.sink).Contains x) : Meaning g op.sink x

/-- What an operation gives if its sources, and the node that bounds it, take the values `S`. -/
def Gives (S : NodeId → Int → Prop) (op : Operation) (z : Int) : Prop :=
  match op.kind with
  | .unary u a t t' => ∃ x, S a x ∧ u.Gives t t' x z
  | .sigma a none => S a z ∧ z ∈ op.intersect
  | .sigma a (some (b, c)) => S a z ∧ ∃ y, S b y ∧ c.Holds z y
  | .binary f a b => ∃ x y, S a x ∧ S b y ∧ f.Gives x y z
  | .phi sources => ∃ a ∈ sources, S a z

variable {g : Graph} {n : NodeId} {o : OpId} {op : Operation} {x z : Int}

theorem Gives.mono {S S' : NodeId → Int → Prop} (h : Gives S op z)
    (hS : ∀ n, (n ∈ op.kind.operands ∨ ∃ c, op.kind.bound? = some (n, c)) → ∀ x, S n x → S' n x) :
    Gives S' op z := by
  obtain ⟨sink, kind, r⟩ := op
  cases kind with
  | unary u a t t' =>
    obtain ⟨x, hx, hz⟩ := h
    exact ⟨x, hS a (.inl (by simp [Kind.operands])) x hx, hz⟩
  | sigma a bound =>
    have ha := hS a (.inl (by simp [Kind.operands]))
    cases bound with
    | none => exact ⟨ha z h.1, h.2⟩
    | some p =>
      obtain ⟨hz, y, hy, hc⟩ := h
      exact ⟨ha z hz, y, hS p.1 (.inr ⟨p.2, rfl⟩) y hy, hc⟩
  | binary f a b =>
    obtain ⟨x, y, hx, hy, hz⟩ := h
    exact ⟨x, y, hS a (.inl (by simp [Kind.operands])) x hx,
      hS b (.inl (by simp [Kind.operands])) y hy, hz⟩
  | phi sources =>
    obtain ⟨a, ha, hz⟩ := h
    exact ⟨a, ha, hS a (.inl ha) z hz⟩

theorem Gives.of_kind {S : NodeId → Int → Prop} {op' : Operation} (h : Gives S op z)
    (hKind : op'.kind = op.kind) (hIntersect : z ∈ op'.intersect) : Gives S op' z := by
  obtain ⟨sink, kind, r⟩ := op
  obtain ⟨sink', kind', r'⟩ := op'
  obtain rfl : kind' = kind := hKind
  cases kind' with
  | sigma a bound =>
    cases bound with
    | none => exact ⟨h.1, hIntersect⟩
    | some p => exact h
  | unary | binary | phi => exact h

namespace Meaning

theorem contains (h : Meaning g n x) : (g.typeOf n).Contains x := by
  cases h with
  | const hn _ ht =>
    simp only [typeOf, hn]
    exact ht
  | free hn _ _ _ ht =>
    simp only [typeOf, hn]
    exact ht
  | unary _ _ _ _ ht | sigma _ _ _ _ ht | bounded _ _ _ _ _ ht | binary _ _ _ _ _ ht
  | phi _ _ _ _ ht => exact ht

theorem lt_size (hg : Linked g) (h : Meaning g n x) : n < g.nodes.size := by
  cases h with
  | const hn | free hn => exact (Array.getElem?_eq_some_iff.mp hn).1
  | unary ho | sigma ho | bounded ho | binary ho | phi ho => exact hg.sink_lt ho

/-- A family that holds what no operation defines, and what each operation gives for values in it,
holds all values that the nodes may take. -/
theorem le {P : NodeId → Int → Prop} (hg : Unsolved g)
    (hBase : ∀ {n : NodeId} {x : Int}, Meaning g n x → g.definition n = none → P n x)
    (hOp : ∀ {o : OpId} {op : Operation} {z : Int}, g.ops[o]? = some op → Meaning g op.sink z →
      Gives (fun n x => Meaning g n x ∧ P n x) op z → P op.sink z)
    (h : Meaning g n x) : P n x := by
  induction h with
  | const hn hc ht =>
    refine hBase (.const hn hc ht) ?_
    rw [definition, hn, Option.bind_some]
    by_contra hd
    rw [hg.const hn hd] at hc
    cases hc
  | free hn hc hd hh ht =>
    refine hBase (.free hn hc hd hh ht) ?_
    rw [definition, hn, Option.bind_some, hd]
  | unary ho hk hx hz ht ih =>
    refine hOp ho (.unary ho hk hx hz ht) ?_
    rw [Gives, hk]
    exact ⟨_, ⟨hx, ih⟩, hz⟩
  | sigma ho hk hx hi ht ih =>
    refine hOp ho (.sigma ho hk hx hi ht) ?_
    rw [Gives, hk]
    exact ⟨⟨hx, ih⟩, hi⟩
  | bounded ho hk hx hy hc ht ihx ihy =>
    refine hOp ho (.bounded ho hk hx hy hc ht) ?_
    rw [Gives, hk]
    exact ⟨⟨hx, ihx⟩, _, ⟨hy, ihy⟩, hc⟩
  | binary ho hk hx hy hz ht ihx ihy =>
    refine hOp ho (.binary ho hk hx hy hz ht) ?_
    rw [Gives, hk]
    exact ⟨_, _, ⟨hx, ihx⟩, ⟨hy, ihy⟩, hz⟩
  | phi ho hk ha hx ht ih =>
    refine hOp ho (.phi ho hk ha hx ht) ?_
    rw [Gives, hk]
    exact ⟨_, ha, hx, ih⟩

/-- What the sink of an operation takes is given by the operation. -/
theorem gives (hg : Unsolved g) (ho : g.ops[o]? = some op) (h : Meaning g op.sink z) :
    Gives (Meaning g) op z := by
  have hAll : ∀ (o : OpId) (op' : Operation), g.ops[o]? = some op' → op'.sink = op.sink →
      Gives (Meaning g) op' z := by
    refine le (P := fun n x => ∀ (o : OpId) (op' : Operation), g.ops[o]? = some op' →
      op'.sink = n → Gives (Meaning g) op' x) hg (fun {n x} _ hd => ?_) (fun {o op z} ho _ hGives => ?_) h
    · intro o op ho hn
      rw [(hg.wired.definition_iff n o).mpr ⟨op, ho, hn⟩] at hd
      cases hd
    · intro o' op' ho' hSink
      cases hg.wired.eq_of_sink ho' ho hSink
      cases ho.symm.trans ho'
      exact hGives.mono fun n _ x hx => hx.1
  exact hAll o op ho rfl

end Meaning

end Graph

end ValueRange
