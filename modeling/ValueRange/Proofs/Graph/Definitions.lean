import ValueRange.Proofs.Graph.State
import ValueRange.Proofs.Program.Construction

/-! Definitions along the steps of building a graph. A step defines only the values that it may
define, a union stays a union, a value keeps its node and an operation its sources. -/

namespace ValueRange

/-- The value is the result of the instruction, which is not a call. -/
def Instr.Defines (i : Instr) (v : ValueId) : Prop := i.result = some v ∧ i.op ≠ .call

/-- An instruction of the function defines the value. -/
def Program.Defines (p : Program) (f : FuncId) (v : ValueId) : Prop :=
  ∃ b ∈ (p.func f).blocks, ∃ i ∈ (p.block b).instrs, i.Defines v

/-- The value is a parameter or the result of a call. -/
def Program.Receives (p : Program) (v : ValueId) : Prop :=
  (∃ f, v ∈ (p.func f).params) ∨ ∃ b, ∃ i ∈ (p.block b).instrs, i.result = some v ∧ i.op = .call

/-- The tracked argument that a call passes at a position. -/
def Instr.actual? (p : Program) (i : Nat) (call : Instr) : Option ValueId :=
  (call.args[i]?).join.filter p.isInteger

/-- A value is bound to another one by the calls of a function in a module: a parameter, unless the
function is external, to the arguments of the calls, if all of them pass one, and the result of a call
to the values that the function returns. -/
inductive Program.Binds (p : Program) (m : ModuleId) (f : FuncId) : ValueId → ValueId → Prop
  | param {i : Nat} {v a : ValueId} {call : Instr} (hExternal : (p.func f).external = false)
      (hv : (p.func f).params[i]? = some v) (hInt : p.isInteger v = true)
      (hAll : ∀ call ∈ p.calls m f, (call.actual? p i).isSome) (hCall : call ∈ p.calls m f)
      (ha : call.actual? p i = some a) : Binds p m f v a
  | result {v u : ValueId} {call : Instr} (hCall : call ∈ p.calls m f) (hv : call.result = some v)
      (hInt : p.isInteger v = true) (hu : some u ∈ p.returns f 0)
      (hTracked : p.isInteger u = true) : Binds p m f v u

theorem Program.mem_calls {p : Program} {m : ModuleId} {f : FuncId} {call : Instr} :
    call ∈ p.calls m f ↔ (∃ f' ∈ (p.moduleAt m).functions, call ∈ p.instrs f') ∧
      call.op = .call ∧ call.callee = some f := by
  simp only [Program.calls, List.mem_flatMap, List.mem_filter, Bool.and_eq_true, beq_iff_eq,
    Array.mem_toList_iff]
  constructor
  · rintro ⟨f', hf', hi, hOp, hCallee⟩
    exact ⟨⟨f', hf', hi⟩, hOp, hCallee⟩
  · rintro ⟨⟨f', hf', hi⟩, hOp, hCallee⟩
    exact ⟨f', hf', hi, hOp, hCallee⟩

theorem Program.mem_instrs {p : Program} {f : FuncId} {i : Instr} :
    i ∈ p.instrs f ↔ ∃ b ∈ (p.func f).blocks, i ∈ (p.block b).instrs := by
  simp only [Program.instrs, List.mem_flatMap, Array.mem_toList_iff]

theorem Program.Binds.receives {p : Program} {m : ModuleId} {f : FuncId} {v u : ValueId}
    (h : p.Binds m f v u) : p.Receives v := by
  cases h with
  | param _ hv _ _ _ _ => exact .inl ⟨f, Array.mem_of_getElem? hv⟩
  | result hCall hv _ _ _ =>
    obtain ⟨⟨f', -, hi⟩, hOp, -⟩ := Program.mem_calls.mp hCall
    obtain ⟨b, -, hi⟩ := Program.mem_instrs.mp hi
    exact .inr ⟨b, _, hi, hv, hOp⟩

theorem Program.Receives.not_defines {p : Program} {v : ValueId} (h : p.Receives v) (hp : p.Tidy)
    (f : FuncId) : ¬ p.Defines f v := by
  rintro ⟨b, -, i, hi, hv, hOp⟩
  rcases h with ⟨f', hParam⟩ | ⟨b', i', hi', hv', hOp'⟩
  · exact hp.param_ne_result hParam hi hv
  · obtain ⟨k, hk⟩ := Array.mem_iff_getElem?.mp hi
    obtain ⟨k', hk'⟩ := Array.mem_iff_getElem?.mp hi'
    cases hp.site_eq hk hk' hv hv'
    cases hk.symm.trans hk'
    exact hOp hOp'

namespace Graph

variable {p : Program} {D : ValueId → Prop} {g g' : Graph} {n : NodeId} {o : OpId} {v : ValueId}

/-- No node of the value is defined. -/
def Undefined (g : Graph) (v : ValueId) : Prop := ∀ n, g.valueAt? n = some v → g.definition n = none

/-- What defines the value, if anything does, is a union. -/
def Bindable (g : Graph) (v : ValueId) : Prop :=
  ∀ n o, g.valueAt? n = some v → g.definition n = some o → g.isPhi o = true

/-- The graph can be extended: it is wired, and each value has at most one node. -/
structure Extensible (g : Graph) : Prop where
  wired : Wired g
  started : g.started = false
  injective {n n' : NodeId} {v : ValueId} : g.valueAt? n = some v → g.valueAt? n' = some v → n = n'

/-- Each union has something to unite. -/
def Full (g : Graph) : Prop := ∀ op ∈ g.ops, op.kind ≠ .phi []

theorem Full.of_shape (hShape : g'.shape = g.shape) (hg : Full g) : Full g' := by
  intro op hOp hKind
  obtain ⟨o, ho⟩ := Array.mem_iff_getElem?.mp hOp
  obtain ⟨old, hOld, -, hSame⟩ := op_of_shape hShape ho
  exact hg old (Array.mem_of_getElem? hOld) (hSame.trans hKind)

theorem Undefined.bindable (h : Undefined g v) : Bindable g v := by
  intro n o hn ho
  rw [h n hn] at ho
  cases ho

/-! ### Definitions along steps -/

/-- A step adds definitions only to values in `D`. -/
theorem Extension.definition_old (h : Extension p D g g') (hv : ¬ D v)
    (hn : g'.valueAt? n = some v) (ho : g'.definition n = some o) :
    g.valueAt? n = some v ∧ g.definition n = some o := by
  unfold Graph.valueAt? definition at *
  cases h with
  | value _ _ =>
    dsimp only at hn ho
    rw [Array.getElem?_push] at hn ho
    split at ho
    · cases ho
    case isFalse hne =>
      rw [if_neg hne] at hn
      exact ⟨hn, ho⟩
  | @operation u sink kind r _ hSink hDefined _ _ =>
    have hne : n ≠ sink := by
      rintro rfl
      have hu := (Extension.operation ‹_› hSink hDefined ‹_› ‹_›).valueAt? hSink
      exact hv (Option.some.inj (hn.symm.trans hu) ▸ hDefined)
    rw [nodes_pushOperation] at hn ho
    cases hx : g.nodes[n]? with
    | none =>
      rw [hx] at ho
      cases ho
    | some x =>
      rw [hx] at hn ho
      refine ⟨hn, ?_⟩
      simpa [withOperation, hne] using ho
  | sources _ _ _ =>
    rw [nodes_extendPhi] at hn ho
    cases hx : g.nodes[n]? with
    | none =>
      rw [hx] at ho
      cases ho
    | some x =>
      rw [hx] at hn ho
      exact ⟨hn, ho⟩
  | facts _ _ => exact ⟨hn, ho⟩

theorem isPhi_iff : g.isPhi o = true ↔ ∃ op sources, g.ops[o]? = some op ∧ op.kind = .phi sources := by
  unfold isPhi
  constructor
  · intro h
    split at h
    case h_1 hOp => exact ⟨_, _, hOp, rfl⟩
    · cases h
  · rintro ⟨⟨sink, kind, r⟩, sources, hOp, rfl⟩
    rw [hOp]

/-- A union stays a union. -/
theorem Extension.isPhi (h : Extension p D g g') (ho : g.isPhi o = true) : g'.isPhi o = true := by
  obtain ⟨op, sources, hOp, hKind⟩ := isPhi_iff.mp ho
  cases h with
  | value _ _ => exact ho
  | @operation _ sink kind r _ _ _ _ _ =>
    exact isPhi_iff.mpr ⟨op, sources, (ops_pushOperation g sink kind r o op).mpr (.inr hOp), hKind⟩
  | @sources o' more _ _ _ =>
    have hNew := (ops_extendPhi g o' more o _).mpr ⟨op, hOp, rfl⟩
    rcases withSources_cases o' more o op with hSame | ⟨old, -, hSame⟩
    · exact isPhi_iff.mpr ⟨_, sources, hNew, (congrArg Operation.kind hSame).trans hKind⟩
    · exact isPhi_iff.mpr ⟨_, old ++ more, hNew, congrArg Operation.kind hSame⟩
  | facts _ _ => exact ho

theorem Growth.undefined (h : Growth p D g g') (hv : ¬ D v) (hg : Undefined g v) :
    Undefined g' v := by
  induction h with
  | refl => exact hg
  | @tail _ g₂ _ hStep ih =>
    intro n hn
    cases ho : g₂.definition n with
    | none => rfl
    | some o =>
      obtain ⟨hn', ho'⟩ := hStep.definition_old hv hn ho
      rw [ih n hn'] at ho'
      cases ho'

theorem Growth.bindable (h : Growth p D g g') (hv : ¬ D v) (hg : Bindable g v) :
    Bindable g' v := by
  induction h with
  | refl => exact hg
  | tail _ hStep ih =>
    intro n o hn ho
    obtain ⟨hn', ho'⟩ := hStep.definition_old hv hn ho
    exact hStep.isPhi (ih n o hn' ho')

theorem Growth.mono {D' : ValueId → Prop} (h : Growth p D g g') (hD : ∀ v, D v → D' v) :
    Growth p D' g g' := by
  induction h with
  | refl => exact .refl
  | tail _ hStep ih =>
    refine ih.tail ?_
    cases hStep with
    | value hOpen hNew => exact .value hOpen hNew
    | operation hOpen hSink hDefined hFree hKind =>
      exact .operation hOpen hSink (hD _ hDefined) hFree hKind
    | sources hOpen hPhi hSources => exact .sources hOpen hPhi hSources
    | facts branches switches => exact .facts branches switches

theorem nodeOf?_of_unique (hUnique : ∀ n', g.valueAt? n' = some v → n' = n)
    (hn : g.valueAt? n = some v) : g.nodeOf? v = some n := by
  cases hNode : g.nodeOf? v with
  | some n' => rw [hUnique n' (valueAt?_of_nodeOf? hNode)]
  | none =>
    obtain ⟨x, hx, rfl⟩ := Option.map_eq_some_iff.mp hn
    have hNe := Array.findIdx?_eq_none_iff.mp hNode x (Array.mem_of_getElem? hx)
    rw [beq_self_eq_true] at hNe
    cases hNe

theorem Extensible.nodeOf? (hg : Extensible g) (hn : g.valueAt? n = some v) :
    g.nodeOf? v = some n :=
  nodeOf?_of_unique (fun _ hn' => hg.injective hn' hn) hn

theorem Extension.extensible (h : Extension p D g g') (hg : Extensible g) : Extensible g' := by
  refine ⟨h.wired hg.wired, h.sameFrame.started.trans hg.started, fun {n n' v} hn hn' => ?_⟩
  cases h with
  | @value u _ hNew =>
    have hNone (m : NodeId) (hm : g.valueAt? m = some u) : False := by
      rw [hg.nodeOf? hm] at hNew
      cases hNew
    unfold Graph.valueAt? at hn hn'
    dsimp only at hn hn'
    rw [Array.getElem?_push] at hn hn'
    split at hn <;> split at hn'
    case isTrue.isTrue h h' => exact h.trans h'.symm
    case isTrue.isFalse =>
      cases hn
      exact (hNone n' hn').elim
    case isFalse.isTrue =>
      cases hn'
      exact (hNone n hn).elim
    case isFalse.isFalse => exact hg.injective hn hn'
  | operation _ _ _ _ _ =>
    rw [Graph.valueAt?, nodes_pushOperation, Option.map_map] at hn hn'
    exact hg.injective hn hn'
  | sources _ _ _ =>
    rw [Graph.valueAt?, nodes_extendPhi, Option.map_map] at hn hn'
    exact hg.injective hn hn'
  | facts _ _ => exact hg.injective hn hn'

theorem Growth.extensible (h : Growth p D g g') (hg : Extensible g) : Extensible g' := by
  induction h with
  | refl => exact hg
  | tail _ hStep ih => exact hStep.extensible ih

theorem extensible_empty (s : Sentinels) (o : Options) : Extensible (empty s o) :=
  ⟨wired_empty s o, rfl, nofun⟩

/-! ### Operations of instructions -/

/-- An operation that is not a union stays as it is. -/
theorem Extension.mem_ops (h : Extension p D g g') {op : Operation}
    (hKind : ∀ sources, op.kind ≠ .phi sources) (hOp : op ∈ g.ops) : op ∈ g'.ops := by
  obtain ⟨o, ho⟩ := Array.mem_iff_getElem?.mp hOp
  cases h with
  | value _ _ => exact hOp
  | operation _ _ _ _ _ =>
    exact Array.mem_of_getElem? ((ops_pushOperation ..).mpr (.inr ho))
  | @sources o' more _ _ _ =>
    rcases withSources_cases o' more o op with hSame | ⟨old, hPhi, -⟩
    · exact Array.mem_of_getElem? ((ops_extendPhi ..).mpr ⟨op, ho, hSame⟩)
    · exact absurd hPhi (hKind old)
  | facts _ _ => exact hOp

/-- The value is defined by the operation of a unary or binary instruction, which reads the nodes of
the operands. -/
structure Represents (g : Graph) (i : Instr) (v : ValueId) : Prop where
  unary {u : UnaryOp} : i.op = .unary u → ∃ op ∈ g.ops, g.valueAt? op.sink = some v ∧
    ∃ x a t t', i.args[0]? = some (some x) ∧ g.valueAt? a = some x ∧ op.kind = .unary u a t t'
  binary {f : BinaryOp} : i.op = .binary f → ∃ op ∈ g.ops, g.valueAt? op.sink = some v ∧
    ∃ x y a b, i.args[0]? = some (some x) ∧ i.args[1]? = some (some y) ∧ g.valueAt? a = some x ∧
      g.valueAt? b = some y ∧ op.kind = .binary f a b

/-- A tracked result of the instruction has a node, and is represented if the operands are tracked. -/
structure Models (p : Program) (g : Graph) (i : Instr) : Prop where
  node {v : ValueId} : i.result = some v → p.isInteger v = true → ∃ n, g.valueAt? n = some v
  represents {v : ValueId} : i.result = some v → p.isInteger v = true →
    hasUntracked p i.args = .ok false → Represents g i v

theorem Extension.models {i : Instr} (h : Extension p D g g') (hi : Models p g i) :
    Models p g' i := by
  refine ⟨fun hv hInt => ?_, fun {v} hv hInt hTracked => ?_⟩
  · obtain ⟨n, hn⟩ := hi.node hv hInt
    exact ⟨n, h.valueAt? hn⟩
  have hRepresents := hi.represents hv hInt hTracked
  constructor
  · intro u hu
    obtain ⟨op, hOp, hSink, x, a, t, t', hx, ha, hKind⟩ := hRepresents.unary hu
    exact ⟨op, h.mem_ops (by simp [hKind]) hOp, h.valueAt? hSink, x, a, t, t', hx, h.valueAt? ha,
      hKind⟩
  · intro f hf
    obtain ⟨op, hOp, hSink, x, y, a, b, hx, hy, ha, hb, hKind⟩ := hRepresents.binary hf
    exact ⟨op, h.mem_ops (by simp [hKind]) hOp, h.valueAt? hSink, x, y, a, b, hx, hy,
      h.valueAt? ha, h.valueAt? hb, hKind⟩

theorem Growth.models {i : Instr} (h : Growth p D g g') (hi : Models p g i) : Models p g' i := by
  induction h with
  | refl => exact hi
  | tail _ hStep ih => exact hStep.models ih

/-! ### Unions -/

/-- A union that defines `v` reads `u`. -/
def Unites (g : Graph) (v u : ValueId) : Prop :=
  ∃ op ∈ g.ops, g.valueAt? op.sink = some v ∧
    ∃ sources, op.kind = .phi sources ∧ ∃ n ∈ sources, g.valueAt? n = some u

/-- A union keeps its sources. -/
theorem Extension.unites {u : ValueId} (h : Extension p D g g') (hg : Unites g v u) :
    Unites g' v u := by
  obtain ⟨op, hOp, hSink, sources, hKind, n, hn, hu⟩ := hg
  obtain ⟨o, ho⟩ := Array.mem_iff_getElem?.mp hOp
  have hSink' := h.valueAt? hSink
  have hu' := h.valueAt? hu
  cases h with
  | value _ _ => exact ⟨op, hOp, hSink', sources, hKind, n, hn, hu'⟩
  | operation _ _ _ _ _ =>
    exact ⟨op, Array.mem_of_getElem? ((ops_pushOperation ..).mpr (.inr ho)), hSink', sources, hKind,
      n, hn, hu'⟩
  | @sources o' more _ _ _ =>
    have hNew := Array.mem_of_getElem? ((ops_extendPhi g o' more o _).mpr ⟨op, ho, rfl⟩)
    rcases withSources_cases o' more o op with hSame | ⟨old, hPhi, hSame⟩
    · rw [hSame] at hNew
      exact ⟨op, hNew, hSink', sources, hKind, n, hn, hu'⟩
    · cases hPhi.symm.trans hKind
      rw [hSame] at hNew
      exact ⟨_, hNew, hSink', sources ++ more, rfl, n, List.mem_append_left _ hn, hu'⟩
  | facts _ _ => exact ⟨op, hOp, hSink', sources, hKind, n, hn, hu'⟩

theorem Growth.unites {u : ValueId} (h : Growth p D g g') (hg : Unites g v u) : Unites g' v u := by
  induction h with
  | refl => exact hg
  | tail _ hStep ih => exact hStep.unites ih

end Graph

end ValueRange
