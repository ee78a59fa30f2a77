import ValueRange.Proofs.Graph.Definitions
import ValueRange.Proofs.Program.Completeness

/-! Building a graph succeeds if nothing that it needs is missing. No value is then defined twice:
a result has one instruction, and only parameters and results of calls are bound, whose definitions
are unions. The graph then models the instructions of its functions. -/

namespace ValueRange.Graph

variable {p : Program} {D : ValueId → Prop} {g g' : Graph} {n : NodeId} {o : OpId} {v : ValueId}

/-! ### Success -/

/-- The steps take a graph to another one. If all unions of the first have something to unite, so
have those of the second. -/
structure Reaches (p : Program) (D : ValueId → Prop) (g g' : Graph) : Prop where
  growth : Growth p D g g'
  full : Full g → Full g'

/-- The action succeeds. It takes the graph through steps, and its result satisfies `Q`. -/
def Succeeds {α : Type} (p : Program) (D : ValueId → Prop) (g : Graph) (x : GraphM α)
    (Q : α → Graph → Prop) : Prop :=
  ∃ a g', x.run.run g = (.ok a, g') ∧ Reaches p D g g' ∧ Q a g'

theorem Reaches.refl (p : Program) (D : ValueId → Prop) (g : Graph) : Reaches p D g g :=
  ⟨.refl, id⟩

theorem Reaches.trans {g'' : Graph} (h : Reaches p D g g') (h' : Reaches p D g' g'') :
    Reaches p D g g'' :=
  ⟨h.growth.trans h'.growth, h'.full ∘ h.full⟩

theorem Reaches.extensible (h : Reaches p D g g') (hg : Extensible g) : Extensible g' :=
  h.growth.extensible hg

namespace Succeeds

variable {α β : Type} {x : GraphM α} {f : α → GraphM β} {Q : α → Graph → Prop}
variable {R : β → Graph → Prop}

theorem pure {a : α} (h : Q a g) : Succeeds p D g (Pure.pure a) Q :=
  ⟨a, g, rfl, .refl p D g, h⟩

theorem lift {e : Except Fault α} {a : α} (h : e = .ok a) :
    Succeeds p D g (liftM e) fun b g' => b = a ∧ g' = g := by
  subst h
  exact ⟨a, g, rfl, .refl p D g, rfl, rfl⟩

theorem modify {step : Graph → Graph} (h : Reaches p D g (step g)) :
    Succeeds p D g (modify step) fun _ g' => g' = step g :=
  ⟨⟨⟩, step g, rfl, h, rfl⟩

theorem mono {Q' : α → Graph → Prop} (h : Succeeds p D g x Q)
    (hQ : ∀ a g', Reaches p D g g' → Q a g' → Q' a g') : Succeeds p D g x Q' := by
  obtain ⟨a, g', hRun, hReaches, ha⟩ := h
  exact ⟨a, g', hRun, hReaches, hQ a g' hReaches ha⟩

theorem weaken {D' : ValueId → Prop} (h : Succeeds p D g x Q) (hD : ∀ v, D v → D' v) :
    Succeeds p D' g x Q := by
  obtain ⟨a, g', hRun, hReaches, ha⟩ := h
  exact ⟨a, g', hRun, ⟨hReaches.growth.mono hD, hReaches.full⟩, ha⟩

/-- Where no value is defined, what is undefined stays so. -/
theorem quiet (h : Succeeds p (fun _ => False) g x Q) : Succeeds p D g x fun a g' => Q a g' ∧
    Growth p (fun _ => False) g g' :=
  (h.mono fun _ _ hReaches hQ => ⟨hQ, hReaches.growth⟩).weaken fun _ => False.elim

theorem bind (hx : Succeeds p D g x Q)
    (hf : ∀ a g', Reaches p D g g' → Q a g' → Succeeds p D g' (f a) R) :
    Succeeds p D g (x >>= f) R := by
  obtain ⟨a, g', hRun, hReaches, ha⟩ := hx
  obtain ⟨b, g'', hRun', hReaches', hb⟩ := hf a g' hReaches ha
  refine ⟨b, g'', ?_, hReaches.trans hReaches', hb⟩
  rw [run_bind, hRun]
  exact hRun'

theorem andThen {a : β} (hx : Succeeds p D g x Q) :
    Succeeds p D g (x >>= fun _ => Pure.pure a) fun b g' => b = a ∧ ∃ c, Q c g' :=
  hx.bind fun c _ _ hc => pure ⟨rfl, c, hc⟩

theorem get_bind {f : Graph → GraphM β} (h : Succeeds p D g (f g) R) :
    Succeeds p D g (get >>= f) R := by
  unfold Succeeds
  rw [run_get_bind]
  exact h

/-- A loop keeps an invariant, which may speak about what it still has to go through. -/
theorem forIn {xs : List α} {f : α → PUnit → GraphM (ForInStep PUnit)}
    {I : List α → Graph → Prop} (hStart : I xs g)
    (hStep : ∀ x xs g', Reaches p D g g' → I (x :: xs) g' →
      Succeeds p D g' (f x ⟨⟩) fun r g'' => r = .yield ⟨⟩ ∧ I xs g'') :
    Succeeds p D g (ForIn.forIn xs PUnit.unit f) fun _ g' => I [] g' := by
  induction xs generalizing g with
  | nil => exact pure hStart
  | cons x xs ih =>
    rw [List.forIn_cons]
    refine bind (hStep x xs g (.refl p D g) hStart) ?_
    rintro - g' hReaches ⟨rfl, hNext⟩
    exact ih hNext fun y ys g'' hReaches' => hStep y ys g'' (hReaches.trans hReaches')

/-- A loop whose passes define different values, none of which is defined before. What a pass
achieves is kept by the later ones. -/
theorem forIn_disjoint {xs : List α} {f : α → PUnit → GraphM (ForInStep PUnit)}
    {E : α → ValueId → Prop} {R : α → Graph → Prop} (hOpen : Extensible g)
    (hNew : ∀ x ∈ xs, ∀ v, E x v → Undefined g v)
    (hDisjoint : xs.Pairwise fun x y => ∀ v, E x v → ¬ E y v)
    (hKeep : ∀ x y g' g'', Growth p (E y) g' g'' → R x g' → R x g'')
    (hBody : ∀ x ∈ xs, ∀ g', Extensible g' → (∀ v, E x v → Undefined g' v) →
      Succeeds p (E x) g' (f x ⟨⟩) fun r g'' => r = .yield ⟨⟩ ∧ R x g'') :
    Succeeds p (fun v => ∃ x ∈ xs, E x v) g (ForIn.forIn xs PUnit.unit f) fun _ g' =>
      ∀ x ∈ xs, R x g' := by
  refine (forIn (I := fun ys g' => (∀ y ∈ ys, y ∈ xs) ∧
    ys.Pairwise (fun x y => ∀ v, E x v → ¬ E y v) ∧ (∀ y ∈ ys, ∀ v, E y v → Undefined g' v) ∧
    ∀ y ∈ xs, y ∈ ys ∨ R y g')
    ⟨fun _ => id, hDisjoint, hNew, fun _ => .inl⟩ ?_).mono fun _ _ _ h x hx => ?_
  · rintro x ys g' hReaches ⟨hMem, hPairwise, hUndefined, hDone⟩
    obtain ⟨hFirst, hRest⟩ := List.pairwise_cons.mp hPairwise
    have hx := hMem x List.mem_cons_self
    have hPass := hBody x hx g' (hReaches.extensible hOpen) (hUndefined x List.mem_cons_self)
    refine (hPass.mono fun r g'' hTo ⟨hr, hR⟩ => ⟨hr, fun y hy => hMem y (List.mem_cons_of_mem x hy),
      hRest, fun y hy v hv => ?_, fun y hy => ?_⟩).weaken fun v hv => ⟨x, hx, hv⟩
    · exact hTo.growth.undefined (fun h => hFirst y hy v h hv)
        (hUndefined y (List.mem_cons_of_mem x hy) v hv)
    · rcases hDone y hy with hLeft | hOld
      · rcases List.mem_cons.mp hLeft with rfl | hLeft
        · exact .inr hR
        · exact .inl hLeft
      · exact .inr (hKeep y x _ _ hTo.growth hOld)
  · exact (h.2.2.2 x hx).resolve_left List.not_mem_nil

/-- A loop whose passes keep an invariant. What a pass achieves is kept by the later ones. -/
theorem forIn_each {xs : List α} {f : α → PUnit → GraphM (ForInStep PUnit)} {J : Graph → Prop}
    {R : α → Graph → Prop} (hStart : J g)
    (hKeep : ∀ x g' g'', Growth p D g' g'' → R x g' → R x g'')
    (hBody : ∀ x ∈ xs, ∀ g', J g' →
      Succeeds p D g' (f x ⟨⟩) fun r g'' => r = .yield ⟨⟩ ∧ J g'' ∧ R x g'') :
    Succeeds p D g (ForIn.forIn xs PUnit.unit f) fun _ g' => J g' ∧ ∀ x ∈ xs, R x g' := by
  refine (forIn (I := fun ys g' => (∀ y ∈ ys, y ∈ xs) ∧ J g' ∧ ∀ y ∈ xs, y ∈ ys ∨ R y g')
    ⟨fun _ => id, hStart, fun _ => .inl⟩ ?_).mono fun _ _ _ h => ⟨h.2.1, fun x hx => ?_⟩
  · rintro x ys g' - ⟨hMem, hJ, hDone⟩
    refine (hBody x (hMem x List.mem_cons_self) g' hJ).mono fun r g'' hTo ⟨hr, hJ', hR⟩ =>
      ⟨hr, fun y hy => hMem y (List.mem_cons_of_mem x hy), hJ', fun y hy => ?_⟩
    rcases hDone y hy with hLeft | hOld
    · rcases List.mem_cons.mp hLeft with rfl | hLeft
      · exact .inr hR
      · exact .inl hLeft
    · exact .inr (hKeep y _ _ hTo.growth hOld)
  · exact (h.2.2 x hx).resolve_left List.not_mem_nil

end Succeeds

/-! ### Values and operations -/

section Builders

variable (hOpen : Extensible g)
include hOpen

theorem checkOpen_succeeds : Succeeds p D g checkOpen fun _ g' => g' = g := by
  refine Succeeds.get_bind ?_
  rw [hOpen.started]
  exact Succeeds.pure rfl

theorem addValue_succeeds (p : Program) (v : ValueId) :
    Succeeds p (fun _ => False) g (addValue p v) fun n g' => g'.valueAt? n = some v := by
  obtain ⟨hGrowth, hNode⟩ := addValue_extends p (fun _ => False) g v
  have hRun : ∃ n g', (addValue p v).run.run g = (.ok n, g') ∧ g'.ops = g.ops := by
    unfold addValue
    rw [run_get_bind]
    cases g.nodeOf? v with
    | some n => exact ⟨n, g, rfl, rfl⟩
    | none =>
      rw [run_bind, checkOpen, run_get_bind, hOpen.started]
      exact ⟨_, _, rfl, rfl⟩
  obtain ⟨n, g', hRun, hOps⟩ := hRun
  rw [hRun] at hGrowth hNode
  exact ⟨n, g', hRun, ⟨hGrowth, fun h => by unfold Full; rw [hOps]; exact h⟩, hNode n rfl⟩

theorem addValues_succeeds (p : Program) (vs : List ValueId) :
    Succeeds p (fun _ => False) g (vs.mapM (addValue p)) fun ns g' =>
      ns.map g'.valueAt? = vs.map some := by
  induction vs generalizing g with
  | nil =>
    rw [List.mapM_nil]
    exact Succeeds.pure rfl
  | cons v vs ih =>
    rw [List.mapM_cons]
    refine Succeeds.bind (addValue_succeeds hOpen p v) fun n g1 hTo1 hn => ?_
    refine Succeeds.bind (ih (hTo1.extensible hOpen)) fun ns g2 hTo2 hns => ?_
    refine Succeeds.pure ?_
    rw [List.map_cons, List.map_cons, hns, hTo2.growth.valueAt? hn]

omit hOpen in
theorem exists_node_of_map {ns : List NodeId} {vs : List ValueId}
    (h : ns.map g.valueAt? = vs.map some) {u : ValueId} (hu : u ∈ vs) :
    ∃ n ∈ ns, g.valueAt? n = some u := by
  have hMem : some u ∈ ns.map g.valueAt? := h ▸ List.mem_map_of_mem hu
  exact List.mem_map.mp hMem

omit hOpen in
theorem lt_of_map {ns : List NodeId} {vs : List ValueId} (h : ns.map g.valueAt? = vs.map some) :
    ∀ n ∈ ns, n < g.nodes.size := by
  intro n hn
  obtain ⟨v, -, hv⟩ := List.mem_map.mp (h ▸ List.mem_map_of_mem hn)
  exact lt_of_valueAt? hv.symm

omit hOpen in
/-- A union that is the first definition of a value can be extended. -/
theorem bindable_pushOperation {sink : NodeId} (hSink : g.valueAt? sink = some v)
    (hv : Undefined g v) (sources : List NodeId) (r : Range) :
    Bindable (g.pushOperation sink (.phi sources) r) v := by
  intro n o hn ho
  rw [definition_pushOperation _ _ (lt_of_valueAt? hSink)] at ho
  split at ho
  · cases ho
    exact isPhi_iff.mpr ⟨_, sources, (ops_pushOperation ..).mpr (.inl ⟨rfl, rfl⟩), rfl⟩
  · rw [Graph.valueAt?, nodes_pushOperation, Option.map_map] at hn
    rw [hv n hn] at ho
    cases ho

/-- A value that is not defined gets its definition. -/
theorem addOperation_succeeds {kind : Kind} {r : Range} (hv : Undefined g v)
    (hKind : Admissible p g v kind r) (hFull : kind ≠ .phi []) :
    Succeeds p (· = v) g (addOperation p v kind r) fun _ g' =>
      (∀ sources, kind = .phi sources → Bindable g' v) ∧
      ∃ op ∈ g'.ops, g'.valueAt? op.sink = some v ∧ op.kind = kind := by
  unfold addOperation
  refine Succeeds.bind (checkOpen_succeeds hOpen) ?_
  rintro - g1 - rfl
  refine Succeeds.bind (addValue_succeeds hOpen p v).quiet ?_
  rintro sink g2 hTo ⟨hSink, hGrowth⟩
  have hUndefined := hGrowth.undefined not_false hv
  have hFree := hUndefined sink hSink
  refine Succeeds.get_bind ?_
  rw [hFree]
  have hStep : Extension p (· = v) g2 (g2.pushOperation sink kind r) :=
    .operation (hTo.extensible hOpen).started hSink rfl hFree (hKind.grow hGrowth)
  refine ⟨g2.ops.size, g2.pushOperation sink kind r, rfl, ⟨.single hStep, fun hg op hOp => ?_⟩,
    fun sources hPhi => ?_, ⟨sink, kind, r⟩, Array.mem_push_self, hStep.valueAt? hSink, rfl⟩
  · rcases Array.mem_push.mp hOp with hOp | rfl
    · exact hg op hOp
    · exact hFull
  · subst hPhi
    exact bindable_pushOperation hSink hUndefined sources r

theorem addSigma_succeeds {b : BlockId} {source : ValueId} (hv : Undefined g v) :
    Succeeds p (· = v) g (addSigma p b v source) fun _ g' => ∃ n, g'.valueAt? n = some v := by
  have hNode {g' : Graph} {kind : Kind} (h : (∀ sources, kind = .phi sources → Bindable g' v) ∧
      ∃ op ∈ g'.ops, g'.valueAt? op.sink = some v ∧ op.kind = kind) :
      ∃ n, g'.valueAt? n = some v := by
    obtain ⟨op, -, hSink, -⟩ := h.2
    exact ⟨op.sink, hSink⟩
  unfold addSigma
  refine Succeeds.bind (addValue_succeeds hOpen p source).quiet ?_
  rintro src g1 hTo1 ⟨hSrc, hGrowth1⟩
  refine Succeeds.get_bind ?_
  have hUndefined1 := hGrowth1.undefined not_false hv
  have hLt := lt_of_valueAt? hSrc
  have hOpen1 := hTo1.extensible hOpen
  cases g1.factAt? source b with
  | none =>
    exact Succeeds.get_bind (Succeeds.mono (addOperation_succeeds hOpen1 hUndefined1
      (admissible_sigma hLt nofun (absurd rfl)) nofun) fun _ _ _ h => hNode h)
  | some fact =>
    cases fact with
    | within r =>
      exact Succeeds.mono (addOperation_succeeds hOpen1 hUndefined1
        (admissible_sigma hLt nofun (absurd rfl)) nofun) fun _ _ _ h => hNode h
    | against c bound =>
      refine Succeeds.bind (addValue_succeeds hOpen1 p bound).quiet ?_
      rintro n g2 hTo2 ⟨hBound, hGrowth2⟩
      refine Succeeds.get_bind (Succeeds.mono (addOperation_succeeds (hTo2.extensible hOpen1)
        (hGrowth2.undefined not_false hUndefined1)
        (admissible_sigma (lt_of_valueAt? (hGrowth2.valueAt? hSrc)) ?_ fun _ => rfl) nofun)
        fun _ _ _ h => hNode h)
      rintro m c' ⟨⟩
      exact lt_of_valueAt? hBound

omit hOpen in
theorem full_extendPhi {sources : List NodeId} (hg : Full g) (hSources : sources ≠ []) :
    Full (g.extendPhi o sources) := by
  intro op hOp hKind
  obtain ⟨o', ho'⟩ := Array.mem_iff_getElem?.mp hOp
  obtain ⟨old, hOld, rfl⟩ := (ops_extendPhi g o sources o' op).mp ho'
  rcases withSources_cases o sources o' old with hSame | ⟨before, -, hSame⟩
  · rw [hSame] at hKind
    exact hg old (Array.mem_of_getElem? hOld) hKind
  · rw [hSame] at hKind
    exact hSources (List.append_eq_nil_iff.mp (Kind.phi.inj hKind)).2

omit hOpen in
/-- A union reads the sources that it is given. -/
theorem unites_extendPhi {vs : List ValueId} {sources : List NodeId} (hw : Wired g)
    (hn : g.valueAt? n = some v) (hDefinition : g.definition n = some o) (hPhi : g.isPhi o = true)
    (hNodes : sources.map g.valueAt? = vs.map some) {u : ValueId} (hu : u ∈ vs) :
    Unites (g.extendPhi o sources) v u := by
  obtain ⟨op, hOp, rfl⟩ := (hw.definition_iff n o).mp hDefinition
  obtain ⟨op', old, hOp', hKind⟩ := isPhi_iff.mp hPhi
  cases hOp.symm.trans hOp'
  have hNew := (ops_extendPhi g o sources o _).mpr ⟨op, hOp, rfl⟩
  obtain ⟨k, hk, hu⟩ := exists_node_of_map hNodes hu
  have hValue (m : NodeId) : (g.extendPhi o sources).valueAt? m = g.valueAt? m := by
    rw [Graph.valueAt?, nodes_extendPhi, Option.map_map]
    rfl
  refine ⟨_, Array.mem_of_getElem? hNew, ?_, old ++ sources, ?_, k, ?_, ?_⟩
  · rw [sink_withSources, hValue, hn]
  · simp [withSources, hKind]
  · exact List.mem_append_right _ hk
  · rw [hValue, hu]

/-- A value whose definition is a union is bound to more values. -/
theorem addBinding_succeeds {sources : List ValueId} (hv : Bindable g v) :
    Succeeds p (· = v) g (addBinding p v sources) fun _ g' =>
      Bindable g' v ∧ ∀ u ∈ sources, Unites g' v u := by
  unfold addBinding
  split
  case isTrue hSources =>
    refine Succeeds.bind (addValue_succeeds hOpen p v).quiet ?_
    rintro n g1 - ⟨-, hGrowth⟩
    refine Succeeds.get_bind (Succeeds.pure ⟨hGrowth.bindable not_false hv, fun u hu => ?_⟩)
    rw [List.isEmpty_iff.mp hSources] at hu
    cases hu
  case isFalse hSources =>
    refine Succeeds.bind (addValues_succeeds hOpen p sources).quiet ?_
    rintro srcs g1 hTo ⟨hNodes, hGrowth⟩
    have hSrcs := lt_of_map hNodes
    have hOpen1 := hTo.extensible hOpen
    have hBindable := hGrowth.bindable not_false hv
    have hNonempty : srcs ≠ [] := by
      rintro rfl
      exact hSources (List.isEmpty_iff.mpr (List.map_eq_nil_iff.mp hNodes.symm))
    refine Succeeds.get_bind ?_
    split
    case h_1 o ho =>
      obtain ⟨n, hn, hDefinition⟩ := Option.bind_eq_some_iff.mp ho
      have hPhi := hBindable n o (valueAt?_of_nodeOf? hn) hDefinition
      simp only [hPhi, Bool.not_true, Bool.false_eq_true, if_false]
      refine Succeeds.bind (checkOpen_succeeds hOpen1) ?_
      rintro - g2 - rfl
      have hStep (D : ValueId → Prop) : Growth p D g2 (g2.extendPhi o srcs) :=
        .single (.sources hOpen1.started hPhi hSrcs)
      refine Succeeds.bind (Succeeds.modify ⟨hStep _, fun hg => full_extendPhi hg hNonempty⟩) ?_
      rintro - g3 - rfl
      refine Succeeds.pure ⟨(hStep fun _ => False).bindable not_false hBindable, fun u hu => ?_⟩
      exact unites_extendPhi hOpen1.wired (valueAt?_of_nodeOf? hn) hDefinition hPhi hNodes hu
    case h_2 hNone =>
      have hUndefined : Undefined g1 v := fun n hn => by
        rw [hOpen1.nodeOf? hn] at hNone
        exact hNone
      refine Succeeds.bind (addOperation_succeeds hOpen1 hUndefined (admissible_phi hSrcs)
        fun h => hNonempty (Kind.phi.inj h)) ?_
      rintro - g3 hTo3 ⟨hPhi, op, hOp, hSink, hKind⟩
      refine Succeeds.pure ⟨hPhi srcs rfl, fun u hu => ⟨op, hOp, hSink, srcs, hKind, ?_⟩⟩
      obtain ⟨n, hn, hu⟩ := exists_node_of_map hNodes hu
      exact ⟨n, hn, hTo3.growth.valueAt? hu⟩

/-! ### Instructions -/

omit hOpen in
theorem hasUntracked_ok (p : Program) {vs : List (Option ValueId)} (h : none ∉ vs) :
    ∃ untracked, hasUntracked p vs = .ok untracked := by
  induction vs with
  | nil => exact ⟨false, rfl⟩
  | cons a vs ih =>
    cases a with
    | none => exact absurd List.mem_cons_self h
    | some v =>
      unfold hasUntracked
      split
      · exact ih fun hMem => h (List.mem_cons_of_mem _ hMem)
      · exact ⟨true, rfl⟩

omit hOpen in
theorem operandAt_succeeds {args : List (Option ValueId)} {k : Nat} (h : none ∉ args)
    (hk : k < args.length) :
    Succeeds p D g (operandAt args k) fun a g' => g' = g ∧ args[k]? = some (some a) := by
  unfold operandAt
  split
  · exact Succeeds.pure ⟨rfl, ‹_›⟩
  case h_2 hNone =>
    cases ha : args[k] with
    | none => exact absurd (ha ▸ List.getElem_mem hk) h
    | some v => exact absurd (List.getElem?_eq_some_iff.mpr ⟨hk, ha⟩) (hNone v)

omit hOpen in
theorem Models.of_result {i : Instr} (hv : i.result = some v) (hn : ∃ n, g.valueAt? n = some v)
    (h : hasUntracked p i.args = .ok false → Represents g i v) : Models p g i := by
  refine ⟨fun hu _ => ?_, fun hu _ => ?_⟩
  · cases hv.symm.trans hu
    exact hn
  · cases hv.symm.trans hu
    exact h

/-- The result of an instruction that is not a call is defined by an operation, once its operands
have nodes. -/
theorem addResult_succeeds {i : Instr} {kind : Kind} (hv : i.result = some v) (hCall : i.op ≠ .call)
    (hNew : Undefined g v) (hKind : Admissible p g v kind g.sentinels.max) (hFull : kind ≠ .phi [])
    (hRepresents : ∀ g', Growth p i.Defines g g' →
      (∃ op ∈ g'.ops, g'.valueAt? op.sink = some v ∧ op.kind = kind) → Represents g' i v) :
    Succeeds p i.Defines g (do return some (← addOperation p v kind (← get).sentinels.max))
      fun _ g' => Models p g' i := by
  have hDefines (u : ValueId) (hu : u = v) : i.Defines u := hu.symm ▸ ⟨hv, hCall⟩
  refine Succeeds.get_bind (Succeeds.bind
    ((addOperation_succeeds hOpen hNew hKind hFull).weaken hDefines) ?_)
  rintro _ g' hTo ⟨-, hDefined⟩
  refine Succeeds.pure (.of_result hv ?_ fun _ => hRepresents g' hTo.growth hDefined)
  obtain ⟨op, -, hSink, -⟩ := hDefined
  exact ⟨op.sink, hSink⟩

/-- An instruction with its operands succeeds if its result is not defined. -/
theorem addInstr_succeeds {b : BlockId} {i : Instr} (hi : i.Supplied)
    (hNew : ∀ v, i.Defines v → Undefined g v) :
    Succeeds p i.Defines g (addInstr p b i) fun _ g' => Models p g' i := by
  unfold addInstr
  cases hv : i.result with
  | none =>
    refine Succeeds.pure ⟨fun h => ?_, fun h => ?_⟩ <;> cases hv.symm.trans h
  | some v =>
    dsimp only
    split
    case isTrue hInt =>
      have hNot {u : ValueId} (hu : i.result = some u) (hInt' : p.isInteger u = true) : False := by
        cases hv.symm.trans hu
        rw [hInt'] at hInt
        cases hInt
      exact Succeeds.pure ⟨fun hu hInt => (hNot hu hInt).elim, fun hu hInt => (hNot hu hInt).elim⟩
    obtain ⟨untracked, hUntracked⟩ := hasUntracked_ok p hi.args
    refine Succeeds.bind (Succeeds.lift hUntracked) ?_
    rintro u g1 - ⟨hu, rfl⟩
    rw [hu]
    have hValue (hAll : ∀ g', hasUntracked p i.args = .ok false → Represents g' i v) :
        Succeeds p i.Defines g1 (addValue p v >>= fun _ => pure none)
          fun (_ : Option OpId) g' => Models p g' i :=
      ((addValue_succeeds hOpen p v).weaken fun _ => False.elim).andThen.mono
        fun _ g' _ h => .of_result hv h.2 (hAll g')
    split
    case isTrue hSome =>
      refine hValue fun g' hTracked => ?_
      rw [hUntracked, hSome] at hTracked
      cases hTracked
    have hDefines (hCall : i.op ≠ .call) (u : ValueId) (hu : u = v) : i.Defines u :=
      hu.symm ▸ ⟨hv, hCall⟩
    have hUndefined {g2 : Graph} (hCall : i.op ≠ .call) (hGrowth : Growth p (fun _ => False) g1 g2) :
        Undefined g2 v :=
      hGrowth.undefined not_false (hNew v (hDefines hCall v rfl))
    split
    case h_1 op hOp =>
      refine Succeeds.bind (operandAt_succeeds hi.args (Nat.lt_of_lt_of_eq Nat.one_pos
        (hi.unary hOp).symm)) ?_
      rintro a g2 - ⟨rfl, ha⟩
      refine Succeeds.bind (addValue_succeeds hOpen p a).quiet ?_
      rintro src g3 - ⟨hSrc, hGrowth⟩
      have hCall : i.op ≠ .call := by simp [hOp]
      refine addResult_succeeds (hGrowth.extensible hOpen) hv hCall (hUndefined hCall hGrowth)
        (admissible_unary hSrc v) (by simp) fun g' hTo hMem => ⟨fun {u} hu => ?_, by simp [hOp]⟩
      cases hOp.symm.trans hu
      obtain ⟨op', hMem, hSink, hKind⟩ := hMem
      exact ⟨op', hMem, hSink, a, src, _, _, ha, hTo.valueAt? hSrc, hKind⟩
    case h_2 op hOp =>
      have hLength := hi.binary hOp
      refine Succeeds.bind (operandAt_succeeds hi.args (by omega)) ?_
      rintro a g2 - ⟨rfl, ha⟩
      refine Succeeds.bind (addValue_succeeds hOpen p a).quiet ?_
      rintro lhs g3 hTo ⟨hLhs, hGrowth⟩
      refine Succeeds.bind (operandAt_succeeds hi.args (by omega)) ?_
      rintro a' g4 - ⟨rfl, ha'⟩
      refine Succeeds.bind (addValue_succeeds (hTo.extensible hOpen) p a').quiet ?_
      rintro rhs g5 - ⟨hRhs, hGrowth'⟩
      have hLhs' := hGrowth'.valueAt? hLhs
      have hCall : i.op ≠ .call := by simp [hOp]
      have hBoth : Growth p (fun _ => False) _ g5 := hGrowth.trans hGrowth'
      refine addResult_succeeds (hBoth.extensible hOpen) hv hCall (hUndefined hCall hBoth)
        (admissible_binary op (lt_of_valueAt? hLhs') (lt_of_valueAt? hRhs)) (by simp)
        fun g' hTo hMem => ⟨by simp [hOp], fun {f} hf => ?_⟩
      cases hOp.symm.trans hf
      obtain ⟨op', hMem, hSink, hKind⟩ := hMem
      exact ⟨op', hMem, hSink, a, a', lhs, rhs, ha, ha', hTo.valueAt? hLhs', hTo.valueAt? hRhs,
        hKind⟩
    case h_3 hOp =>
      refine Succeeds.bind (addValues_succeeds hOpen p (i.args.filterMap id)).quiet ?_
      rintro ns g2 - ⟨hNodes, hGrowth⟩
      have hCall : i.op ≠ .call := by simp [hOp]
      refine addResult_succeeds (hGrowth.extensible hOpen) hv hCall (hUndefined hCall hGrowth)
        (admissible_phi (lt_of_map hNodes)) (fun hNil => ?_)
        fun _ _ _ => ⟨by simp [hOp], by simp [hOp]⟩
      rw [Kind.phi.inj hNil] at hNodes
      have hNone := List.filterMap_eq_nil_iff.mp (List.map_eq_nil_iff.mp hNodes.symm)
      obtain ⟨a, ha⟩ := List.exists_mem_of_ne_nil _ (hi.phi hOp)
      exact hi.args (hNone a ha ▸ ha)
    case h_4 hOp =>
      refine Succeeds.bind (operandAt_succeeds hi.args (Nat.lt_of_lt_of_eq Nat.one_pos
        (hi.sigma hOp).symm)) ?_
      rintro a g2 - ⟨rfl, -⟩
      have hCall : i.op ≠ .call := by simp [hOp]
      exact Succeeds.bind ((addSigma_succeeds hOpen (hUndefined hCall .refl)).weaken
        (hDefines hCall)) fun _ _ _ h =>
          Succeeds.pure (.of_result hv h fun _ => ⟨by simp [hOp], by simp [hOp]⟩)
    case h_5 hUnary hBinary _ _ =>
      exact hValue fun _ _ => ⟨fun h => absurd h (hUnary _), fun h => absurd h (hBinary _)⟩

/-! ### Branches -/

omit hOpen in
theorem addFact_succeeds (hp : p.Complete) (v : ValueId) (f : BranchFact) :
    Succeeds p D g (addFact p v f) fun _ _ => True := by
  have hPush {g' : Graph} (u : ValueId) : Reaches p D g' { g' with
      branches := g'.branches.push (u, f) } := ⟨.single (.facts _ _), id⟩
  have hMissing {i : Instr} (hi : (p.value v).site.bind p.instr? = some i) : none ∉ i.args := by
    obtain ⟨s, -, hs⟩ := Option.bind_eq_some_iff.mp hi
    exact hp.args_present (Array.mem_of_getElem? hs)
  have hOp {op : UnaryOp} {arg : Option ValueId}
      (h : ((p.value v).site.bind p.instr?).map (fun i => (i.op, i.args)) =
        some (.unary op, [arg])) : arg ≠ none := by
    obtain ⟨i, hi, hEq⟩ := Option.map_eq_some_iff.mp h
    rintro rfl
    have hNone := hMissing hi
    rw [(Prod.mk.inj hEq).2] at hNone
    exact hNone List.mem_cons_self
  unfold addFact
  refine Succeeds.bind (Succeeds.modify (hPush v)) fun _ g1 _ _ => ?_
  split
  iterate 2
    · rename_i h
      split
      · exact absurd rfl (hOp h)
      · split
        · exact (Succeeds.modify (hPush _)).mono fun _ _ _ _ => trivial
        · exact Succeeds.pure trivial
  · exact Succeeds.pure trivial

omit hOpen in
theorem factOf_ok (p : Program) (s : Sentinels) (c : Comparison) (y : ValueId) (yes no : BlockId) :
    ∃ fact, factOf p s (.known c) y yes no = .ok fact := by
  unfold factOf
  cases (p.value y).const with
  | some n => exact ⟨_, rfl⟩
  | none => exact ⟨_, rfl⟩

omit hOpen in
theorem addTest_succeeds (hp : p.Complete) (c : Comparison) (x y : ValueId) (yes no : BlockId) :
    Succeeds p D g (addTest p (.known c) (some x) (some y) yes no) fun _ _ => True := by
  have hRecord {g' : Graph} (s : Sentinels) (c : Comparison) (u w : ValueId) : Succeeds p D g' (do
      addFact p u (← liftM (factOf p s (.known c) w yes no))) fun _ _ => True := by
    obtain ⟨fact, hFact⟩ := factOf_ok p s c w yes no
    exact Succeeds.bind (Succeeds.lift hFact) fun _ _ _ _ => addFact_succeeds hp u _
  unfold addTest
  dsimp only
  split
  · exact Succeeds.pure trivial
  split
  · exact Succeeds.pure trivial
  refine Succeeds.get_bind ?_
  have hSecond (g1 : Graph) : Succeeds p D g1
      (if !(p.value y).const.isSome then do
        let flipped ← liftM (Predicate.known c).flip
        addFact p y (← liftM (factOf p g.sentinels (.known flipped) x yes no))
      else pure ()) fun _ _ => True := by
    split
    · refine Succeeds.bind (Succeeds.lift (a := c.flip) rfl) ?_
      rintro - g2 - ⟨rfl, rfl⟩
      exact hRecord g.sentinels c.flip y x
    · exact Succeeds.pure trivial
  split
  · exact Succeeds.pure trivial
  · split
    · obtain ⟨fact, hFact⟩ := factOf_ok p g.sentinels c y yes no
      refine Succeeds.bind (Succeeds.lift hFact) ?_
      rintro - g1 - ⟨rfl, rfl⟩
      exact Succeeds.bind (addFact_succeeds hp x _) fun _ g2 _ _ => hSecond g2
    · exact hSecond g

omit hOpen in
theorem addBranch_succeeds (hp : p.Complete) (b : BlockId) :
    Succeeds p D g (addBranch p b) fun _ _ => True := by
  unfold addBranch
  split
  case h_1 pred x y yes no hTerm =>
    have hReady := hp.term hTerm
    obtain ⟨c, rfl⟩ := hReady.known rfl
    obtain ⟨x, rfl, -⟩ := hReady.operands List.mem_cons_self
    obtain ⟨y, rfl, -⟩ := hReady.operands (List.mem_cons_of_mem _ List.mem_cons_self)
    exact addTest_succeeds hp c x y yes no
  case h_2 on cases otherwise hTerm =>
    obtain ⟨on, rfl, -⟩ := (hp.term hTerm).operands List.mem_cons_self
    dsimp only
    split
    · exact (Succeeds.modify ⟨.single (.facts _ _), id⟩).mono fun _ _ _ _ => trivial
    · exact Succeeds.pure trivial
  · exact Succeeds.pure trivial

end Builders

/-! ### Functions -/

/-- All that the graph of the function needs is there. -/
structure Buildable (p : Program) (f : FuncId) : Prop where
  supplied {b : BlockId} {i : Instr} : b ∈ (p.func f).blocks → i ∈ (p.block b).instrs → i.Supplied
  branch {b : BlockId} (g : Graph) : b ∈ (p.func f).blocks →
    Succeeds p (fun _ => False) g (addBranch p b) fun _ _ => True

theorem instr_disjoint (hp : p.Tidy) (b : BlockId) :
    (p.block b).instrs.toList.Pairwise fun i i' => ∀ v, i.Defines v → ¬ i'.Defines v := by
  refine List.pairwise_iff_getElem.mpr fun k k' hk hk' hlt v hv hv' => ?_
  have hAt {k : Nat} (hk : k < (p.block b).instrs.toList.length) :
      (p.block b).instrs[k]? = some (p.block b).instrs.toList[k] := by
    rw [← Array.getElem?_toList]
    exact List.getElem?_eq_getElem hk
  exact Nat.ne_of_gt hlt (congrArg Site.index (hp.site_eq (hAt hk) (hAt hk') hv.1 hv'.1))

/-- The graph has nodes for the tracked parameters of a function, and models its instructions. -/
structure Knows (p : Program) (f : FuncId) (g : Graph) : Prop where
  param {v : ValueId} : v ∈ (p.func f).params → p.isInteger v = true →
    ∃ n, g.valueAt? n = some v
  models {b : BlockId} {i : Instr} : b ∈ (p.func f).blocks → i ∈ (p.block b).instrs → Models p g i

theorem Growth.knows {f : FuncId} (h : Growth p D g g') (hf : Knows p f g) : Knows p f g' := by
  refine ⟨fun hv hInt => ?_, fun hb hi => h.models (hf.models hb hi)⟩
  obtain ⟨n, hn⟩ := hf.param hv hInt
  exact ⟨n, h.valueAt? hn⟩

/-- A function whose results are not defined yet. -/
theorem addFunction_succeeds (hp : p.Made) {f : FuncId} (hf : Buildable p f) (hOpen : Extensible g)
    (hNew : ∀ v, p.Defines f v → Undefined g v) :
    Succeeds p (p.Defines f) g (addFunction p f) fun _ g' => Knows p f g' := by
  have hTidy := hp.tidy
  unfold addFunction
  simp only [← Array.forIn_toList]
  -- parameters and branches define nothing
  refine Succeeds.bind (Succeeds.quiet (Succeeds.forIn_each (R := fun v g' =>
    p.isInteger v = true → ∃ n, g'.valueAt? n = some v) hOpen ?_ fun v _ g1 hOpen1 => ?_)) ?_
  · rintro v g' g'' hTo h hInt
    obtain ⟨n, hn⟩ := h hInt
    exact ⟨n, hTo.valueAt? hn⟩
  · split
    · exact (addValue_succeeds hOpen1 p v).andThen.mono fun _ _ hTo h =>
        ⟨h.1, hTo.extensible hOpen1, fun _ => h.2⟩
    case isFalse hNot => exact Succeeds.pure ⟨rfl, hOpen1, fun hInt => absurd hInt hNot⟩
  rintro - g1 hTo1 ⟨⟨-, hParams⟩, hGrowth1⟩
  refine Succeeds.bind (Succeeds.quiet (Succeeds.forIn (I := fun bs _ =>
    ∀ b ∈ bs, b ∈ (p.func f).blocks) (fun b hb => Array.mem_toList_iff.mp hb)
    fun b bs g2 _ hBs => ?_)) ?_
  · exact (hf.branch g2 (hBs b List.mem_cons_self)).andThen.mono fun _ _ _ h =>
      ⟨h.1, fun c hc => hBs c (List.mem_cons_of_mem b hc)⟩
  rintro - g2 hTo2 ⟨-, hGrowth2⟩
  have hOpen2 := hTo2.extensible (hTo1.extensible hOpen)
  have hKnows {g' : Graph} (hTo : Reaches p (p.Defines f) g2 g')
      (h : ∀ b ∈ (p.func f).blocks, ∀ i ∈ (p.block b).instrs, Models p g' i) : Knows p f g' := by
    refine ⟨fun {v} hv hInt => ?_, fun hb hi => h _ hb _ hi⟩
    obtain ⟨n, hn⟩ := hParams v (Array.mem_toList_iff.mpr hv) hInt
    exact ⟨n, hTo.growth.valueAt? (hTo2.growth.valueAt? hn)⟩
  have hNew2 (v : ValueId) (hv : p.Defines f v) : Undefined g2 v :=
    hGrowth2.undefined not_false (hGrowth1.undefined not_false (hNew v hv))
  refine Succeeds.mono (Succeeds.andThen (Succeeds.weaken (Succeeds.forIn_disjoint
    (E := fun b v => ∃ i ∈ (p.block b).instrs, i.Defines v)
    (R := fun b g' => ∀ i ∈ (p.block b).instrs, Models p g' i) hOpen2 ?_ ?_
    (fun _ _ _ _ hTo h i hi => hTo.models (h i hi)) ?_) ?_))
    fun _ _ hTo ⟨_, _, h⟩ => hKnows hTo fun b hb => h b (Array.mem_toList_iff.mpr hb)
  · exact fun b hb v hv => hNew2 v ⟨b, Array.mem_toList_iff.mp hb, hv⟩
  · refine (hp.numbered.blocks f).imp fun hNe v ⟨i, hi, hv⟩ ⟨i', hi', hv'⟩ => ?_
    exact hNe (hTidy.block_eq hi hi' hv.1 hv'.1).symm
  · intro b hb g3 hOpen3 hNew3
    have hb := Array.mem_toList_iff.mp hb
    refine Succeeds.mono (Succeeds.andThen (Succeeds.weaken (Succeeds.forIn_disjoint
      (E := Instr.Defines) (R := fun i g' => Models p g' i) hOpen3 ?_ (instr_disjoint hTidy b)
      (fun _ _ _ _ hTo => hTo.models) ?_) ?_))
      fun _ _ _ ⟨h, _, h'⟩ => ⟨h, fun i hi => h' i (Array.mem_toList_iff.mpr hi)⟩
    · exact fun i hi v hv => hNew3 v ⟨i, Array.mem_toList_iff.mp hi, hv⟩
    · intro i hi g4 hOpen4 hNew4
      have hi := Array.mem_toList_iff.mp hi
      exact (addInstr_succeeds hOpen4 (hf.supplied hb hi) hNew4).andThen.mono
        fun _ _ _ ⟨h, _, h'⟩ => ⟨h, h'⟩
    · exact fun v ⟨i, hi, hv⟩ => ⟨i, Array.mem_toList_iff.mp hi, hv⟩
  · exact fun v ⟨b, hb, hv⟩ => ⟨b, Array.mem_toList_iff.mp hb, hv⟩

/-! ### Modules -/

/-- The graph can be extended, and so can what defines parameters and results of calls. -/
structure Receptive (p : Program) (g : Graph) : Prop extends Extensible g where
  bindable {v : ValueId} : p.Receives v → Bindable g v

theorem Receptive.addBinding (hg : Receptive p g) (hv : p.Receives v) (sources : List ValueId) :
    Succeeds p (· = v) g (addBinding p v sources) fun _ g' =>
      Receptive p g' ∧ ∀ u ∈ sources, Unites g' v u := by
  refine (addBinding_succeeds hg.toExtensible (hg.bindable hv)).mono
    fun _ g' hTo ⟨hBindable, hUnites⟩ => ⟨⟨hTo.extensible hg.toExtensible, fun {u} hu => ?_⟩, hUnites⟩
  by_cases hEq : u = v
  · exact hEq ▸ hBindable
  · exact hTo.growth.bindable hEq (hg.bindable hu)

theorem present_eq {vs : List (Option ValueId)} (h : none ∉ vs) :
    present vs = .ok (vs.filterMap id) := by
  induction vs with
  | nil => rfl
  | cons a vs ih =>
    cases a with
    | none => exact absurd List.mem_cons_self h
    | some v =>
      have hRest := ih fun hMem => h (List.mem_cons_of_mem _ hMem)
      unfold present at hRest ⊢
      rw [List.mapM_cons, hRest]
      rfl

theorem actuals_eq {calls : List Instr} (hCalls : ∀ call ∈ calls, none ∉ call.args) (i : Nat) :
    actuals p calls i = .ok (calls.filterMap (Instr.actual? p i)) := by
  have hNone : none ∉ calls.filterMap fun call => call.args[i]? := by
    intro hMem
    obtain ⟨call, hCall, ha⟩ := List.mem_filterMap.mp hMem
    exact hCalls call hCall (List.mem_of_getElem? ha)
  unfold actuals
  rw [present_eq hNone, List.filterMap_filterMap]
  show Except.ok (List.filter p.isInteger _) = _
  rw [List.filter_filterMap]
  rfl

section Calls

variable {m : ModuleId} {f : FuncId}

/-- The parameters are bound to the arguments, if all calls pass one. -/
theorem Receptive.bindParams (hg : Receptive p g) (hExternal : (p.func f).external = false)
    (hSome : p.calls m f ≠ []) (hCalls : ∀ call ∈ p.calls m f, none ∉ call.args) :
    Succeeds p (fun v => ∃ u, p.Binds m f v u) g (bindParams p f (p.calls m f)) fun _ g' =>
      Receptive p g' ∧ ∀ i v, (p.func f).params[i]? = some v → p.isInteger v = true →
        (∀ call ∈ p.calls m f, (call.actual? p i).isSome) → ∀ call ∈ p.calls m f,
          ∀ a, call.actual? p i = some a → Unites g' v a := by
  unfold Graph.bindParams
  refine Succeeds.mono (Succeeds.andThen (Succeeds.forIn_each (R := fun x g' =>
    p.isInteger x.1 = true → (∀ call ∈ p.calls m f, (call.actual? p x.2).isSome) →
      ∀ call ∈ p.calls m f, ∀ a, call.actual? p x.2 = some a → Unites g' x.1 a) hg ?_ ?_))
    fun _ g' _ ⟨_, _, hg', h⟩ => ⟨hg', fun i v hv => h (v, i) ?_⟩
  · exact fun x g' g'' hTo h hInt hAll call hCall a ha => hTo.unites (h hInt hAll call hCall a ha)
  · rintro ⟨v, i⟩ hMem g1 hg1
    have hv : (p.func f).params[i]? = some v := by
      rw [← Array.getElem?_toList]
      exact List.mk_mem_zipIdx_iff_getElem?.mp hMem
    dsimp only
    split
    case isTrue hInt =>
      refine Succeeds.bind (Succeeds.lift (actuals_eq hCalls i)) ?_
      rintro - g2 - ⟨rfl, rfl⟩
      have hIff : ((p.calls m f).filterMap (Instr.actual? p i)).length == (p.calls m f).length ↔
          ∀ call ∈ p.calls m f, (call.actual? p i).isSome := by
        rw [beq_iff_eq, List.filterMap_length_eq_length]
      split
      case isTrue hLength =>
        have hAll := hIff.mp hLength
        obtain ⟨call, hCall⟩ := List.exists_mem_of_ne_nil _ hSome
        obtain ⟨a, ha⟩ := Option.isSome_iff_exists.mp (hAll call hCall)
        refine ((hg1.addBinding (.inl ⟨f, Array.mem_of_getElem? hv⟩) _).weaken ?_).andThen.mono
          fun _ _ _ ⟨h, _, hg', hUnites⟩ => ⟨h, hg', fun _ _ call hCall a ha => ?_⟩
        · exact fun u hu => ⟨a, hu.symm ▸ .param hExternal hv hInt hAll hCall ha⟩
        · exact hUnites a (List.mem_filterMap.mpr ⟨call, hCall, ha⟩)
      case isFalse hNot => exact Succeeds.pure ⟨rfl, hg1, fun _ hAll => absurd (hIff.mpr hAll) hNot⟩
    case isFalse hNot => exact Succeeds.pure ⟨rfl, hg1, fun hInt => absurd hInt hNot⟩
  · rw [← Array.getElem?_toList] at hv
    exact List.mk_mem_zipIdx_iff_getElem?.mpr hv

/-- The results of calls are bound to what the function returns. -/
theorem Receptive.bindResults (hg : Receptive p g) (hReturns : none ∉ p.returns f 0) :
    Succeeds p (fun v => ∃ u, p.Binds m f v u) g (bindResults p f (p.calls m f)) fun _ g' =>
      Receptive p g' ∧ ∀ call ∈ p.calls m f, ∀ v, call.result = some v → p.isInteger v = true →
        ∀ u, some u ∈ p.returns f 0 → p.isInteger u = true → Unites g' v u := by
  have hReturned (u : ValueId) : u ∈ ((p.returns f 0).filterMap id).filter p.isInteger ↔
      some u ∈ p.returns f 0 ∧ p.isInteger u = true := by
    simp [List.mem_filter, List.mem_filterMap]
  unfold Graph.bindResults
  refine Succeeds.bind (Succeeds.lift (present_eq hReturns)) ?_
  rintro - g1 - ⟨rfl, rfl⟩
  dsimp only
  generalize ((p.returns f 0).filterMap id).filter p.isInteger = returned at hReturned
  split
  case isTrue hEmpty =>
    refine Succeeds.pure ⟨hg, fun _ _ _ _ _ u hu hInt => ?_⟩
    have hMem := (hReturned u).mpr ⟨hu, hInt⟩
    rw [List.isEmpty_iff.mp hEmpty] at hMem
    cases hMem
  case isFalse hSome =>
    obtain ⟨u₀, hu₀⟩ := List.exists_mem_of_ne_nil _ (mt List.isEmpty_iff.mpr hSome)
    obtain ⟨hu₀, hInt₀⟩ := (hReturned u₀).mp hu₀
    refine Succeeds.mono (Succeeds.andThen (Succeeds.forIn_each (R := fun call g' =>
      ∀ v, call.result = some v → p.isInteger v = true → ∀ u ∈ returned, Unites g' v u) hg ?_ ?_))
      fun _ g' _ ⟨_, _, hg', h⟩ => ⟨hg', fun call hCall v hv hInt u hu hInt' =>
        h call hCall v hv hInt u ((hReturned u).mpr ⟨hu, hInt'⟩)⟩
    · exact fun call g' g'' hTo h v hv hInt u hu => hTo.unites (h v hv hInt u hu)
    · intro call hCall g2 hg2
      split
      case h_1 v hv =>
        split
        case isTrue hInt =>
          have hBinds : p.Binds m f v u₀ := .result hCall hv hInt hu₀ hInt₀
          refine ((hg2.addBinding hBinds.receives _).weaken ?_).andThen.mono
            fun _ _ _ ⟨h, _, hg', hUnites⟩ => ⟨h, hg', fun w hw _ => ?_⟩
          · exact fun w hw => ⟨u₀, hw.symm ▸ hBinds⟩
          · cases hv.symm.trans hw
            exact hUnites
        case isFalse hNot =>
          refine Succeeds.pure ⟨rfl, hg2, fun w hw hInt => absurd ?_ hNot⟩
          cases hv.symm.trans hw
          exact hInt
      case h_2 hNone => exact Succeeds.pure ⟨rfl, hg2, fun v hv => absurd hv (hNone v)⟩

theorem returns_present (hp : p.Complete) (f : FuncId) : none ∉ p.returns f 0 := by
  intro hMem
  obtain ⟨b, -, hb⟩ := List.mem_filterMap.mp hMem
  split at hb
  case h_1 results hTerm =>
    obtain ⟨v, hv, -⟩ := (hp.term hTerm).operands (List.mem_of_getElem? hb)
    cases hv
  · cases hb

/-- What the calls of a function bind is united. -/
theorem Receptive.bindCalls (hg : Receptive p g) (hp : p.Complete) (m : ModuleId) (f : FuncId) :
    Succeeds p (fun v => ∃ u, p.Binds m f v u) g (bindCalls p m f) fun _ g' =>
      Receptive p g' ∧ ∀ v u, p.Binds m f v u → Unites g' v u := by
  have hArgs : ∀ call ∈ p.calls m f, none ∉ call.args := by
    intro call h
    obtain ⟨⟨f', -, hi⟩, -⟩ := Program.mem_calls.mp h
    obtain ⟨b, -, hb⟩ := Program.mem_instrs.mp hi
    exact hp.args_present hb
  have hReturns := returns_present hp f
  unfold Graph.bindCalls
  dsimp only
  split
  case isTrue hBound =>
    simp only [Bool.and_eq_true, Bool.not_eq_true', List.isEmpty_eq_false_iff] at hBound
    refine Succeeds.bind (hg.bindParams hBound.1 hBound.2 hArgs) fun _ g1 _ ⟨hg1, hParams⟩ => ?_
    refine (hg1.bindResults hReturns).mono fun _ g2 hTo ⟨hg2, hResults⟩ => ⟨hg2, fun v u h => ?_⟩
    cases h with
    | param _ hv hInt hAll hCall ha =>
      exact hTo.growth.unites (hParams _ v hv hInt hAll _ hCall u ha)
    | result hCall hv hInt hu hTracked => exact hResults _ hCall v hv hInt u hu hTracked
  case isFalse hNot =>
    refine (hg.bindResults hReturns).mono fun _ g2 _ ⟨hg2, hResults⟩ => ⟨hg2, fun v u h => ?_⟩
    cases h with
    | param hExternal _ _ _ hCall _ =>
      refine absurd ?_ hNot
      simp only [Bool.and_eq_true, Bool.not_eq_true', List.isEmpty_eq_false_iff]
      exact ⟨hExternal, List.ne_nil_of_mem hCall⟩
    | result hCall hv hInt hu hTracked => exact hResults _ hCall v hv hInt u hu hTracked

end Calls

theorem buildable_of_accepted (hp : p.Accepted) {f : FuncId} (hf : f ∈ (p.moduleAt 0).functions) :
    Buildable p f :=
  ⟨hp.supplied hf, fun _ _ => addBranch_succeeds hp.complete _⟩

/-- The functions of an accepted module leave parameters and results of calls without definitions. -/
theorem addFunctions_succeeds (hp : p.Accepted) (s : Sentinels) (o : Options) :
    Succeeds p (fun _ => True) (empty s o) (forIn (p.moduleAt 0).functions.toList PUnit.unit
      fun f _ => do
        addFunction p f
        pure (.yield ⟨⟩)) fun _ g' => Extensible g' ∧ (∀ v, p.Receives v → Undefined g' v) ∧
          ∀ f ∈ (p.moduleAt 0).functions, Knows p f g' := by
  have hEmpty : Extensible (empty s o) := extensible_empty s o
  have hNone (v : ValueId) : Undefined (empty s o) v := nofun
  refine Succeeds.weaken (D := fun v => ∃ f ∈ (p.moduleAt 0).functions.toList, p.Defines f v) ?_
    fun _ _ => trivial
  refine (Succeeds.forIn_disjoint (R := Knows p) hEmpty (fun _ _ v _ => hNone v) ?_
    (fun _ _ _ _ hTo => hTo.knows) ?_).mono fun _ g' hTo hKnows =>
      ⟨hTo.extensible hEmpty, fun v hv => hTo.growth.undefined ?_ (hNone v),
        fun f hf => hKnows f (Array.mem_toList_iff.mpr hf)⟩
  · refine (hp.made.numbered.functions 0).imp fun hNe v ⟨b, hb, i, hi, hv⟩ ⟨b', hb', i', hi', hv'⟩ => ?_
    have hOwner := (hp.made.housed.owner hb).2
    rw [← hp.made.tidy.block_eq hi hi' hv.1 hv'.1, (hp.made.housed.owner hb').2] at hOwner
    exact hNe hOwner.symm
  · intro f hf g1 hOpen hNew
    exact (addFunction_succeeds hp.made (buildable_of_accepted hp (Array.mem_toList_iff.mp hf)) hOpen
      hNew).andThen.mono fun _ _ _ ⟨h, _, hKnows⟩ => ⟨h, hKnows⟩
  · exact fun ⟨f, _, h⟩ => hv.not_defines hp.made.tidy f h

/-- The graph of a module unites what its calls bind, and the other parameters and results of calls
have nodes without definitions. -/
structure Bound (p : Program) (m : ModuleId) (g : Graph) : Prop where
  unites {f : FuncId} {v u : ValueId} : f ∈ (p.moduleAt m).functions → p.Binds m f v u → Unites g v u
  undefined {v : ValueId} : p.Receives v → (∀ f ∈ (p.moduleAt m).functions, ∀ u, ¬ p.Binds m f v u) →
    Undefined g v

theorem addModule_succeeds (hp : p.Accepted) (s : Sentinels) (o : Options) :
    Succeeds p (fun _ => True) (empty s o) (addModule p 0) fun _ g' => Bound p 0 g' ∧
      ∀ f ∈ (p.moduleAt 0).functions, Knows p f g' := by
  unfold addModule
  simp only [← Array.forIn_toList]
  refine Succeeds.bind (addFunctions_succeeds hp s o) fun _ g1 _ ⟨hOpen, hUndefined, hKnows⟩ => ?_
  have hReceptive : Receptive p g1 := ⟨hOpen, fun hv => (hUndefined _ hv).bindable⟩
  refine Succeeds.weaken (D := fun v => ∃ f ∈ (p.moduleAt 0).functions, ∃ u, p.Binds 0 f v u) ?_
    fun _ _ => trivial
  refine Succeeds.mono (Succeeds.andThen (Succeeds.forIn_each (R := fun f g' =>
    ∀ v u, p.Binds 0 f v u → Unites g' v u) hReceptive ?_ ?_))
    fun _ g2 hTo ⟨_, _, _, hUnites⟩ => ⟨⟨fun hf h => ?_, fun hv hNot => ?_⟩, fun f hf => ?_⟩
  · exact fun f g' g'' hTo h v u hBinds => hTo.unites (h v u hBinds)
  · intro f hf g2 hg2
    refine ((hg2.bindCalls hp.complete 0 f).weaken ?_).andThen.mono
      fun _ _ _ ⟨h, _, hg3, hUnites⟩ => ⟨h, hg3, hUnites⟩
    exact fun v hv => ⟨f, Array.mem_toList_iff.mp hf, hv⟩
  · exact hUnites _ (Array.mem_toList_iff.mpr hf) _ _ h
  · exact hTo.growth.undefined (fun ⟨f, hf, u, h⟩ => hNot f hf u h) (hUndefined _ hv)
  · exact hTo.growth.knows (hKnows f hf)

theorem full_empty (s : Sentinels) (o : Options) : Full (empty s o) := fun op hOp =>
  absurd hOp (Array.not_mem_empty op)

theorem build_succeeds (hp : p.Made) {f : FuncId} (hf : Buildable p f) (o : Options) :
    ∃ g, build p f o = (.ok (), g) ∧ Reaches p (p.Defines f) (empty (sentinelsFor p o [f]) o) g ∧
      ∀ b ∈ (p.func f).blocks, ∀ i ∈ (p.block b).instrs, Models p g i := by
  obtain ⟨_, g, hRun, hTo, hKnows⟩ := addFunction_succeeds hp hf
    (extensible_empty (sentinelsFor p o [f]) o) fun _ _ => nofun
  exact ⟨g, hRun, hTo, fun b hb i hi => hKnows.models hb hi⟩

theorem buildModule_succeeds (hp : p.Accepted) (o : Options) :
    ∃ g, buildModule p 0 o = (.ok (), g) ∧
      Reaches p (fun _ => True) (empty (sentinelsFor p o (p.moduleAt 0).functions.toList) o) g := by
  obtain ⟨_, g, hRun, hTo, -⟩ := addModule_succeeds hp
    (sentinelsFor p o (p.moduleAt 0).functions.toList) o
  exact ⟨g, hRun, hTo⟩

end ValueRange.Graph
