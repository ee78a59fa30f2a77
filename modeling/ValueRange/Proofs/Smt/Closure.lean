import Mathlib.Logic.Relation
import ValueRange.Proofs.Smt.Legibility

/-! Scripts are closed and ordered. The values that the target and the assertions depend on are the
ones that get definitions, each once and after all that its definition refers to. A definition is
the constraint of its value but for references that close cycles. A script declares, each once, the
values that occur in it and are no constants. -/

namespace ValueRange.Smt

open Program Relation

/-! ### Terms -/

mutual

/-- The parts of a term that have no parts. -/
def Term.leaves : Term → List Term
  | .conj terms => Term.leavesOf terms
  | .disj terms => Term.leavesOf terms
  | .ref v => [.ref v]
  | .apply _ x y => x.leaves ++ y.leaves
  | .literal n => [.literal n]
  | .name v => [.name v]
  | .truth => [.truth]

/-- The leaves of terms. -/
def Term.leavesOf : List Term → List Term
  | [] => []
  | t :: ts => t.leaves ++ Term.leavesOf ts

end

mutual

/-- The term with truth in place of the references that are not kept. -/
def Term.trim (keep : ValueId → Bool) : Term → Term
  | .conj terms => .conj (Term.trimAll keep terms)
  | .disj terms => .disj (Term.trimAll keep terms)
  | .ref v => if keep v then .ref v else .truth
  | .apply op x y => .apply op (x.trim keep) (y.trim keep)
  | .literal n => .literal n
  | .name v => .name v
  | .truth => .truth

/-- The terms, trimmed. -/
def Term.trimAll (keep : ValueId → Bool) : List Term → List Term
  | [] => []
  | t :: ts => t.trim keep :: Term.trimAll keep ts

end

section Terms

variable {P : ValueId → Prop} {keep keep' : ValueId → Bool} {w : ValueId}

theorem Term.mem_leavesOf {l : Term} {ts : List Term} :
    l ∈ Term.leavesOf ts ↔ ∃ t ∈ ts, l ∈ t.leaves := by
  induction ts with
  | nil => simp [Term.leavesOf]
  | cons t ts ih => simp [Term.leavesOf, ih]

mutual

theorem Term.all_iff : ∀ t : Term, t.All P ↔ ∀ w, .ref w ∈ t.leaves → P w
  | .conj ts => by
    rw [Term.All, Term.leaves]
    exact Term.allOf_iff_leavesOf ts
  | .disj ts => by
    rw [Term.All, Term.leaves]
    exact Term.allOf_iff_leavesOf ts
  | .ref v => by simp [Term.All, Term.leaves]
  | .apply _ x y => by
    rw [Term.All, Term.leaves, Term.all_iff x, Term.all_iff y]
    simp only [List.mem_append, or_imp, forall_and]
  | .literal n => by simp [Term.All, Term.leaves]
  | .name v => by simp [Term.All, Term.leaves]
  | .truth => by simp [Term.All, Term.leaves]

theorem Term.allOf_iff_leavesOf : ∀ ts : List Term, Term.AllOf P ts ↔
    ∀ w, .ref w ∈ Term.leavesOf ts → P w
  | [] => by simp [Term.AllOf, Term.leavesOf]
  | t :: ts => by
    rw [Term.AllOf, Term.leavesOf, Term.all_iff t, Term.allOf_iff_leavesOf ts]
    simp only [List.mem_append, or_imp, forall_and]

end

mutual

/-- The references of a trimmed term are those that are kept. -/
theorem Term.ref_mem_trim : ∀ t : Term,
    .ref w ∈ (t.trim keep).leaves ↔ .ref w ∈ t.leaves ∧ keep w = true
  | .conj ts => by
    rw [Term.trim, Term.leaves, Term.leaves]
    exact Term.ref_mem_trimAll ts
  | .disj ts => by
    rw [Term.trim, Term.leaves, Term.leaves]
    exact Term.ref_mem_trimAll ts
  | .ref v => by
    rw [Term.trim, Term.leaves, List.mem_singleton]
    split
    case isTrue hKeep =>
      rw [Term.leaves, List.mem_singleton]
      refine ⟨fun h => ⟨h, ?_⟩, And.left⟩
      cases h
      exact hKeep
    case isFalse hKeep =>
      rw [Term.leaves, List.mem_singleton]
      refine ⟨nofun, ?_⟩
      rintro ⟨⟨⟩, h⟩
      exact absurd h hKeep
  | .apply _ x y => by
    rw [Term.trim, Term.leaves, Term.leaves, List.mem_append, List.mem_append, Term.ref_mem_trim x,
      Term.ref_mem_trim y, or_and_right]
  | .literal n => by simp [Term.trim, Term.leaves]
  | .name v => by simp [Term.trim, Term.leaves]
  | .truth => by simp [Term.trim, Term.leaves]

theorem Term.ref_mem_trimAll : ∀ ts : List Term,
    .ref w ∈ Term.leavesOf (Term.trimAll keep ts) ↔ .ref w ∈ Term.leavesOf ts ∧ keep w = true
  | [] => by simp [Term.trimAll, Term.leavesOf]
  | t :: ts => by
    rw [Term.trimAll, Term.leavesOf, Term.leavesOf, List.mem_append, List.mem_append,
      Term.ref_mem_trim t, Term.ref_mem_trimAll ts, or_and_right]

end

mutual

theorem Term.trim_congr : ∀ t : Term, (∀ w, .ref w ∈ t.leaves → keep w = keep' w) →
    t.trim keep = t.trim keep'
  | .conj ts, h => congrArg Term.conj (Term.trimAll_congr ts h)
  | .disj ts, h => congrArg Term.disj (Term.trimAll_congr ts h)
  | .ref v, h => by rw [Term.trim, Term.trim, h v (List.mem_singleton.mpr rfl)]
  | .apply op x y, h => by
    rw [Term.leaves] at h
    rw [Term.trim, Term.trim, Term.trim_congr x fun w hw => h w (List.mem_append_left _ hw),
      Term.trim_congr y fun w hw => h w (List.mem_append_right _ hw)]
  | .literal _, _ | .name _, _ | .truth, _ => rfl

theorem Term.trimAll_congr : ∀ ts : List Term,
    (∀ w, .ref w ∈ Term.leavesOf ts → keep w = keep' w) →
      Term.trimAll keep ts = Term.trimAll keep' ts
  | [], _ => rfl
  | t :: ts, h => by
    rw [Term.leavesOf] at h
    rw [Term.trimAll, Term.trimAll, Term.trim_congr t fun w hw => h w (List.mem_append_left _ hw),
      Term.trimAll_congr ts fun w hw => h w (List.mem_append_right _ hw)]

end

mutual

/-- Where all references are kept, nothing changes. -/
theorem Term.trim_of_keep (h : ∀ v, keep v = true) : ∀ t : Term, t.trim keep = t
  | .conj ts => congrArg Term.conj (Term.trimAll_of_keep h ts)
  | .disj ts => congrArg Term.disj (Term.trimAll_of_keep h ts)
  | .ref v => by rw [Term.trim, if_pos (h v)]
  | .apply op x y => by rw [Term.trim, Term.trim_of_keep h x, Term.trim_of_keep h y]
  | .literal _ | .name _ | .truth => rfl

theorem Term.trimAll_of_keep (h : ∀ v, keep v = true) : ∀ ts : List Term, Term.trimAll keep ts = ts
  | [] => rfl
  | t :: ts => by rw [Term.trimAll, Term.trim_of_keep h t, Term.trimAll_of_keep h ts]

end

end Terms

/-! ### Dependence -/

/-- The constraint of a value, which is truth if it has none. -/
def constraintOf (cs : List (ValueId × Term)) (v : ValueId) : Term := (cs.lookup v).getD .truth

/-- The constraint of the first value refers to the second. -/
def Depends (cs : List (ValueId × Term)) (u w : ValueId) : Prop :=
  .ref w ∈ (constraintOf cs u).leaves

/-- The value is the target, or an assertion refers to it. -/
def Root (target : ValueId) (assertions : List Term) (v : ValueId) : Prop :=
  v = target ∨ .ref v ∈ Term.leavesOf assertions

/-- The target or a reference of an assertion depends on the value, in any number of steps. -/
def Reached (cs : List (ValueId × Term)) (target : ValueId) (assertions : List Term) (v : ValueId) :
    Prop :=
  ∃ r, Root target assertions r ∧ ReflTransGen (Depends cs) r v

/-- The value has a definition, or a term of the script refers to it or names it. -/
def Script.Mentions (s : Script) (v : ValueId) : Prop :=
  v ∈ s.definitions.map (·.1) ∨
    ∃ t ∈ s.definitions.map (·.2) ++ s.assertions, .ref v ∈ t.leaves ∨ .name v ∈ t.leaves

/-! ### Steps of writing -/

/-- The values whose definitions are written. -/
def Progress.written (s : Progress) : List ValueId := s.definitions.map (·.1)

/-- The value has a definition, or a definition names it. -/
def Progress.Shows (s : Progress) (v : ValueId) : Prop :=
  v ∈ s.written ∨ ∃ d ∈ s.definitions, .name v ∈ d.2.leaves

/-- The value may be visited while the given values are pending: the last of them depends on it, or
none is pending and it is a root. -/
def Due (cs : List (ValueId × Term)) (R : ValueId → Prop) : List ValueId → ValueId → Prop
  | [], v => R v
  | u :: _, v => Depends cs u v

/-- What is left of a term while the given values are pending. -/
def Term.besides (t : Term) (pending : List ValueId) : Term := t.trim fun w => !pending.contains w

/-- One step of writing: a value is declared, or its definition is begun, or written. -/
inductive Advance (p : Program) (cs : List (ValueId × Term)) (R : ValueId → Prop) :
    Progress → Progress → Prop
  | declare (s : Progress) (v : ValueId) : Advance p cs R s (s.declare p v)
  | start {s : Progress} {v : ValueId} (hNew : ¬ s.isBegun v = true) (hDue : Due cs R s.pending v) :
      Advance p cs R s (Progress.declare p v { s with pending := v :: s.pending })
  | finish {s : Progress} {v : ValueId} {L : List ValueId} (hPending : s.pending = v :: L)
      (hRefs : ∀ w, .ref w ∈ ((constraintOf cs v).besides s.pending).leaves → w ∈ s.written)
      (hNames : ∀ u, .name u ∈ ((constraintOf cs v).besides s.pending).leaves →
        (p.value u).const = none → u ∈ s.declared) :
      Advance p cs R s
        { s with pending := L,
                 definitions := s.definitions ++ [(v, (constraintOf cs v).besides s.pending)] }

section Steps

variable {p : Program} {cs : List (ValueId × Term)} {R : ValueId → Prop} {s s' s'' : Progress}
  {u v w : ValueId}

theorem definitions_declare (p : Program) (v : ValueId) (s : Progress) :
    (s.declare p v).definitions = s.definitions := by
  unfold Progress.declare
  split <;> rfl

theorem mem_declared_declare :
    u ∈ (s.declare p v).declared ↔ u ∈ s.declared ∨ u = v ∧ (p.value v).const = none := by
  unfold Progress.declare
  split
  case isTrue h =>
    rw [Bool.or_eq_true, List.contains_iff_mem] at h
    refine ⟨.inl, ?_⟩
    rintro (hu | ⟨rfl, hNone⟩)
    · exact hu
    · rw [hNone] at h
      exact h.resolve_left nofun
  case isFalse h =>
    rw [Bool.or_eq_true, not_or, Bool.not_eq_true, Option.isSome_eq_false_iff,
      Option.isNone_iff_eq_none] at h
    rw [List.mem_append, List.mem_singleton, and_iff_left h.1]

theorem nodup_declare (h : s.declared.Nodup) : (s.declare p v).declared.Nodup := by
  unfold Progress.declare
  split
  · exact h
  case isFalse hNew =>
    rw [Bool.or_eq_true, not_or, List.contains_iff_mem] at hNew
    refine List.nodup_append.mpr ⟨h, by simp, fun u hu w hw hEq => hNew.2 ?_⟩
    rw [← List.mem_singleton.mp hw, ← hEq]
    exact hu

theorem isBegun_iff : s.isBegun v = true ↔ v ∈ s.pending ∨ v ∈ s.written := by
  unfold Progress.isBegun Progress.written
  simp

theorem Advance.mem_definitions (h : Advance p cs R s s') {d : ValueId × Term}
    (hd : d ∈ s.definitions) : d ∈ s'.definitions := by
  cases h with
  | declare v =>
    rw [definitions_declare]
    exact hd
  | start _ _ =>
    rw [definitions_declare]
    exact hd
  | finish _ _ _ => exact List.mem_append_left _ hd

theorem Advance.mem_declared (h : Advance p cs R s s') (hu : u ∈ s.declared) : u ∈ s'.declared := by
  cases h with
  | declare v => exact mem_declared_declare.mpr (.inl hu)
  | start _ _ => exact mem_declared_declare.mpr (.inl hu)
  | finish _ _ _ => exact hu

theorem advances_mem_definitions (h : ReflTransGen (Advance p cs R) s s') {d : ValueId × Term}
    (hd : d ∈ s.definitions) : d ∈ s'.definitions := by
  induction h with
  | refl => exact hd
  | tail _ hStep ih => exact hStep.mem_definitions ih

theorem advances_mem_declared (h : ReflTransGen (Advance p cs R) s s') (hu : u ∈ s.declared) :
    u ∈ s'.declared := by
  induction h with
  | refl => exact hu
  | tail _ hStep ih => exact hStep.mem_declared ih

theorem advances_mem_written (h : ReflTransGen (Advance p cs R) s s') (hu : u ∈ s.written) :
    u ∈ s'.written := by
  obtain ⟨d, hd, rfl⟩ := List.mem_map.mp hu
  exact List.mem_map.mpr ⟨d, advances_mem_definitions h hd, rfl⟩

theorem advances_shows (h : ReflTransGen (Advance p cs R) s s') (hu : s.Shows u) : s'.Shows u := by
  rcases hu with hu | ⟨d, hd, hName⟩
  · exact .inl (advances_mem_written h hu)
  · exact .inr ⟨d, advances_mem_definitions h hd, hName⟩

/-! ### What is written -/

/-- The definitions are in order, and they and the pending ones are of values that are reached. Each
pending value depends on the later ones, and those on which a defined value depends are begun. -/
structure Orderly (cs : List (ValueId × Term)) (R : ValueId → Prop) (s : Progress) : Prop where
  once : s.written.Nodup
  body {before after : List (ValueId × Term)} {u : ValueId} {t : Term} :
    s.definitions = before ++ (u, t) :: after →
      t = (constraintOf cs u).trim fun w => (before.map (·.1)).contains w
  cyclic {before after : List (ValueId × Term)} {u w : ValueId} {t : Term} :
    s.definitions = before ++ (u, t) :: after → Depends cs u w →
      w ∈ before.map (·.1) ∨ ReflTransGen (Depends cs) w u
  distinct : s.pending.Nodup
  fresh {u : ValueId} : u ∈ s.pending → u ∉ s.written
  chain : s.pending.Pairwise fun newer older => ReflTransGen (Depends cs) older newer
  reached {u : ValueId} : u ∈ s.pending ∨ u ∈ s.written → ∃ r, R r ∧ ReflTransGen (Depends cs) r u
  closed {u w : ValueId} : u ∈ s.written → Depends cs u w → w ∈ s.pending ∨ w ∈ s.written

theorem Orderly.of_eq (h : Orderly cs R s) (hPending : s'.pending = s.pending)
    (hDefinitions : s'.definitions = s.definitions) : Orderly cs R s' := by
  obtain ⟨pending, declared, definitions⟩ := s
  obtain ⟨pending', declared', definitions'⟩ := s'
  cases hPending
  cases hDefinitions
  exact ⟨h.once, h.body, h.cyclic, h.distinct, h.fresh, h.chain, h.reached, h.closed⟩

/-- The pending values depend on the last of them. -/
theorem Orderly.leads {L : List ValueId} (h : Orderly cs R s) (hPending : s.pending = v :: L)
    (hu : u ∈ s.pending) : ReflTransGen (Depends cs) u v := by
  have hChain := h.chain
  rw [hPending] at hu hChain
  rcases List.mem_cons.mp hu with rfl | hu
  · exact .refl
  · exact (List.pairwise_cons.mp hChain).1 u hu

theorem Orderly.start (h : Orderly cs R s) (hNew : ¬ s.isBegun v = true)
    (hDue : Due cs R s.pending v) : Orderly cs R { s with pending := v :: s.pending } := by
  rw [isBegun_iff, not_or] at hNew
  -- the last pending value depends on the new one, and so do all before it
  have hLinked : ∀ u ∈ s.pending, ReflTransGen (Depends cs) u v := by
    intro u hu
    cases hPending : s.pending with
    | nil =>
      rw [hPending] at hu
      cases hu
    | cons last L =>
      rw [hPending] at hDue
      exact (h.leads hPending hu).tail hDue
  have hReached : ∃ r, R r ∧ ReflTransGen (Depends cs) r v := by
    cases hPending : s.pending with
    | nil =>
      rw [hPending] at hDue
      exact ⟨v, hDue, .refl⟩
    | cons last L =>
      have hMem : last ∈ s.pending := hPending ▸ List.mem_cons_self
      obtain ⟨r, hr, hPath⟩ := h.reached (.inl hMem)
      exact ⟨r, hr, hPath.trans (hLinked last hMem)⟩
  refine ⟨h.once, h.body, h.cyclic, List.nodup_cons.mpr ⟨hNew.1, h.distinct⟩, fun {u} hu => ?_,
    List.pairwise_cons.mpr ⟨hLinked, h.chain⟩, fun {u} hu => ?_, fun hu hw => ?_⟩
  · rcases List.mem_cons.mp hu with rfl | hu
    · exact hNew.2
    · exact h.fresh hu
  · rcases hu with hu | hu
    · rcases List.mem_cons.mp hu with rfl | hu
      · exact hReached
      · exact h.reached (.inl hu)
    · exact h.reached (.inr hu)
  · exact (h.closed hu hw).imp_left (List.mem_cons_of_mem v)

/-- A list that ends with one more element splits at that element, or as it did without it. -/
theorem split_concat {α : Type} {xs before after : List α} {x y : α}
    (h : xs ++ [x] = before ++ y :: after) :
    (before = xs ∧ y = x) ∨ ∃ after', xs = before ++ y :: after' := by
  rcases List.eq_nil_or_concat after with rfl | ⟨after', last, rfl⟩
  · obtain ⟨rfl, hEq⟩ := List.append_inj' h rfl
    cases hEq
    exact .inl ⟨rfl, rfl⟩
  · rw [List.concat_eq_append, ← List.cons_append, ← List.append_assoc] at h
    exact .inr ⟨after', (List.append_inj' h rfl).1⟩

theorem mem_written_concat {L : List ValueId} {t : Term} :
    u ∈ Progress.written { s with pending := L, definitions := s.definitions ++ [(v, t)] } ↔
      u ∈ s.written ∨ u = v := by
  unfold Progress.written
  rw [List.map_append, List.mem_append]
  exact or_congr_right List.mem_singleton

theorem ref_mem_besides {t : Term} {L : List ValueId} :
    .ref w ∈ (t.besides L).leaves ↔ .ref w ∈ t.leaves ∧ w ∉ L := by
  unfold Term.besides
  rw [Term.ref_mem_trim, Bool.not_eq_true', ← Bool.not_eq_true, List.contains_iff_mem]

theorem begun_of_refs {t : Term}
    (hRefs : ∀ w, .ref w ∈ (t.besides s.pending).leaves → w ∈ s.written) (hw : .ref w ∈ t.leaves) :
    w ∈ s.pending ∨ w ∈ s.written := by
  by_cases hMem : w ∈ s.pending
  · exact .inl hMem
  · exact .inr (hRefs w (ref_mem_besides.mpr ⟨hw, hMem⟩))

/-- What is pending is not written, so that the references left are those that are written. -/
theorem Orderly.besides_eq {t : Term} (h : Orderly cs R s)
    (hRefs : ∀ w, .ref w ∈ (t.besides s.pending).leaves → w ∈ s.written) :
    t.besides s.pending = t.trim fun w => s.written.contains w := by
  refine Term.trim_congr t fun w hw => ?_
  rw [Bool.eq_iff_iff, Bool.not_eq_true', ← Bool.not_eq_true, List.contains_iff_mem,
    List.contains_iff_mem]
  exact ⟨(begun_of_refs hRefs hw).resolve_left, fun hWritten hMem => h.fresh hMem hWritten⟩

theorem Orderly.finish {L : List ValueId} (h : Orderly cs R s) (hPending : s.pending = v :: L)
    (hRefs : ∀ w, .ref w ∈ ((constraintOf cs v).besides s.pending).leaves → w ∈ s.written) :
    Orderly cs R
      { s with pending := L,
               definitions := s.definitions ++ [(v, (constraintOf cs v).besides s.pending)] } := by
  have hDistinct := h.distinct
  have hChain := h.chain
  rw [hPending] at hDistinct hChain
  have hHead : v ∈ s.pending := hPending ▸ List.mem_cons_self
  have hTail {u : ValueId} (hu : u ∈ L) : u ∈ s.pending := hPending ▸ List.mem_cons_of_mem v hu
  have hMoved {w : ValueId} (hw : w ∈ s.pending ∨ w ∈ s.written) :
      w ∈ L ∨ w ∈ s.written ∨ w = v := by
    rw [hPending, List.mem_cons] at hw
    tauto
  refine ⟨?_, fun hSplit => ?_, fun hSplit hw => ?_, (List.nodup_cons.mp hDistinct).2,
    fun {u} hu => ?_, (List.pairwise_cons.mp hChain).2, fun {u} hu => ?_, fun {u w} hu hw => ?_⟩
  · unfold Progress.written
    rw [List.map_append]
    refine List.nodup_append.mpr ⟨h.once, by simp, ?_⟩
    rintro u hu w hw rfl
    have hEq : u = v := List.mem_singleton.mp hw
    exact h.fresh hHead (hEq ▸ hu)
  · rcases split_concat hSplit with ⟨rfl, hEq⟩ | ⟨after', hSplit⟩
    · cases hEq
      exact h.besides_eq hRefs
    · exact h.body hSplit
  · rcases split_concat hSplit with ⟨rfl, hEq⟩ | ⟨after', hSplit⟩
    · cases hEq
      exact (begun_of_refs hRefs hw).symm.imp_right (h.leads hPending)
    · exact h.cyclic hSplit hw
  · rw [mem_written_concat, not_or]
    refine ⟨h.fresh (hTail hu), ?_⟩
    rintro rfl
    exact (List.nodup_cons.mp hDistinct).1 hu
  · rw [mem_written_concat] at hu
    rcases hu with hu | hu | rfl
    · exact h.reached (.inl (hTail hu))
    · exact h.reached (.inr hu)
    · exact h.reached (.inl hHead)
  · rw [mem_written_concat] at hu ⊢
    rcases hu with hu | rfl
    · exact hMoved (h.closed hu hw)
    · exact hMoved (begun_of_refs hRefs hw)

theorem Orderly.earlier {before after : List (ValueId × Term)} {t : Term} (h : Orderly cs R s)
    (hSplit : s.definitions = before ++ (u, t) :: after) (hw : .ref w ∈ t.leaves) :
    w ∈ before.map (·.1) := by
  rw [h.body hSplit, Term.ref_mem_trim] at hw
  exact List.contains_iff_mem.mp hw.2

theorem Orderly.ref_written {d : ValueId × Term} (h : Orderly cs R s) (hd : d ∈ s.definitions)
    (hw : .ref w ∈ d.2.leaves) : w ∈ s.written := by
  obtain ⟨before, after, hSplit⟩ := List.append_of_mem hd
  obtain ⟨d', hd', rfl⟩ := List.mem_map.mp (h.earlier hSplit hw)
  have hMem : d' ∈ s.definitions := hSplit ▸ List.mem_append_left _ hd'
  exact List.mem_map_of_mem hMem

theorem Advance.orderly (h : Advance p cs R s s') (hs : Orderly cs R s) : Orderly cs R s' := by
  cases h with
  | declare v => exact hs.of_eq (pending_declare p v s) (definitions_declare p v s)
  | start hNew hDue =>
    exact (hs.start hNew hDue).of_eq (pending_declare p _ _) (definitions_declare p _ _)
  | finish hPending hRefs _ => exact hs.finish hPending hRefs

theorem orderly_start (cs : List (ValueId × Term)) (R : ValueId → Prop) :
    Orderly cs R ⟨[], [], []⟩ := by
  refine ⟨.nil, fun hSplit => ?_, fun hSplit => ?_, .nil, nofun, .nil, nofun, nofun⟩
  · simp at hSplit
  · simp at hSplit

/-- The declared values are no constants, and those that occur in what is begun are declared. -/
structure Declares (p : Program) (s : Progress) : Prop where
  nodup : s.declared.Nodup
  const {u : ValueId} : u ∈ s.declared → (p.value u).const = none
  begun {u : ValueId} : u ∈ s.pending ∨ u ∈ s.written → (p.value u).const = none → u ∈ s.declared
  named {d : ValueId × Term} {u : ValueId} : d ∈ s.definitions → .name u ∈ d.2.leaves →
    (p.value u).const = none → u ∈ s.declared

/-- The value that is declared may be a new pending one. -/
theorem Declares.declare (h : Declares p s) {L : List ValueId}
    (hL : ∀ u ∈ L, u ∈ s.pending ∨ u = v) :
    Declares p (Progress.declare p v { s with pending := L }) := by
  refine ⟨nodup_declare h.nodup, fun {u} hu => ?_, fun {u} hu hNone => ?_,
    fun {d u} hd hu hNone => ?_⟩
  · rcases mem_declared_declare.mp hu with hu | ⟨rfl, hNone⟩
    · exact h.const hu
    · exact hNone
  · rw [pending_declare, Progress.written, definitions_declare] at hu
    rw [mem_declared_declare]
    rcases hu with hu | hu
    · rcases hL u hu with hu | rfl
      · exact .inl (h.begun (.inl hu) hNone)
      · exact .inr ⟨rfl, hNone⟩
    · exact .inl (h.begun (.inr hu) hNone)
  · rw [definitions_declare] at hd
    exact mem_declared_declare.mpr (.inl (h.named hd hu hNone))

theorem declares_start (p : Program) : Declares p ⟨[], [], []⟩ := ⟨.nil, nofun, nofun, nofun⟩

theorem Advance.declares (h : Advance p cs R s s') (hs : Declares p s) : Declares p s' := by
  cases h with
  | declare v => exact hs.declare fun u => .inl
  | start _ _ => exact hs.declare fun u hu => (List.mem_cons.mp hu).symm
  | @finish v L hPending _ hNames =>
    refine ⟨hs.nodup, hs.const, fun {u} hu hNone => ?_, fun {d u} hd hu hNone => ?_⟩
    · refine hs.begun ?_ hNone
      rw [mem_written_concat] at hu
      rw [hPending, List.mem_cons]
      tauto
    · rcases List.mem_append.mp hd with hd | hd
      · exact hs.named hd hu hNone
      · cases List.mem_singleton.mp hd
        exact hNames u hu hNone

theorem advances_orderly (h : ReflTransGen (Advance p cs R) s s') (hs : Orderly cs R s) :
    Orderly cs R s' := by
  induction h with
  | refl => exact hs
  | tail _ hStep ih => exact hStep.orderly ih

theorem advances_declares (h : ReflTransGen (Advance p cs R) s s') (hs : Declares p s) :
    Declares p s' := by
  induction h with
  | refl => exact hs
  | tail _ hStep ih => exact hStep.declares ih

/-! ### Visits -/

/-- Writing goes on by steps and leaves the same values pending. The references among the leaves are
defined then and their names declared, and nothing else gets declared but what definitions show. -/
structure Emits (p : Program) (cs : List (ValueId × Term)) (R : ValueId → Prop) (s : Progress)
    (leaves : List Term) (s' : Progress) : Prop where
  advances : ReflTransGen (Advance p cs R) s s'
  pending : s'.pending = s.pending
  refs {w : ValueId} : .ref w ∈ leaves → w ∈ s'.written
  names {u : ValueId} : .name u ∈ leaves → (p.value u).const = none → u ∈ s'.declared
  declared {u : ValueId} : u ∈ s'.declared → u ∈ s.declared ∨ .name u ∈ leaves ∨ s'.Shows u

theorem Emits.refl {leaves : List Term} (hRefs : ∀ w, .ref w ∉ leaves)
    (hNames : ∀ u, .name u ∉ leaves) : Emits p cs R s leaves s :=
  ⟨.refl, rfl, fun hw => absurd hw (hRefs _), fun hu => absurd hu (hNames _), .inl⟩

theorem emits_leaf {l : Term} (hRef : ∀ w, l ≠ .ref w) (hName : ∀ u, l ≠ .name u) :
    Emits p cs R s [l] s :=
  Emits.refl (fun w hw => hRef w (List.mem_singleton.mp hw).symm)
    fun u hu => hName u (List.mem_singleton.mp hu).symm

theorem Emits.trans {leaves leaves' : List Term} (h : Emits p cs R s leaves s')
    (h' : Emits p cs R s' leaves' s'') : Emits p cs R s (leaves ++ leaves') s'' := by
  refine ⟨h.advances.trans h'.advances, h'.pending.trans h.pending, fun {w} hw => ?_,
    fun {u} hu hNone => ?_, fun {u} hu => ?_⟩
  · rcases List.mem_append.mp hw with hw | hw
    · exact advances_mem_written h'.advances (h.refs hw)
    · exact h'.refs hw
  · rcases List.mem_append.mp hu with hu | hu
    · exact advances_mem_declared h'.advances (h.names hu hNone)
    · exact h'.names hu hNone
  · rcases h'.declared hu with hu | hu | hu
    · rcases h.declared hu with hu | hu | hu
      · exact .inl hu
      · exact .inr (.inl (List.mem_append_left _ hu))
      · exact .inr (.inr (advances_shows h'.advances hu))
    · exact .inr (.inl (List.mem_append_right _ hu))
    · exact .inr (.inr hu)

theorem emits_declare (s : Progress) (v : ValueId) :
    Emits p cs R s [.name v] (s.declare p v) := by
  refine ⟨.single (.declare s v), pending_declare p v s, fun hw => ?_, fun {u} hu hNone => ?_,
    fun {u} hu => ?_⟩
  · cases List.mem_singleton.mp hw
  · cases List.mem_singleton.mp hu
    exact mem_declared_declare.mpr (.inr ⟨rfl, hNone⟩)
  · rcases mem_declared_declare.mp hu with hu | ⟨rfl, -⟩
    · exact .inl hu
    · exact .inr (.inl List.mem_cons_self)

variable {L : List ValueId} {vis : ValueId → StateM Progress Unit}

mutual

/-- To cut a term is to emit what is left of it. -/
theorem cut_emits (hVisit : ∀ s v, s.pending = L → v ∉ L → Due cs R L v → v < p.values.size →
      Emits p cs R s [.ref v] ((vis v).run s).2) :
    ∀ (t : Term) (s : Progress), s.pending = L →
      (∀ w, .ref w ∈ t.leaves → Due cs R L w ∧ w < p.values.size) →
      ((cut p vis t).run s).1 = t.besides L ∧
        Emits p cs R s (t.besides L).leaves ((cut p vis t).run s).2
  | .ref v, s, hs, ht => by
    have hRun : (cut p vis (.ref v)).run s =
        if s.pending.contains v then (.truth, s) else (.ref v, ((vis v).run s).2) := by
      rw [cut]
      change StateT.run (if s.pending.contains v = true then pure Term.truth else _) s = _
      split <;> rfl
    rw [hRun, hs, Term.besides, Term.trim]
    obtain ⟨hDue, hlt⟩ := ht v (List.mem_singleton.mpr rfl)
    by_cases hMem : v ∈ L
    · rw [if_pos (List.contains_iff_mem.mpr hMem), if_neg (by simp [hMem])]
      exact ⟨rfl, emits_leaf nofun nofun⟩
    · rw [if_neg (by simp [hMem]), if_pos (by simp [hMem])]
      exact ⟨rfl, hVisit s v hs hMem hDue hlt⟩
  | .name v, s, _, _ => by
    rw [cut]
    exact ⟨rfl, emits_declare s v⟩
  | .conj ts, s, hs, ht => by
    rw [cut]
    obtain ⟨hTerms, hEmits⟩ := cutAll_emits hVisit ts s hs ht
    exact ⟨congrArg Term.conj hTerms, hEmits⟩
  | .disj ts, s, hs, ht => by
    rw [cut]
    obtain ⟨hTerms, hEmits⟩ := cutAll_emits hVisit ts s hs ht
    exact ⟨congrArg Term.disj hTerms, hEmits⟩
  | .apply op x y, s, hs, ht => by
    rw [Term.leaves] at ht
    rw [cut]
    obtain ⟨hx, hEmitsX⟩ := cut_emits hVisit x s hs fun w hw => ht w (List.mem_append_left _ hw)
    obtain ⟨hy, hEmitsY⟩ := cut_emits hVisit y ((cut p vis x).run s).2 (hEmitsX.pending.trans hs)
      fun w hw => ht w (List.mem_append_right _ hw)
    exact ⟨congrArg₂ (Term.apply op) hx hy, hEmitsX.trans hEmitsY⟩
  | .literal n, s, _, _ => by
    rw [cut]
    exact ⟨rfl, emits_leaf nofun nofun⟩
  | .truth, s, _, _ => by
    rw [cut]
    exact ⟨rfl, emits_leaf nofun nofun⟩

theorem cutAll_emits (hVisit : ∀ s v, s.pending = L → v ∉ L → Due cs R L v → v < p.values.size →
      Emits p cs R s [.ref v] ((vis v).run s).2) :
    ∀ (ts : List Term) (s : Progress), s.pending = L →
      (∀ w, .ref w ∈ Term.leavesOf ts → Due cs R L w ∧ w < p.values.size) →
      ((cutAll p vis ts).run s).1 = Term.trimAll (fun w => !L.contains w) ts ∧
        Emits p cs R s (Term.leavesOf (Term.trimAll (fun w => !L.contains w) ts))
          ((cutAll p vis ts).run s).2
  | [], s, _, _ => by
    rw [cutAll]
    exact ⟨rfl, Emits.refl (fun _ => List.not_mem_nil) fun _ => List.not_mem_nil⟩
  | t :: ts, s, hs, ht => by
    rw [Term.leavesOf] at ht
    rw [cutAll]
    obtain ⟨hTerm, hHead⟩ := cut_emits hVisit t s hs fun w hw => ht w (List.mem_append_left _ hw)
    obtain ⟨hTerms, hTail⟩ := cutAll_emits hVisit ts ((cut p vis t).run s).2
      (hHead.pending.trans hs) fun w hw => ht w (List.mem_append_right _ hw)
    exact ⟨congrArg₂ List.cons hTerm hTerms, hHead.trans hTail⟩

end

/-- A value whose constraint is cut while it is pending gets its definition. -/
theorem Emits.define (hNew : ¬ s.isBegun v = true) (hDue : Due cs R s.pending v)
    (h : Emits p cs R (Progress.declare p v { s with pending := v :: s.pending })
      ((constraintOf cs v).besides (v :: s.pending)).leaves s') :
    Emits p cs R s [.ref v]
      { s' with pending := s'.pending.erase v,
                definitions :=
                  s'.definitions ++ [(v, (constraintOf cs v).besides (v :: s.pending))] } := by
  have hPending : s'.pending = v :: s.pending := h.pending.trans (pending_declare p v _)
  have hAdvances := ReflTransGen.head (.start hNew hDue) h.advances
  rw [hPending, List.erase_cons_head, ← hPending]
  rw [← hPending] at h
  have hFinish := Advance.finish (R := R) hPending (fun w => h.refs) fun u => h.names
  refine ⟨hAdvances.tail hFinish, rfl, fun {w} hw => ?_, fun {u} hu => ?_, fun {u} hu => ?_⟩
  · cases List.mem_singleton.mp hw
    exact mem_written_concat.mpr (.inr rfl)
  · cases List.mem_singleton.mp hu
  · rcases h.declared hu with hu | hu | hu | ⟨d, hd, hu⟩
    · rcases mem_declared_declare.mp hu with hu | ⟨rfl, -⟩
      · exact .inl hu
      · exact .inr (.inr (.inl (mem_written_concat.mpr (.inr rfl))))
    · exact .inr (.inr (.inr ⟨_, List.mem_append_right _ List.mem_cons_self, hu⟩))
    · exact .inr (.inr (.inl (mem_written_concat.mpr (.inl hu))))
    · exact .inr (.inr (.inr ⟨d, List.mem_append_left _ hd, hu⟩))

/-- A visit emits a reference to its value, if the depth covers the values that are not pending. -/
theorem visit_emits (hcs : ∀ c ∈ cs, c.2.Within p) {depth : Nat} (hL : L.Nodup)
    (hLt : ∀ u ∈ L, u < p.values.size) (hDepth : p.values.size ≤ depth + L.length)
    (hs : s.pending = L) (hv : v ∉ L) (hDue : Due cs R L v) (hlt : v < p.values.size) :
    Emits p cs R s [.ref v] ((visit p cs depth v).run s).2 := by
  induction depth generalizing L s v with
  | zero => exact absurd (mem_of_full hL hLt (by omega) hlt) hv
  | succ depth ih =>
    by_cases hBegun : s.isBegun v = true
    · rw [visit_of_begun hBegun]
      have hWritten := (isBegun_iff.mp hBegun).resolve_left (hs ▸ hv)
      refine ⟨.refl, rfl, fun hw => ?_, fun hu => ?_, .inl⟩
      · cases List.mem_singleton.mp hw
        exact hWritten
      · cases List.mem_singleton.mp hu
    · have hTerm : ∀ w, .ref w ∈ (constraintOf cs v).leaves → w < p.values.size := by
        unfold constraintOf
        cases hLookup : cs.lookup v with
        | none => simp [Term.leaves]
        | some t =>
          obtain ⟨before, after, rfl, -⟩ := List.lookup_eq_some_iff.mp hLookup
          exact (Term.all_iff t).mp
            (hcs (v, t) (List.mem_append_right before List.mem_cons_self))
      have hStart :
          (Progress.declare p v { s with pending := v :: s.pending }).pending = v :: L := by
        rw [pending_declare, hs]
      have hDistinct : (v :: L).Nodup := List.nodup_cons.mpr ⟨hv, hL⟩
      have hBounds : ∀ u ∈ v :: L, u < p.values.size := List.forall_mem_cons.mpr ⟨hlt, hLt⟩
      have hLength : p.values.size ≤ depth + (v :: L).length := by
        rw [List.length_cons]
        omega
      have hInner (s' : Progress) (u : ValueId) (hs' : s'.pending = v :: L) (hu : u ∉ v :: L)
          (hDue' : Due cs R (v :: L) u) (hlt' : u < p.values.size) :
          Emits p cs R s' [.ref u] ((visit p cs depth u).run s').2 :=
        ih hDistinct hBounds hLength hs' hu hDue' hlt'
      obtain ⟨hBody, hEmits⟩ := cut_emits hInner (constraintOf cs v) _ hStart
        fun w hw => ⟨hw, hTerm w hw⟩
      rw [visit_of_not_begun hBegun]
      unfold constraintOf at hBody
      dsimp only
      rw [hBody]
      rw [← hs] at hEmits hDue ⊢
      exact hEmits.define hBegun hDue

end Steps

/-! ### Scripts -/

section Scripts

variable {p : Program} {f : FuncId} {target : ValueId} {assertions : List Term}
  {cs : List (ValueId × Term)} {s : Script}

/-- How the script of a target comes about: its assertions are those that are given, and the rest is
what writing has made in the end. -/
theorem script_emits (hcs : constraints p (p.value target).owner = .ok cs)
    (hWithin : ∀ c ∈ cs, c.2.Within p) (hTarget : target < p.values.size)
    (hAssertions : ∀ t ∈ assertions, t.Within p) :
    ∃ e, script p target assertions =
        .ok ⟨e.declared, e.definitions, .ref target :: assertions⟩ ∧
      Emits p cs (Root target assertions) ⟨[], [], []⟩
        (.ref target :: Term.leavesOf assertions) e := by
  have hVisit (s : Progress) (v : ValueId) (hs : s.pending = []) (hv : v ∉ [])
      (hDue : Due cs (Root target assertions) [] v) (hlt : v < p.values.size) :
      Emits p cs (Root target assertions) s [.ref v] ((visit p cs p.values.size v).run s).2 :=
    visit_emits hWithin List.nodup_nil nofun (Nat.le_refl _) hs hv hDue hlt
  have hFirst := hVisit ⟨[], [], []⟩ target rfl List.not_mem_nil (.inl rfl) hTarget
  have hRefs : ∀ w, .ref w ∈ Term.leavesOf assertions →
      Due cs (Root target assertions) [] w ∧ w < p.values.size := by
    intro w hw
    obtain ⟨t, ht, hLeaf⟩ := Term.mem_leavesOf.mp hw
    exact ⟨.inr hw, (Term.all_iff t).mp (hAssertions t ht) w hLeaf⟩
  obtain ⟨hTerms, hRest⟩ := cutAll_emits hVisit assertions
    ((visit p cs p.values.size target).run ⟨[], [], []⟩).2 hFirst.pending hRefs
  rw [Term.trimAll_of_keep (by simp)] at hTerms hRest
  refine ⟨((cutAll p (visit p cs p.values.size) assertions).run
    ((visit p cs p.values.size target).run ⟨[], [], []⟩).2).2, ?_, hFirst.trans hRest⟩
  unfold script scriptTo
  rw [hcs]
  exact congrArg (fun ts => Except.ok (Script.mk _ _ (.ref target :: ts))) hTerms

/-- The script defines what its target and assertions reach, in order, and declares what it
mentions. -/
structure Script.Closed (p : Program) (cs : List (ValueId × Term)) (target : ValueId)
    (assertions : List Term) (s : Script) : Prop where
  asserted : s.assertions = .ref target :: assertions
  reached (u : ValueId) : u ∈ s.definitions.map (·.1) ↔ Reached cs target assertions u
  once : (s.definitions.map (·.1)).Nodup
  body {before after : List (ValueId × Term)} {u : ValueId} {t : Term} :
    s.definitions = before ++ (u, t) :: after →
      t = (constraintOf cs u).trim fun w => (before.map (·.1)).contains w
  cyclic {before after : List (ValueId × Term)} {u w : ValueId} {t : Term} :
    s.definitions = before ++ (u, t) :: after → Depends cs u w →
      w ∈ before.map (·.1) ∨ ReflTransGen (Depends cs) w u
  earlier {before after : List (ValueId × Term)} {u w : ValueId} {t : Term} :
    s.definitions = before ++ (u, t) :: after → .ref w ∈ t.leaves → w ∈ before.map (·.1)
  defined {t : Term} {w : ValueId} :
    t ∈ s.assertions → .ref w ∈ t.leaves → w ∈ s.definitions.map (·.1)
  declaredOnce : s.declared.Nodup
  declared (u : ValueId) : u ∈ s.declared ↔ (p.value u).const = none ∧ s.Mentions u

/-- What writing has made in the end is closed, for nothing is pending then. -/
theorem Emits.closed {e : Progress}
    (h : Emits p cs (Root target assertions) ⟨[], [], []⟩
      (.ref target :: Term.leavesOf assertions) e) :
    Script.Closed p cs target assertions
      ⟨e.declared, e.definitions, .ref target :: assertions⟩ := by
  have hOrderly := advances_orderly h.advances (orderly_start cs _)
  have hDeclares := advances_declares h.advances (declares_start p)
  have hIdle {u : ValueId} (hu : u ∈ e.pending ∨ u ∈ e.written) : u ∈ e.written := by
    rw [h.pending] at hu
    exact hu.resolve_left List.not_mem_nil
  have hRoot {r : ValueId} (hr : Root target assertions r) : r ∈ e.written := by
    rcases hr with rfl | hr
    · exact h.refs List.mem_cons_self
    · exact h.refs (List.mem_cons_of_mem _ hr)
  have hAsserted {t l : Term} (ht : t ∈ Term.ref target :: assertions) (hl : l ∈ t.leaves) :
      l ∈ Term.ref target :: Term.leavesOf assertions := by
    rcases List.mem_cons.mp ht with rfl | ht
    · exact List.mem_singleton.mp hl ▸ List.mem_cons_self
    · exact List.mem_cons_of_mem _ (Term.mem_leavesOf.mpr ⟨t, ht, hl⟩)
  refine ⟨rfl, fun u => ⟨fun hu => hOrderly.reached (.inr hu), ?_⟩, hOrderly.once, hOrderly.body,
    hOrderly.cyclic, hOrderly.earlier, fun ht hw => h.refs (hAsserted ht hw), hDeclares.nodup,
    fun u => ⟨fun hu => ⟨hDeclares.const hu, ?_⟩, ?_⟩⟩
  · rintro ⟨r, hr, hPath⟩
    induction hPath with
    | refl => exact hRoot hr
    | tail _ hStep ih => exact hIdle (hOrderly.closed ih hStep)
  · rcases h.declared hu with hu | hu | hu | ⟨d, hd, hu⟩
    · cases hu
    · obtain ⟨t, ht, hu⟩ := Term.mem_leavesOf.mp ((List.mem_cons.mp hu).resolve_left nofun)
      exact .inr ⟨t, List.mem_append_right _ (List.mem_cons_of_mem _ ht), .inr hu⟩
    · exact .inl hu
    · exact .inr ⟨d.2, List.mem_append_left _ (List.mem_map_of_mem hd), .inr hu⟩
  · rintro ⟨hNone, hu | ⟨t, ht, hu⟩⟩
    · exact hDeclares.begun (.inr hu) hNone
    rcases List.mem_append.mp ht with ht | ht
    · obtain ⟨d, hd, rfl⟩ := List.mem_map.mp ht
      rcases hu with hu | hu
      · exact hDeclares.begun (.inr (hOrderly.ref_written hd hu)) hNone
      · exact hDeclares.named hd hu hNone
    · rcases hu with hu | hu
      · exact hDeclares.begun (.inr (h.refs (hAsserted ht hu))) hNone
      · exact h.names (hAsserted ht hu) hNone

/-- A script of a value of a function that passes the check is written exactly if the conditions can
be stated that its sigmas need. It is closed then, defines the target, and is the same for all depths
that are not less than the number of values. -/
theorem script_closed (hp : p.Grounded) (hf : p.check f = none) (hTarget : p.Holds f target)
    (hAssertions : ∀ t ∈ assertions, t.Within p) :
    ((∃ s, script p target assertions = .ok s) ↔ Stated p f) ∧
      ∀ s, script p target assertions = .ok s →
        (∀ depth, p.values.size ≤ depth → scriptTo p depth target assertions = .ok s) ∧
        (∃ t, (target, t) ∈ s.definitions) ∧
        ∃ cs, constraints p f = .ok cs ∧ s.Closed p cs target assertions := by
  obtain ⟨hlt, rfl⟩ := hTarget
  have hStated (h : Stated p (p.value target).owner) : ∃ cs s,
      constraints p (p.value target).owner = .ok cs ∧ script p target assertions = .ok s ∧
      (∀ depth, p.values.size ≤ depth → scriptTo p depth target assertions = .ok s) ∧
      s.Closed p cs target assertions := by
    obtain ⟨cs, hcs, hWithin⟩ := constraints_gives_of_stated hp (problems_of_check hf) h
    obtain ⟨e, hScript, hEmits⟩ := script_emits hcs hWithin hlt hAssertions
    refine ⟨cs, _, hcs, hScript, fun depth hDepth => ?_, hEmits.closed⟩
    exact (scriptTo_eq hcs hWithin hlt hAssertions hDepth).trans hScript
  have hWritten {s : Script} (h : script p target assertions = .ok s) :
      Stated p (p.value target).owner := by
    obtain ⟨cs, hcs, -⟩ := exists_of_bind h
    exact stated_of_constraints hcs
  refine ⟨⟨fun ⟨s, h⟩ => hWritten h, fun h => ?_⟩, fun s h => ?_⟩
  · obtain ⟨_, s, _, hScript, _⟩ := hStated h
    exact ⟨s, hScript⟩
  · obtain ⟨cs, s', hcs, hScript, hDepths, hClosed⟩ := hStated (hWritten h)
    cases h.symm.trans hScript
    refine ⟨hDepths, ?_, cs, hcs, hClosed⟩
    obtain ⟨d, hd, hEq⟩ := List.mem_map.mp
      ((hClosed.reached target).mpr ⟨target, .inl rfl, .refl⟩)
    exact ⟨d.2, hEq ▸ hd⟩

/-- In the counting loop the values depend on each other in a cycle, which the script cuts where it
comes back to the target. -/
theorem counting_script_closed : counting.Grounded ∧ counting.check 0 = none ∧
    counting.Holds 0 3 ∧ Stated counting 0 ∧
    ∃ s cs, script counting 3 [.apply .less (.name 2) (.name 5), .ref 0] = .ok s ∧
      s.definitions.map (·.1) = [0, 4, 5, 3] ∧ s.declared = [3, 5, 4, 0] ∧
      constraints counting 0 = .ok cs ∧
      s.Closed counting cs 3 [.apply .less (.name 2) (.name 5), .ref 0] := by
  have hp : counting.Grounded := by decide +kernel
  have hf : counting.check 0 = none := by decide +kernel
  have hTarget : counting.Holds 0 3 := ⟨by decide +kernel, by decide +kernel⟩
  have hStated : Stated counting 0 := by
    unfold Stated
    decide +kernel
  have hAssertions : ∀ t ∈ [Term.apply .less (.name 2) (.name 5), .ref 0], t.Within counting := by
    refine List.forall_mem_cons.mpr ⟨⟨trivial, trivial⟩, List.forall_mem_singleton.mpr ?_⟩
    exact (by decide +kernel : 0 < counting.values.size)
  obtain ⟨hExists, hClosed⟩ := script_closed hp hf hTarget hAssertions
  obtain ⟨s, hs⟩ := hExists.mpr hStated
  obtain ⟨-, -, cs, hcs, hClosed⟩ := hClosed s hs
  have hParts : (script counting 3 [.apply .less (.name 2) (.name 5), .ref 0]).toOption.map
      (fun s => (s.definitions.map (·.1), s.declared)) = some ([0, 4, 5, 3], [3, 5, 4, 0]) := by
    decide +kernel
  rw [hs] at hParts
  obtain ⟨hDefinitions, hDeclared⟩ := Prod.mk.inj (Option.some.inj hParts)
  exact ⟨hp, hf, hTarget, hStated, s, cs, hs, hDefinitions, hDeclared, hcs, hClosed⟩

/-- A function of two numbers with a test by something that is no comparison, and a sigma in the
block that the test leads to otherwise. -/
def untold : Program :=
  let t : IntType := .signed 8
  let p := ((addFunction 0 "untold").run start).2
  let p := ((addParam 0 "x" t none).run p).2
  let p := ((addParam 0 "y" t none).run p).2
  let p := ((addBlock 0 "entry").run p).2
  let p := ((addBlock 0 "yes").run p).2
  let p := ((addBlock 0 "no").run p).2
  let p := p.terminate 0 (.test (.other 99) (some 0) (some 1) 1 2)
  let p := ((emit 2 .sigma "x.f" t [some 0] none none).run p).2
  let p := p.terminate 1 (.ret [])
  p.terminate 2 (.ret [some 2])

/-- The check passes it, but no value of it has a script. -/
theorem untold_unwritten : Constructed untold ∧ untold.Grounded ∧ untold.check 0 = none ∧
    untold.Holds 0 0 ∧ script untold 0 [] = .error (.unknownPredicate 99) := by
  let t : IntType := .signed 8
  have h : Constructed start := .refl
  have h := h.tail (.addFunction (m := 0) (by decide) "untold")
  have h := h.tail (.addParam (f := 0) (by decide) "x" t none)
  have h := h.tail (.addParam (f := 0) (by decide) "y" t none)
  have h := h.tail (.addBlock (f := 0) (by decide) "entry")
  have h := h.tail (.addBlock (f := 0) (by decide) "yes")
  have h := h.tail (.addBlock (f := 0) (by decide) "no")
  have h := h.tail (.terminate (b := 0) (t := .test (.other 99) (some 0) (some 1) 1 2)
    (by decide +kernel) (by decide +kernel) (by decide +kernel))
  have h := h.tail (.emit (b := 2) (by decide +kernel) .sigma "x.f" t [some 0] (by decide +kernel)
    none none)
  have h := h.tail (.terminate (b := 1) (t := .ret []) (by decide +kernel) nofun
    (by decide +kernel))
  have h := h.tail (.terminate (b := 2) (t := .ret [some 2]) (by decide +kernel) nofun
    (by decide +kernel))
  exact ⟨h, by decide +kernel, by decide +kernel, ⟨by decide +kernel, by decide +kernel⟩, rfl⟩

end Scripts

end ValueRange.Smt
