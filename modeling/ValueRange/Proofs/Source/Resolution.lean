import ValueRange.Proofs.Program.Extension
import ValueRange.Source.Lowering

/-! How lowering resolves operands. An operand stands for the sigma in the nearest dominator that
has one, else for the value that is recorded for it, which is made where there is none. Whatever is
made is added to the function at hand, and the rest of the program stays as it is. -/

namespace ValueRange.Source.Lowering

open Program (Regular Extends Writes Quiet)

/-! ### Steps and their results -/

/-- Started in `s`, the step gives a result and a state that satisfy `Q`. -/
def Ensures {α : Type} (s : Lowering) (x : LowerM α) (Q : α → Lowering → Prop) : Prop :=
  Q (x.run s).1 (x.run s).2

namespace Ensures

variable {α β : Type} {s : Lowering} {x : LowerM α} {Q R : α → Lowering → Prop}
  {T : β → Lowering → Prop}

theorem pure {a : α} (h : Q a s) : Ensures s (Pure.pure a) Q := h

theorem mono (h : Ensures s x Q) (hQ : ∀ a s', Q a s' → R a s') : Ensures s x R := hQ _ _ h

theorem bind {g : α → LowerM β} (hx : Ensures s x Q)
    (hg : ∀ a s', Q a s' → Ensures s' (g a) T) : Ensures s (x >>= g) T := hg _ _ hx

theorem get_bind {g : Lowering → LowerM β} (h : Ensures s (g s) T) : Ensures s (get >>= g) T := h

theorem blockOf_bind {g : BlockId → LowerM β} {b : Nat}
    (h : Ensures s (g (s.frame.blocks.getD b 0)) T) : Ensures s (blockOf b >>= g) T := h

theorem extend_bind {build : Builder α} {g : α → LowerM β}
    (h : Ensures { s with program := (build.run s.program).2 } (g (build.run s.program).1) T) :
    Ensures s (extend build >>= g) T := h

theorem edit_bind {change : Program → Program} {g : Unit → LowerM β}
    (h : Ensures { s with program := change s.program } (g ()) T) :
    Ensures s (edit change >>= g) T := h

theorem modify_bind {change : Lowering → Lowering} {g : PUnit → LowerM β}
    (h : Ensures (change s) (g ⟨⟩) T) : Ensures s (modify change >>= g) T := h

/-- A loop over a list keeps an invariant of what is done and of the results. -/
theorem mapM {xs : List β} {g : β → LowerM α} {I : List β → List α → Lowering → Prop}
    (hStart : I [] [] s)
    (hStep : ∀ done x rest ys s', xs = done ++ x :: rest → I done ys s' →
      Ensures s' (g x) fun y => I (done ++ [x]) (ys ++ [y])) :
    Ensures s (xs.mapM g) (I xs) := by
  have hRest (rest done : List β) (hxs : xs = done ++ rest) (ys : List α) (s' : Lowering)
      (h : I done ys s') : Ensures s' (rest.mapM g) fun ys' => I xs (ys ++ ys') := by
    induction rest generalizing done ys s' with
    | nil =>
      rw [List.append_nil] at hxs
      rw [List.mapM_nil]
      exact pure (by rw [List.append_nil, hxs]; exact h)
    | cons x rest ih =>
      rw [List.mapM_cons]
      refine (hStep done x rest ys s' hxs h).bind fun y s₁ h₁ => ?_
      refine (ih (done ++ [x]) (by rw [hxs, List.append_assoc]; rfl) (ys ++ [y]) s₁ h₁).bind
        fun ys' s₂ h₂ => pure ?_
      rw [List.append_assoc] at h₂
      exact h₂
  exact hRest xs [] rfl [] s hStart

theorem forIn {xs : List β} {g : β → PUnit → LowerM (ForInStep PUnit)}
    {I : List β → Lowering → Prop} (hStart : I [] s)
    (hStep : ∀ done x rest s', xs = done ++ x :: rest → I done s' →
      Ensures s' (g x ()) fun r s'' => r = .yield () ∧ I (done ++ [x]) s'') :
    Ensures s (forIn xs PUnit.unit g) fun _ => I xs := by
  have hRest (rest done : List β) (hxs : xs = done ++ rest) (s' : Lowering) (h : I done s') :
      Ensures s' (ForIn.forIn rest PUnit.unit g) fun _ => I xs := by
    induction rest generalizing done s' with
    | nil =>
      rw [List.append_nil] at hxs
      exact pure (by rw [hxs]; exact h)
    | cons x rest ih =>
      rw [List.forIn_cons]
      refine (hStep done x rest s' hxs h).bind ?_
      rintro _ s₁ ⟨rfl, h₁⟩
      exact ih (done ++ [x]) (by rw [hxs, List.append_assoc]; rfl) s₁ h₁
  exact hRest xs [] rfl s hStart

end Ensures

/-! ### States while a function is lowered -/

/-- Functions of the package that are declared are there, each on its own. -/
structure Declares (s : Lowering) : Prop where
  lt {i : Nat} {g : FuncId} : s.declared.lookup i = some g → g < s.program.functions.size
  inj {i j : Nat} {g : FuncId} : s.declared.lookup i = some g → s.declared.lookup j = some g → i = j

/-- The value belongs to the function and is not defined by a sigma. -/
def Plain (p : Program) (t : FuncId) (x : ValueId) : Prop :=
  p.Holds t x ∧ ∀ b, ∀ i ∈ (p.block b).instrs, i.result = some x → i.op ≠ .sigma

/-- The function `f` is being lowered to `t`, whose blocks follow each other from `base`. -/
structure Working (rules : Rules) (f : Func) (t : FuncId) (base : BlockId) (s : Lowering) :
    Prop where
  regular : Regular s.program
  declares : Declares s
  target : s.frame.target = t
  blocks {k : Nat} : k < f.blocks.size → s.frame.blocks.getD k 0 = base + k
  houses {k : Nat} : k < f.blocks.size → s.program.Houses t (base + k)
  lists : (s.program.func t).blocks = s.frame.blocks
  size : s.frame.blocks.size = f.blocks.size
  value {v : Operand} {x : ValueId} : s.frame.values.lookup v = some x →
    Plain s.program t x ∧ (typeOf? rules f v).isSome
  sigma {d : Nat} {v : Operand} {x : ValueId} : s.frame.sigmas.lookup (d, v) = some x →
    s.program.Holds t x ∧ (typeOf? rules f v).isSome

/-- The second state has all that the first has, and more of the function `t`. -/
structure Onward (t : FuncId) (base : BlockId) (s s' : Lowering) : Prop where
  program : Extends t base s.program s'.program
  source : s'.frame.source = s.frame.source
  target : s'.frame.target = s.frame.target
  blocks : s'.frame.blocks = s.frame.blocks
  value {v : Operand} {x : ValueId} : s.frame.values.lookup v = some x →
    s'.frame.values.lookup v = some x
  sigma {d : Nat} {v : Operand} {x : ValueId} : s.frame.sigmas.lookup (d, v) = some x →
    s'.frame.sigmas.lookup (d, v) = some x
  declared {i : Nat} {g : FuncId} : s.declared.lookup i = some g → s'.declared.lookup i = some g
  new {i : Nat} {g : FuncId} : s'.declared.lookup i = some g →
    s.declared.lookup i = some g ∨ s.program.functions.size ≤ g

variable {rules : Rules} {f : Func} {t : FuncId} {base : BlockId} {s s' s'' : Lowering}
  {v : Operand} {x : ValueId} {b : Nat} {X : ValueId → Prop}

theorem Onward.refl (t : FuncId) (base : BlockId) (s : Lowering) : Onward t base s s :=
  ⟨.refl t base _, rfl, rfl, rfl, id, id, id, .inl⟩

theorem Onward.trans (h : Onward t base s s') (h' : Onward t base s' s'') :
    Onward t base s s'' where
  program := h.program.trans h'.program
  source := h'.source.trans h.source
  target := h'.target.trans h.target
  blocks := h'.blocks.trans h.blocks
  value := h'.value ∘ h.value
  sigma := h'.sigma ∘ h.sigma
  declared := h'.declared ∘ h.declared
  new hg := (h'.new hg).elim h.new fun hLe => .inr (Nat.le_trans h.program.functions hLe)

theorem Plain.extends {p p' : Program} {t' : FuncId} (h : Plain p t x)
    (hExt : Extends t' base p p') : Plain p' t x := by
  refine ⟨hExt.holds h.1, fun b i hi hx hSigma => ?_⟩
  obtain ⟨i', hi', hx', hOp⟩ := hExt.origin hi hx h.1.1
  exact h.2 b i' hi' hx' (hOp hSigma)

/-- A step goes on with the work if what it records is sound. -/
theorem Working.onward (hs : Working rules f t base s) (h : Onward t base s s')
    (hLists : (s'.program.func t).blocks = (s.program.func t).blocks) (hDeclares : Declares s')
    (hValue : ∀ v x, s'.frame.values.lookup v = some x → s.frame.values.lookup v = some x ∨
      Plain s'.program t x ∧ (typeOf? rules f v).isSome)
    (hSigma : ∀ d v x, s'.frame.sigmas.lookup (d, v) = some x →
      s.frame.sigmas.lookup (d, v) = some x ∨
        s'.program.Holds t x ∧ (typeOf? rules f v).isSome) : Working rules f t base s' where
  regular := h.program.regular hs.regular
  declares := hDeclares
  target := h.target.trans hs.target
  blocks hk := by
    rw [h.blocks]
    exact hs.blocks hk
  houses hk := h.program.houses (hs.houses hk)
  lists := by rw [hLists, hs.lists, h.blocks]
  size := h.blocks ▸ hs.size
  value {v x} hx := (hValue v x hx).elim
    (fun hOld => ⟨(hs.value hOld).1.extends h.program, (hs.value hOld).2⟩) id
  sigma {d v x} hx := (hSigma d v x hx).elim
    (fun hOld => ⟨h.program.holds (hs.sigma hOld).1, (hs.sigma hOld).2⟩) id

/-! ### Values of operands -/

/-- The instruction is an unknown value in the entry block. -/
def Unknown (base b : BlockId) (i : ValueRange.Instr) : Prop :=
  b = base ∧ ∃ x, i = ⟨.unknown, some x, [], none⟩

/-- The step resolves operands, and changes at most the instructions that define values in `X`. -/
structure Settles (t : FuncId) (base : BlockId) (X : ValueId → Prop) (s s' : Lowering) : Prop
    extends Onward t base s s' where
  writes : Writes X (Unknown base) s.program s'.program
  sigmas : s'.frame.sigmas = s.frame.sigmas

theorem Settles.refl (t : FuncId) (base : BlockId) (X : ValueId → Prop) (s : Lowering) :
    Settles t base X s s := ⟨.refl t base s, .refl _ _ _, rfl⟩

theorem Settles.trans (h : Settles t base X s s') (h' : Settles t base X s' s'')
    (hX : ∀ x, X x → x < s.program.values.size) : Settles t base X s s'' :=
  ⟨h.toOnward.trans h'.toOnward, h.writes.trans h'.writes hX, h'.sigmas.trans h.sigmas⟩

theorem Settles.mono {X' : ValueId → Prop} (h : Settles t base X s s') (hX : ∀ x, X x → X' x) :
    Settles t base X' s s' := ⟨h.toOnward, h.writes.mono hX fun _ _ => id, h.sigmas⟩

/-- What an operand stands for, it stands for also later. -/
theorem Settles.valueAt (h : Settles t base X s s') (hx : s.frame.valueAt f v b = some x) :
    s'.frame.valueAt f v b = some x := by
  unfold Frame.valueAt at hx ⊢
  rw [h.sigmas]
  split at hx
  case h_1 => exact hx
  case h_2 => exact h.value hx

theorem Working.valueAt (hs : Working rules f t base s) (hx : s.frame.valueAt f v b = some x) :
    s.program.Holds t x ∧ (typeOf? rules f v).isSome := by
  unfold Frame.valueAt at hx
  split at hx
  case h_1 hFound =>
    obtain ⟨d, -, hd⟩ := List.exists_of_findSome?_eq_some hFound
    exact hs.sigma (hd.trans hx)
  case h_2 => exact ⟨(hs.value hx).1.1, (hs.value hx).2⟩

section Lookup

variable {α β : Type} [BEq α] [LawfulBEq α] {k k' : α} {y z : β} {l : List (α × β)}

theorem of_lookup_cons (h : ((k, y) :: l).lookup k' = some z) :
    k' = k ∧ z = y ∨ l.lookup k' = some z := by
  rw [List.lookup_cons] at h
  split at h
  case h_1 hk => exact .inl ⟨eq_of_beq hk, (Option.some.inj h).symm⟩
  case h_2 => exact .inr h

/-- A new key hides no other. -/
theorem lookup_cons_of_none (hNone : l.lookup k = none) (h : l.lookup k' = some z) :
    ((k, y) :: l).lookup k' = some z := by
  rw [List.lookup_cons]
  split
  case h_1 hk =>
    rw [eq_of_beq hk, hNone] at h
    cases h
  case h_2 => exact h

end Lookup

/-- The value of an operand that had none is recorded. -/
theorem Working.record (hs : Working rules f t base s) {p' : Program}
    (hProgram : Extends t base s.program p')
    (hLists : (p'.func t).blocks = (s.program.func t).blocks)
    (hNone : s.frame.values.lookup v = none) (hType : (typeOf? rules f v).isSome)
    (hx : Plain p' t x) :
    let s' : Lowering := { s with program := p', frame.values := (v, x) :: s.frame.values }
    Working rules f t base s' ∧ Onward t base s s' := by
  intro s'
  have hOnward : Onward t base s s' :=
    ⟨hProgram, rfl, rfl, rfl, lookup_cons_of_none hNone, id, id, .inl⟩
  refine ⟨hs.onward hOnward hLists ⟨fun hg => ?_, hs.declares.inj⟩ (fun w y hy => ?_)
    fun _ _ _ => .inl, hOnward⟩
  · exact Nat.lt_of_lt_of_le (hs.declares.lt hg) hProgram.functions
  · rcases of_lookup_cons hy with ⟨rfl, rfl⟩ | hOld
    · exact .inr ⟨hx, hType⟩
    · exact .inl hOld

/-- The sigma of an operand in a block that had none is recorded. -/
theorem Working.recordSigma (hs : Working rules f t base s) {p' : Program}
    (hProgram : Extends t base s.program p')
    (hLists : (p'.func t).blocks = (s.program.func t).blocks) {d : Nat}
    (hNone : s.frame.sigmas.lookup (d, v) = none) (hType : (typeOf? rules f v).isSome)
    (hx : p'.Holds t x) :
    let s' : Lowering := { s with program := p', frame.sigmas := ((d, v), x) :: s.frame.sigmas }
    Working rules f t base s' ∧ Onward t base s s' := by
  intro s'
  have hOnward : Onward t base s s' :=
    ⟨hProgram, rfl, rfl, rfl, id, lookup_cons_of_none hNone, id, .inl⟩
  refine ⟨hs.onward hOnward hLists ⟨fun hg => ?_, hs.declares.inj⟩ (fun _ _ => .inl)
    fun e w y hy => ?_, hOnward⟩
  · exact Nat.lt_of_lt_of_le (hs.declares.lt hg) hProgram.functions
  · rcases of_lookup_cons hy with ⟨hEq, rfl⟩ | hOld
    · cases hEq
      exact .inr ⟨hx, hType⟩
    · exact .inl hOld

/-- An operand that had no value stands for the one that is made for it. -/
theorem Working.settle (hs : Working rules f t base s) {p' : Program}
    (hProgram : Extends t base s.program p')
    (hWrites : Writes (fun _ => False) (Unknown base) s.program p')
    (hNone : s.frame.valueAt f v b = none) (hType : (typeOf? rules f v).isSome)
    (hx : Plain p' t x) :
    let s' : Lowering := { s with program := p', frame.values := (v, x) :: s.frame.values }
    Working rules f t base s' ∧ Settles t base (fun _ => False) s s' ∧
      s'.frame.valueAt f v b = some x := by
  unfold Frame.valueAt at hNone
  split at hNone
  · cases hNone
  case h_2 hFound =>
    obtain ⟨hWork, hOnward⟩ := hs.record hProgram (hWrites.lists t) hNone hType hx
    refine ⟨hWork, ⟨hOnward, hWrites, rfl⟩, ?_⟩
    unfold Frame.valueAt
    rw [hFound]
    exact List.lookup_cons_self

/-- A constant is no result. -/
theorem plain_of_isConstant {p : Program} (hp : Regular p) {ty : IntType} {n : Int}
    (h : p.IsConstant t ty n x) : Plain p t x := by
  refine ⟨hp.layout.seated.value h.mem, fun b i hi hx => ?_⟩
  obtain ⟨k, hk⟩ := Array.mem_iff_getElem?.mp hi
  have hConst := (hp.made.tidy.result hk hx).const_eq
  rw [h.const] at hConst
  cases hConst

/-- The result of an instruction that is no sigma. -/
theorem plain_of_mem {p : Program} (hp : Regular p) {c : BlockId} {i : ValueRange.Instr}
    (hHolds : p.Holds t x) (hi : i ∈ (p.block c).instrs) (hx : i.result = some x)
    (hOp : i.op ≠ .sigma) : Plain p t x := by
  refine ⟨hHolds, fun b i' hi' hx' => ?_⟩
  rw [(hp.eq_of_result hi' hi hx' hx).2]
  exact hOp

/-- An unknown value is added to the entry block. -/
theorem unknown_ensures (hp : Regular s.program) (hHouses : s.program.Houses t base) {ty : IntType}
    (hInt : ty.isInteger = true) (name : String) :
    Ensures s (extend (Program.emit base .unknown name ty [] (some (.ofType ty)) none))
      fun r s' => r = some s.program.values.size ∧ ∃ p', s' = { s with program := p' } ∧
        Extends t base s.program p' ∧ Writes (fun _ => False) (Unknown base) s.program p' ∧
        Plain p' t s.program.values.size := by
  have hEmits := Program.emits_emit hInt .unknown name (some (.ofType ty)) hp hHouses
    (Nat.le_refl base)
  refine ⟨Program.emit_answer hInt .., _, rfl, hEmits.extended, ?_,
    plain_of_mem (hEmits.extended.regular hp) hEmits.holds hEmits.mem rfl nofun⟩
  refine hEmits.writes.mono (fun _ => id) ?_
  rintro c i ⟨rfl, rfl⟩
  exact ⟨rfl, _, rfl⟩

/-- The operand is an integer, if it is not a value already. -/
def Slot.IsInteger (rules : Rules) (f : Func) : Slot → Prop
  | .use v _ => ∃ w, v = some w ∧ (typeOf? rules f w).isSome
  | .fixed _ => True

/-- The value is what the operand stands for. -/
def Slot.Is (frame : Frame) (f : Func) : Slot → ValueId → Prop
  | .use v b, a => ∃ w, v = some w ∧ frame.valueAt f w b = some a
  | .fixed c, a => c = a

theorem Slot.Is.mono {frame frame' : Frame} {slot : Slot} (h : slot.Is frame f x)
    (hAt : ∀ {v b a}, frame.valueAt f v b = some a → frame'.valueAt f v b = some a) :
    slot.Is frame' f x := by
  cases slot with
  | use v b =>
    obtain ⟨w, hw, ha⟩ := h
    exact ⟨w, hw, hAt ha⟩
  | fixed c => exact h

section Resolve

variable (hs : Working rules f t base s) (hEntry : 0 < f.blocks.size)
include hs hEntry

/-- An operand that is an integer is resolved to what it stands for afterwards. -/
theorem resolve_ensures (hInt : ∀ ty, typeOf? rules f v = some ty → ty.isInteger = true) (b : Nat) :
    Ensures s (resolve rules f v b) fun r s' =>
      Working rules f t base s' ∧ Settles t base (fun _ => False) s s' ∧
        r = s'.frame.valueAt f v b ∧ (r = none ↔ typeOf? rules f v = none) := by
  unfold resolve
  refine .get_bind ?_
  dsimp only
  cases hAt : s.frame.valueAt f v b with
  | some x =>
    have hType := (hs.valueAt hAt).2
    refine .pure ⟨hs, .refl t base _ s, hAt.symm, ⟨nofun, fun hNone => ?_⟩⟩
    rw [hNone] at hType
    cases hType
  | none =>
    cases hType : typeOf? rules f v with
    | none => exact .pure ⟨hs, .refl t base _ s, hAt.symm, ⟨fun _ => rfl, fun _ => rfl⟩⟩
    | some ty =>
      have hMade {p' : Program} {x : ValueId} (hProgram : Extends t base s.program p')
          (hWrites : Writes (fun _ => False) (Unknown base) s.program p') (hx : Plain p' t x) :
          Ensures { s with program := p' } (do
              Lowering.record v x
              return some x) fun r s' =>
            Working rules f t base s' ∧ Settles t base (fun _ => False) s s' ∧
              r = s'.frame.valueAt f v b ∧ (r = none ↔ some ty = none) := by
        obtain ⟨hWork, hSettles, hValue⟩ := hs.settle hProgram hWrites hAt (by rw [hType]; rfl) hx
        exact ⟨hWork, hSettles, hValue.symm, ⟨nofun, nofun⟩⟩
      have hBase := hs.blocks hEntry
      have hHouses := hs.houses hEntry
      rw [Nat.add_zero] at hBase hHouses
      cases v with
      | const type n =>
        have hlt := hHouses.2 ▸ hs.regular.layout.seated.blockOwner hHouses.1
        have hExt := Program.extends_constant t base hlt ty (n.getD 0)
        rw [hs.target]
        exact hMade hExt (Program.quiet_constant _ _ _ _).writes
          (plain_of_isConstant (hExt.regular hs.regular)
            (Program.isConstant_constant hlt ty (n.getD 0)))
      | _ =>
        refine .blockOf_bind ?_
        rw [hBase]
        refine (unknown_ensures hs.regular hHouses (hInt ty hType) _).bind ?_
        rintro x s' ⟨rfl, p', rfl, hExt, hWrites, hx⟩
        exact hMade hExt hWrites hx

/-- Operands are resolved in order, unless one is no integer. -/
theorem resolveAll_ensures {slots : List Slot} (hInt : ∀ v b, Slot.use (some v) b ∈ slots →
      ∀ ty, typeOf? rules f v = some ty → ty.isInteger = true) :
    Ensures s (resolveAll rules f slots) fun r s' =>
      Working rules f t base s' ∧ Settles t base (fun _ => False) s s' ∧
        (∀ as, r = some as → List.Forall₂ (Slot.Is s'.frame f) slots as) ∧
        (r = none → ∃ slot ∈ slots, ¬ slot.IsInteger rules f) := by
  induction slots generalizing s with
  | nil =>
    refine .pure ⟨hs, .refl t base _ s, fun as has => ?_, nofun⟩
    exact Option.some.inj has ▸ .nil
  | cons slot slots ih =>
    have hRest {s' : Lowering} {a : ValueId} (hs' : Working rules f t base s')
        (hSettles : Settles t base (fun _ => False) s s')
        (ha : ∀ {s''}, Settles t base (fun _ => False) s' s'' → slot.Is s''.frame f a) :
        Ensures s' (do return (← resolveAll rules f slots).map (a :: ·)) fun r s'' =>
          Working rules f t base s'' ∧ Settles t base (fun _ => False) s s'' ∧
            (∀ as, r = some as → List.Forall₂ (Slot.Is s''.frame f) (slot :: slots) as) ∧
            (r = none → ∃ slot' ∈ slot :: slots, ¬ slot'.IsInteger rules f) := by
      refine (ih hs' fun v b hv => hInt v b (List.mem_cons_of_mem _ hv)).bind ?_
      rintro r s'' ⟨hWork, hNext, hSome, hNone⟩
      refine .pure ⟨hWork, hSettles.trans hNext nofun, fun as has => ?_, fun h => ?_⟩
      · obtain ⟨as', rfl, rfl⟩ := Option.map_eq_some_iff.mp has
        exact .cons (ha hNext) (hSome as' rfl)
      · obtain ⟨slot', hMem, hNot⟩ := hNone (Option.map_eq_none_iff.mp h)
        exact ⟨slot', List.mem_cons_of_mem _ hMem, hNot⟩
    cases slot with
    | fixed c => exact hRest hs (.refl t base _ s) fun _ => rfl
    | use v b =>
      cases v with
      | none =>
        refine .pure ⟨hs, .refl t base _ s, nofun, fun _ => ⟨_, List.mem_cons_self, ?_⟩⟩
        rintro ⟨w, hw, -⟩
        cases hw
      | some v =>
        refine (resolve_ensures hs hEntry (hInt v b List.mem_cons_self) b).bind ?_
        rintro r s' ⟨hWork, hSettles, hValue, hNone⟩
        cases r with
        | none =>
          refine .pure ⟨hWork, hSettles, nofun, fun _ => ⟨_, List.mem_cons_self, ?_⟩⟩
          rintro ⟨w, hw, hType⟩
          cases hw
          rw [hNone.mp rfl] at hType
          cases hType
        | some a =>
          exact hRest hWork hSettles fun hNext => ⟨v, rfl, hNext.valueAt hValue.symm⟩

end Resolve

/-! ### Changes of results -/

theorem Working.edit (hs : Working rules f t base s) {p' : Program}
    (hProgram : Extends t base s.program p')
    (hLists : (p'.func t).blocks = (s.program.func t).blocks) :
    Working rules f t base { s with program := p' } ∧ Onward t base s { s with program := p' } := by
  have hOnward : Onward t base s { s with program := p' } :=
    ⟨hProgram, rfl, rfl, rfl, id, id, id, .inl⟩
  refine ⟨hs.onward hOnward hLists ⟨fun hg => ?_, hs.declares.inj⟩ (fun _ _ => .inl)
    fun _ _ _ => .inl, hOnward⟩
  exact Nat.lt_of_lt_of_le (hs.declares.lt hg) hProgram.functions

/-- The instruction that defines a value of the function is changed. -/
theorem editInstr_ensures (hs : Working rules f t base s) {k : Nat} {j : ValueRange.Instr}
    (hj : j ∈ (s.program.block (base + k)).instrs) (hx : j.result = some x)
    (change : ValueRange.Instr → ValueRange.Instr)
    (hResult : ∀ i, (change i).result = i.result)
    (hOp : ∀ i, (change i).op = .sigma → i.op = .sigma) :
    Ensures s (editInstr x change) fun _ s' => ∃ p', s' = { s with program := p' } ∧
      Extends t base s.program p' ∧ Writes (· = x) (Unknown base) s.program p' ∧
      ∀ b i, i ∈ (p'.block b).instrs ↔ i ∈ (s.program.block b).instrs ∧ i.result ≠ some x ∨
        b = base + k ∧ i = change j := by
  obtain ⟨n, hSite⟩ := hs.regular.exists_site hj hx
  refine ⟨s.program.modifyInstr ⟨base + k, n⟩ change, ?_,
    Program.extends_modifyInstr (Nat.le_add_right base k) hResult hOp,
    Program.writes_modifyInstr hs.regular hSite hResult, fun b i => ?_⟩
  · simp only [editInstr, edit, StateT.run_modify, hSite]
    rfl
  · rw [Program.mem_instrs_modifyInstr hs.regular hSite]
    refine or_congr Iff.rfl ⟨?_, ?_⟩
    · rintro ⟨i', hi', hx', rfl⟩
      obtain ⟨rfl, rfl⟩ := hs.regular.eq_of_result hi' hj hx' hx
      exact ⟨rfl, rfl⟩
    · rintro ⟨rfl, rfl⟩
      exact ⟨j, hj, hx, rfl⟩

/-- What becomes of an operation with operands: it gets what they stand for, or is unknown if one is
no integer. -/
def Outcome (rules : Rules) (f : Func) (frame : Frame) (op : Opcode) (slots : List Slot)
    (i : ValueRange.Instr) : Prop :=
  (∃ as, List.Forall₂ (Slot.Is frame f) slots as ∧ i.op = op ∧ i.args = as.map some) ∨
    (∃ slot ∈ slots, ¬ slot.IsInteger rules f) ∧ i.op = .unknown ∧ i.args = []

theorem Outcome.mono {op : Opcode} {slots : List Slot} {i : ValueRange.Instr}
    (h : Outcome rules f s.frame op slots i) (hSettles : Settles t base X s s') :
    Outcome rules f s'.frame op slots i := by
  rcases h with ⟨as, hSlots, hOp, hArgs⟩ | hUnknown
  · exact .inl ⟨as, hSlots.imp fun _ _ hIs => hIs.mono hSettles.valueAt, hOp, hArgs⟩
  · exact .inr hUnknown

theorem settle_ensures (hs : Working rules f t base s) (hEntry : 0 < f.blocks.size)
    {slots : List Slot} (hInt : ∀ v b, Slot.use (some v) b ∈ slots →
      ∀ ty, typeOf? rules f v = some ty → ty.isInteger = true)
    {k : Nat} {op : Opcode} {callee : Option FuncId}
    (hi : ⟨op, some x, [], callee⟩ ∈ (s.program.block (base + k)).instrs) :
    Ensures s (settle rules f ⟨x, slots⟩) fun _ s' =>
      Working rules f t base s' ∧ Settles t base (· = x) s s' ∧
        ∃ i ∈ (s'.program.block (base + k)).instrs, i.result = some x ∧
          Outcome rules f s'.frame op slots i := by
  unfold settle
  refine (resolveAll_ensures hs hEntry hInt).bind ?_
  rintro r s₁ ⟨hWork, hSettles, hSome, hNone⟩
  have hi₁ := hSettles.writes.kept hi rfl id
  have hLt (y : ValueId) (hy : y = x) : y < s.program.values.size :=
    hy ▸ hs.regular.result_lt hi rfl
  cases r with
  | some as =>
    refine (editInstr_ensures hWork hi₁ rfl (fun i => { i with args := as.map some })
      (fun _ => rfl) fun _ => id).mono ?_
    rintro _ _ ⟨p', rfl, hExt, hWrites, hMem⟩
    obtain ⟨hWork', hOnward⟩ := hWork.edit hExt (hWrites.lists t)
    refine ⟨hWork', (hSettles.mono fun _ => False.elim).trans ⟨hOnward, hWrites, rfl⟩ hLt,
      _, (hMem _ _).mpr (.inr ⟨rfl, rfl⟩), rfl, .inl ⟨as, hSome as rfl, rfl, rfl⟩⟩
  | none =>
    refine (editInstr_ensures hWork hi₁ rfl (fun i => { i with op := .unknown, args := [] })
      (fun _ => rfl) fun _ h => absurd h nofun).bind ?_
    rintro _ _ ⟨p', rfl, hExt, hWrites, hMem⟩
    have hQuiet := Program.quiet_setHint p' x (some (.ofType (p'.typeOf x)))
    have hExt' := hExt.trans
      (Program.extends_setHint t base p' x (some (.ofType (p'.typeOf x))))
    have hWrites' := hWrites.trans hQuiet.writes
      fun y hy => Nat.lt_of_lt_of_le (hLt y hy) hSettles.program.values
    obtain ⟨hWork', hOnward⟩ := hWork.edit hExt' (hWrites'.lists t)
    exact ⟨hWork', (hSettles.mono fun _ => False.elim).trans ⟨hOnward, hWrites', rfl⟩ hLt,
      _, hQuiet.kept ((hMem _ _).mpr (.inr ⟨rfl, rfl⟩)) rfl id, rfl, .inr ⟨hNone rfl, rfl, rfl⟩⟩

end ValueRange.Source.Lowering
