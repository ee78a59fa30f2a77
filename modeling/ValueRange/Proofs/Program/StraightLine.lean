import Mathlib.Logic.Function.Basic
import ValueRange.Proofs.Program.Construction

/-! Straight-line programs: functions of one block that copies, adds, subtracts and multiplies
constants and earlier results. Such a block can be executed over any domain that interprets
constants and the three operations, the integers among them. -/

namespace ValueRange

/-- A domain in which constants, sums, differences and products have a meaning. -/
structure Interpretation (α : Type) where
  const : Int → α
  binary? : BinaryOp → Option (α → α → α)

/-- The integers, without a bound. -/
def Interpretation.exact : Interpretation Int where
  const := id
  binary?
    | .add => some (· + ·)
    | .sub => some (· - ·)
    | .mul => some (· * ·)
    | _ => none

/-- What an instruction computes from the values that are known before it. -/
def Instr.value? {α : Type} (i : Instr) (M : Interpretation α) (env : ValueId → Option α) :
    Option α :=
  match i.op, i.args with
  | .unary .copy, [some x] => env x
  | .binary op, [some x, some y] => do return (← M.binary? op) (← env x) (← env y)
  | _, _ => none

theorem Instr.value?_copy {α : Type} {M : Interpretation α} {env : ValueId → Option α} {i : Instr}
    {x : ValueId} (hOp : i.op = .unary .copy) (hArgs : i.args = [some x]) :
    i.value? M env = env x := by
  rw [value?, hOp, hArgs]

theorem Instr.value?_binary {α : Type} {M : Interpretation α} {env : ValueId → Option α} {i : Instr}
    {op : BinaryOp} {F : α → α → α} {x y : ValueId} {n n' : α} (hOp : i.op = .binary op)
    (hArgs : i.args = [some x, some y]) (hF : M.binary? op = some F) (hx : env x = some n)
    (hy : env y = some n') : i.value? M env = some (F n n') := by
  simp only [value?, hOp, hArgs, hF, hx, hy]
  rfl

/-- The known values after an instruction. -/
def Instr.execute {α : Type} (M : Interpretation α) (env : ValueId → Option α) (i : Instr) :
    ValueId → Option α :=
  match i.result with
  | some v => Function.update env v (i.value? M env)
  | none => env

namespace Program

variable {α : Type} (M : Interpretation α) {p : Program} {f : FuncId} {b : BlockId} {k : Nat}
variable {i : Instr} {v x y : ValueId}

/-- The values that are known after all instructions of a block. -/
def execute (p : Program) (b : BlockId) : ValueId → Option α :=
  (p.block b).instrs.toList.foldl (Instr.execute M) fun v => (p.value v).const.map M.const

/-- An operand of instruction `k` of the block: a constant of the function or the result of an
earlier instruction. -/
inductive Available (p : Program) (f : FuncId) (b : BlockId) (k : Nat) (x : ValueId) : Prop
  | const {c : Int} (hx : x ∈ (p.func f).values) (hInt : p.isInteger x = true)
      (hc : (p.value x).const = some c)
  | result {j : Nat} {i : Instr} (hj : j < k) (hi : (p.block b).instrs[j]? = some i)
      (hx : i.result = some x)

/-- Instruction `k` of the block copies an operand, or adds, subtracts or multiplies two. -/
inductive Arithmetic (p : Program) (f : FuncId) (b : BlockId) (k : Nat) (i : Instr) : Prop
  | copy {x : ValueId} (hOp : i.op = .unary .copy) (hArgs : i.args = [some x])
      (hx : Available p f b k x)
  | binary {op : BinaryOp} {x y : ValueId} (hOp : i.op = .binary op)
      (hRing : op ∈ [BinaryOp.add, .sub, .mul]) (hArgs : i.args = [some x, some y])
      (hx : Available p f b k x) (hy : Available p f b k y)

/-- A function of one block, which returns and has only instructions with integer results that
compute with constants and earlier results. -/
structure StraightLine (p : Program) (f : FuncId) (b : BlockId) : Prop where
  blocks : (p.func f).blocks = #[b]
  returns : ∃ results, (p.block b).term = some (.ret results)
  result {k : Nat} {i : Instr} : (p.block b).instrs[k]? = some i →
    ∃ v, i.result = some v ∧ p.isInteger v = true
  arithmetic {k : Nat} {i : Instr} : (p.block b).instrs[k]? = some i → Arithmetic p f b k i

/-! ### Results -/

/-- Two instructions of a block have different results. -/
theorem Tidy.index_eq (hp : Tidy p) {j : Nat} {i' : Instr}
    (hi : (p.block b).instrs[k]? = some i) (hi' : (p.block b).instrs[j]? = some i')
    (hv : i.result = some v) (hv' : i'.result = some v) : j = k :=
  congrArg Site.index (hp.site_eq hi hi' hv hv')

/-- An operand of an instruction is neither its result nor that of a later one. -/
theorem Tidy.ne_result (hp : Tidy p) (hx : Available p f b k x) {j : Nat} {i' : Instr} (hj : k ≤ j)
    (hi' : (p.block b).instrs[j]? = some i') : i'.result ≠ some x := by
  intro hResult
  cases hx with
  | const _ _ hc =>
    rw [(hp.result hi' hResult).const_eq] at hc
    cases hc
  | result hlt hi hv => exact Nat.not_lt.mpr hj (hp.index_eq hi hi' hv hResult ▸ hlt)

/-! ### Execution -/

theorem execute_of_forall_ne (is : List Instr) (env : ValueId → Option α)
    (h : ∀ i ∈ is, i.result ≠ some x) : is.foldl (Instr.execute M) env x = env x := by
  induction is generalizing env with
  | nil => rfl
  | cons i is ih =>
    rw [List.foldl_cons, ih _ fun i' hi' => h i' (List.mem_cons_of_mem i hi')]
    have hNe := h i List.mem_cons_self
    unfold Instr.execute
    cases hv : i.result with
    | none => rfl
    | some v => exact Function.update_of_ne (fun hx : x = v => hNe (hx ▸ hv)) _ _

/-- The values that are known before instruction `k`. -/
def before (p : Program) (b : BlockId) (k : Nat) : ValueId → Option α :=
  ((p.block b).instrs.toList.take k).foldl (Instr.execute M) fun v => (p.value v).const.map M.const

/-- What stands unchanged from instruction `k` on is known before it. -/
theorem execute_eq_before (h : ∀ {j : Nat} {i : Instr}, k ≤ j → (p.block b).instrs[j]? = some i →
    i.result ≠ some x) : p.execute M b x = before M p b k x := by
  have hSplit := List.take_append_drop k (p.block b).instrs.toList
  rw [execute, before, ← hSplit, List.foldl_append, hSplit]
  refine execute_of_forall_ne M _ _ fun i hi => ?_
  obtain ⟨j, hj⟩ := List.mem_iff_getElem?.mp hi
  rw [List.getElem?_drop] at hj
  exact h (Nat.le_add_right k j) (Array.getElem?_toList ▸ hj)

theorem Tidy.execute_const (hp : Tidy p) {c : Int} (hc : (p.value x).const = some c) :
    p.execute M b x = some (M.const c) := by
  rw [execute_eq_before (k := 0) M fun _ hi hResult => ?_]
  · simp [before, hc]
  · rw [(hp.result hi hResult).const_eq] at hc
    cases hc

/-- Of the known values an arithmetic instruction reads its operands only. -/
theorem Arithmetic.value?_congr (hi : Arithmetic p f b k i) {env env' : ValueId → Option α}
    (h : ∀ x, Available p f b k x → env x = env' x) : i.value? M env = i.value? M env' := by
  unfold Instr.value?
  cases hi with
  | copy hOp hArgs hx => simp only [hOp, hArgs, h _ hx]
  | binary hOp _ hArgs hx hy => simp only [hOp, hArgs, h _ hx, h _ hy]

/-- After the block each result is what its instruction computes from the known values. -/
theorem StraightLine.execute_result (h : StraightLine p f b) (hp : Tidy p)
    (hi : (p.block b).instrs[k]? = some i) (hv : i.result = some v) :
    p.execute M b v = i.value? M (p.execute M b) := by
  have hAfter : p.execute M b v = before M p b (k + 1) v :=
    execute_eq_before M fun {j i'} hj hi' hv' => by
      have := hp.index_eq hi hi' hv hv'
      omega
  have hStep : before M p b (k + 1) = i.execute M (before M p b k) := by
    rw [before, List.take_add_one, Array.getElem?_toList, hi, Option.toList_some,
      List.foldl_append]
    rfl
  rw [hAfter, hStep, Instr.execute, hv]
  refine (Function.update_self ..).trans ((h.arithmetic hi).value?_congr M fun x hx => ?_)
  exact (execute_eq_before M fun hj hi' => hp.ne_result hx hj hi').symm

/-- What holds of constants, and of results if it holds of their operands, holds of all operands. -/
theorem Available.induct {P : ValueId → Prop}
    (hConst : ∀ {x : ValueId} {c : Int}, x ∈ (p.func f).values → p.isInteger x = true →
      (p.value x).const = some c → P x)
    (hResult : ∀ {k : Nat} {i : Instr} {v : ValueId}, (p.block b).instrs[k]? = some i →
      i.result = some v → (∀ x, Available p f b k x → P x) → P v)
    (hx : Available p f b k x) : P x := by
  induction k using Nat.strongRecOn generalizing x with
  | ind k ih =>
    cases hx with
    | const hx hInt hc => exact hConst hx hInt hc
    | result hj hi hv => exact hResult hi hv fun y hy => ih _ hj hy

end Program

end ValueRange
