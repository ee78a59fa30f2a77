import ValueRange.Proofs.Program.Labels

/-! The texts of values. A constant is written as its numeral, which is an integer literal, and no
other value of a decoded program is. So two values of a function have the same text only if they are
constants of the same integer, or one has no name and the other is named as the first is numbered.
-/

namespace ValueRange

/-! ### Numerals -/

namespace Text.Integer

theorem digitValue?_of_isDigit {c : Char} (h : c.isDigit = true) :
    digitValue? c = some (c.toNat - '0'.toNat) ∧ c.toNat - '0'.toNat < 10 := by
  obtain ⟨hLow, hHigh⟩ := Char.isDigit_iff_toNat.mp h
  refine ⟨if_pos ⟨hLow, hHigh⟩, ?_⟩
  have hNine : '9'.toNat = '0'.toNat + 9 := rfl
  omega

theorem digits?_cons {c : Char} (h : c.isDigit = true) (separable : Bool) (acc : Nat)
    (cs : List Char) :
    digits? 10 separable acc (c :: cs) = digits? 10 true (acc * 10 + (c.toNat - '0'.toNat)) cs := by
  obtain ⟨hValue, hLt⟩ := digitValue?_of_isDigit h
  have hMark : c ≠ '_' := by
    rintro rfl
    cases h
  rw [digits?, if_neg hMark, hValue]
  exact if_pos hLt

theorem digits?_eq {cs : List Char} (h : ∀ c ∈ cs, c.isDigit = true) (acc : Nat) :
    digits? 10 true acc cs = some (Nat.ofDigitChars 10 cs acc) := by
  induction cs generalizing acc with
  | nil => rfl
  | cons c cs ih =>
    obtain ⟨hc, hcs⟩ := List.forall_mem_cons.mp h
    rw [digits?_cons hc, ih hcs, Nat.ofDigitChars_cons, Nat.mul_comm]

/-- Only the numeral of zero starts with a zero. -/
theorem toDigits_eq_cons {n : Nat} (hn : 0 < n) :
    ∃ c cs, Nat.toDigits 10 n = c :: cs ∧ c ≠ '0' := by
  induction n using Nat.strongRecOn with
  | ind n ih =>
    rw [Nat.toDigits_eq_if (by decide)]
    split
    case isTrue hlt =>
      have hChar : ∀ n < 10, 0 < n → Nat.digitChar n ≠ '0' := by decide
      exact ⟨n.digitChar, [], rfl, hChar n hlt hn⟩
    case isFalse hge =>
      obtain ⟨c, cs, hEq, hc⟩ := ih (n / 10) (by omega) (by omega)
      exact ⟨c, cs ++ [(n % 10).digitChar], by rw [hEq]; rfl, hc⟩

theorem isDigit_of_mem {c : Char} {n : Nat} (h : c ∈ Nat.toDigits 10 n) : c.isDigit = true :=
  Nat.isDigit_of_mem_toDigits (by decide) (by decide) h

theorem magnitude?_toDigits (n : Nat) : magnitude? (Nat.toDigits 10 n) = some n := by
  rcases Nat.eq_zero_or_pos n with rfl | hn
  · decide
  obtain ⟨c, cs, hEq, hZero⟩ := toDigits_eq_cons hn
  have hDigits (d : Char) (hd : d ∈ c :: cs) : d.isDigit = true := isDigit_of_mem (hEq ▸ hd)
  have hSplit : splitRadix (c :: cs) = (10, false, c :: cs) := by
    unfold splitRadix
    split
    case h_1 hCons => exact absurd (List.cons.inj hCons).1 hZero
    case h_2 => rfl
  have hValue : Nat.ofDigitChars 10 (c :: cs) 0 = n := hEq ▸ Nat.ofDigitChars_ten_toDigits
  unfold magnitude?
  rw [hEq, hSplit]
  dsimp only
  rw [digits?_cons (hDigits c List.mem_cons_self),
    digits?_eq fun d hd => hDigits d (List.mem_cons_of_mem c hd)]
  rw [Nat.ofDigitChars_cons, Nat.mul_comm] at hValue
  rw [hValue]

theorem splitSign_toDigits (n : Nat) :
    splitSign (Nat.toDigits 10 n) = (false, Nat.toDigits 10 n) := by
  have hDigits (c : Char) (h : c ∈ Nat.toDigits 10 n) : c.isDigit = true := isDigit_of_mem h
  unfold splitSign
  split
  case h_1 hEq =>
    rw [hEq] at hDigits
    cases hDigits '-' List.mem_cons_self
  case h_2 hEq =>
    rw [hEq] at hDigits
    cases hDigits '+' List.mem_cons_self
  case h_3 => rfl

/-- A numeral is read as its integer. -/
theorem literal?_toString (n : Int) : literal? (toString n) = some n := by
  have hDigits (m : Nat) : m.repr.toList = Nat.toDigits 10 m := by
    rw [Nat.repr_eq_ofList_toDigits, String.toList_ofList]
  change literal? n.repr = some n
  rw [Int.repr_eq_if]
  split
  case isTrue hn =>
    unfold literal?
    rw [hDigits, splitSign_toDigits]
    dsimp only
    rw [magnitude?_toDigits, Option.map_some]
    exact congrArg some (Int.toNat_of_nonneg hn)
  case isFalse hn =>
    unfold literal?
    rw [String.toList_append, hDigits]
    change (magnitude? (Nat.toDigits 10 (-n).toNat)).map (signedValue true) = some n
    rw [magnitude?_toDigits, Option.map_some]
    refine congrArg some (?_ : -((-n).toNat : Int) = n)
    omega

theorem toString_inj {m n : Int} : toString m = toString n ↔ m = n := by
  refine ⟨fun h => ?_, congrArg _⟩
  have hRead := literal?_toString m
  rw [h, literal?_toString] at hRead
  exact (Option.some.inj hRead).symm

theorem literal?_number (s : String) : literal? ("v" ++ s) = none := by
  unfold literal?
  rw [String.toList_append]
  rfl

end Text.Integer

/-! ### Values -/

namespace Program

variable {p : Program} {v w : ValueId}

theorem valueText_of_const {n : Int} (h : (p.value v).const = some n) :
    p.valueText v = toString n := by
  unfold valueText
  dsimp only
  rw [h]

theorem valueText_of_unnamed (h : (p.value v).const = none) (hName : (p.value v).name = "") :
    p.valueText v = "v" ++ toString (p.value v).number := by
  unfold valueText
  dsimp only
  rw [h, if_pos hName]

theorem valueText_of_named (h : (p.value v).const = none) (hName : (p.value v).name ≠ "") :
    p.valueText v = (p.value v).name := by
  unfold valueText
  dsimp only
  rw [h, if_neg hName]

/-- The first value has no name, and the second is named as the first is numbered. -/
def Aliased (p : Program) (v w : ValueId) : Prop :=
  (p.value v).name = "" ∧ (p.value w).name = "v" ++ toString (p.value v).number

theorem valueText_constants {m n : Int} (hv : (p.value v).const = some m)
    (hw : (p.value w).const = some n) : p.valueText v = p.valueText w ↔ m = n := by
  rw [valueText_of_const hv, valueText_of_const hw]
  exact Text.Integer.toString_inj

end Program

namespace Decode.Labelled

open Program

variable {p : Program} {v w : ValueId} (hp : Labelled p)
include hp

/-- Only constants are written as integers. -/
theorem literal?_valueText (hv : v < p.values.size) (h : (p.value v).const = none) :
    Text.Integer.literal? (p.valueText v) = none := by
  by_cases hName : (p.value v).name = ""
  · rw [valueText_of_unnamed h hName]
    exact Text.Integer.literal?_number _
  · rw [valueText_of_named h hName]
    exact hp.literal hv

theorem valueText_ne {n : Int} (hv : (p.value v).const = some n) (hw : w < p.values.size)
    (hNone : (p.value w).const = none) : p.valueText v ≠ p.valueText w := by
  intro hEq
  have hRead := Text.Integer.literal?_toString n
  rw [← valueText_of_const hv, hEq, hp.literal?_valueText hw hNone] at hRead
  cases hRead

/-- Two values of a function that are no constants have the same text only if one has no name and
the other is named as it is numbered. -/
theorem valueText_eq_iff (hv : v < p.values.size) (hw : w < p.values.size)
    (hOwner : (p.value v).owner = (p.value w).owner) (hConst : (p.value v).const = none)
    (hConst' : (p.value w).const = none) :
    p.valueText v = p.valueText w ↔ v = w ∨ p.Aliased v w ∨ p.Aliased w v := by
  have hAlias {v w : ValueId} (hv : (p.value v).const = none) (hw : (p.value w).const = none)
      (h : p.Aliased v w) : p.valueText v = p.valueText w := by
    have hNamed : (p.value w).name ≠ "" := by
      rw [h.2]
      exact fun hEmpty => absurd (congrArg String.toList hEmpty) (by simp)
    rw [valueText_of_unnamed hv h.1, valueText_of_named hw hNamed, h.2]
  constructor
  · intro hEq
    by_cases hName : (p.value v).name = "" <;> by_cases hName' : (p.value w).name = ""
    · rw [valueText_of_unnamed hConst hName, valueText_of_unnamed hConst' hName',
        String.append_right_inj] at hEq
      have hNumber : ((p.value v).number : Int) = (p.value w).number :=
        Text.Integer.toString_inj.mp hEq
      refine .inl (hp.layout.counted.eq_of_number hv hw ?_ (Int.ofNat.inj hNumber))
      rw [homeOf, homeOf, hOwner]
    · rw [valueText_of_unnamed hConst hName, valueText_of_named hConst' hName'] at hEq
      exact .inr (.inl ⟨hName, hEq.symm⟩)
    · rw [valueText_of_named hConst hName, valueText_of_unnamed hConst' hName'] at hEq
      exact .inr (.inr ⟨hName', hEq⟩)
    · rw [valueText_of_named hConst hName, valueText_of_named hConst' hName'] at hEq
      exact .inl (hp.distinct hv hw hOwner hName hEq)
  · rintro (rfl | h | h)
    · rfl
    · exact hAlias hConst hConst' h
    · exact (hAlias hConst' hConst h).symm

end Decode.Labelled

end ValueRange
