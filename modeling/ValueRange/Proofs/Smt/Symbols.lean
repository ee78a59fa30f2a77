import Mathlib.Data.List.Nodup
import ValueRange.Proofs.Program.Texts
import ValueRange.Proofs.Smt.Facts

/-! The symbols of scripts. A script introduces a symbol for each value that it declares and one for
each constraint that it defines, and makes both from the text of the value. The symbols of a decoded
function's script are different unless a value is named as the constraint of another is written, a
value is named as an unnamed one is numbered, or constants of one integer have constraints. -/

namespace ValueRange

/-! ### Values of the function -/

section Values

variable {p : Program} {f : FuncId}

/-- The constraints of a decoded function are about values of the function. -/
theorem Decode.Labelled.confined (hp : Labelled p) (hAccepted : p.Accepted) :
    p.Confined f (p.Holds f) where
  result hb hi hv := by
    obtain ⟨k, hk⟩ := Array.mem_iff_getElem?.mp hi
    exact hp.layout.seated.value (hAccepted.made.housed.values hb hk hv)
  operand hb hi hx := by
    obtain ⟨y, hy, hHolds⟩ := hAccepted.complete.args hi hx
    cases hy
    rw [(hAccepted.made.housed.owner hb).2] at hHolds
    exact hHolds
  entry {b a t x} hb hPreds hTerm hx := by
    have hCount := hp.layout.paired.preds b a
    rw [hPreds, List.count_singleton_self] at hCount
    have hSucc : b ∈ (p.block a).succs := by
      by_contra hNot
      rw [if_neg hNot] at hCount
      cases hCount
    obtain ⟨t', ht', hTarget⟩ := hp.layout.paired.exists_term hSucc
    obtain ⟨y, hy, hHolds⟩ := (hAccepted.complete.term hTerm).operands hx
    cases hy
    rw [← (hp.enclosed a t' ht' b hTarget).2, (hAccepted.made.housed.owner hb).2] at hHolds
    exact hHolds

end Values

namespace Smt

open Program

/-- All values that the term refers to or names satisfy `P`. -/
def Term.About (P : ValueId → Prop) (t : Term) : Prop :=
  ∀ u, .ref u ∈ t.leaves ∨ .name u ∈ t.leaves → P u

section About

variable {P : ValueId → Prop} {t : Term} {ts : List Term}

theorem about_leavesOf (h : ∀ t ∈ ts, t.About P) (u : ValueId)
    (hu : .ref u ∈ Term.leavesOf ts ∨ .name u ∈ Term.leavesOf ts) : P u := by
  rw [Term.mem_leavesOf, Term.mem_leavesOf] at hu
  obtain ⟨t, ht, hu⟩ | ⟨t, ht, hu⟩ := hu
  · exact h t ht u (.inl hu)
  · exact h t ht u (.inr hu)

theorem Term.Factual.about (h : t.Factual P) : t.About P := by
  induction h with
  | conj _ ih =>
    rw [Term.About, Term.leaves]
    exact about_leavesOf ih
  | disj _ ih =>
    rw [Term.About, Term.leaves]
    exact about_leavesOf ih
  | ref hv => simpa [Term.About, Term.leaves] using hv
  | comparison _ hx hy => simpa [Term.About, Term.leaves] using ⟨hx, hy⟩
  | literal _ hx => simpa [Term.About, Term.leaves] using hx
  | result _ hv hx hy => simpa [Term.About, Term.leaves] using ⟨hv, hx, hy⟩
  | truth => simp [Term.About, Term.leaves]

theorem factual_trimAll {keep : ValueId → Bool} (h : ∀ t ∈ ts, (t.trim keep).Factual P) :
    ∀ t ∈ Term.trimAll keep ts, t.Factual P := by
  induction ts with
  | nil => nofun
  | cons t ts ih =>
    obtain ⟨ht, hts⟩ := List.forall_mem_cons.mp h
    exact List.forall_mem_cons.mpr ⟨ht, ih hts⟩

theorem Term.Factual.trim (h : t.Factual P) (keep : ValueId → Bool) :
    (t.trim keep).Factual P := by
  induction h with
  | conj _ ih => exact .conj (factual_trimAll ih)
  | disj _ ih => exact .disj (factual_trimAll ih)
  | ref hv =>
    rw [Term.trim]
    split
    · exact .ref hv
    · exact .truth
  | comparison hOp hx hy => exact .comparison hOp hx hy
  | literal n hx => exact .literal n hx
  | result hOp hv hx hy => exact .result hOp hv hx hy
  | truth => exact .truth

end About

/-! ### Symbols -/

section Symbols

variable {p : Program} {f : FuncId} {u v w target : ValueId} {cs : List (ValueId × Term)}
  {assertions : List Term} {s : Script}

/-- The symbols that a script introduces: those of the values that it declares, then those of the
constraints that it defines. -/
def Script.symbols (p : Program) (s : Script) : List String :=
  s.declared.map (nameText p) ++ (s.definitions.map (·.1)).map (refText p)

/-- Two symbols of the script are the same text: of an unnamed value and one that is named as it is
numbered, of a value and the constraint that its name is written like, or of the constraints of
constants of one integer. -/
inductive Script.Clash (p : Program) (s : Script) : Prop
  | number {u w : ValueId} (hu : u ∈ s.declared) (hw : w ∈ s.declared) (h : p.Aliased u w)
  | constraint {u w : ValueId} (hu : u ∈ s.declared) (hw : w ∈ s.definitions.map (·.1))
      (h : (p.value u).name = "r" ++ p.valueText w)
  | constants {u w : ValueId} {n : Int} (hu : u ∈ s.definitions.map (·.1))
      (hw : w ∈ s.definitions.map (·.1)) (hNe : u ≠ w) (h : (p.value u).const = some n)
      (h' : (p.value w).const = some n)

/-- The script introduces each value once, and all of them are values of the function. -/
structure Script.Owned (p : Program) (f : FuncId) (s : Script) : Prop where
  declaredOnce : s.declared.Nodup
  once : (s.definitions.map (·.1)).Nodup
  declared {u : ValueId} : u ∈ s.declared → p.Holds f u ∧ (p.value u).const = none
  defined {u : ValueId} : u ∈ s.definitions.map (·.1) → p.Holds f u
  both {u : ValueId} : u ∈ s.definitions.map (·.1) → (p.value u).const = none → u ∈ s.declared

theorem Script.Closed.owned (hs : s.Closed p cs target assertions)
    (hFactual : ∀ v, (constraintOf cs v).Factual (p.Holds f)) (hTarget : p.Holds f target)
    (hAssertions : ∀ t ∈ assertions, t.About (p.Holds f)) : s.Owned p f := by
  have hDefined {u : ValueId} (hu : u ∈ s.definitions.map (·.1)) : p.Holds f u := by
    obtain ⟨r, hr, hPath⟩ := (hs.reached u).mp hu
    rcases hPath.cases_tail with rfl | ⟨w, -, hStep⟩
    · rcases hr with rfl | hr
      · exact hTarget
      · exact about_leavesOf hAssertions u (.inl hr)
    · exact (hFactual w).about u (.inl hStep)
  refine ⟨hs.declaredOnce, hs.once, fun {u} hu => ?_, hDefined, fun {u} hu hNone =>
    (hs.declared u).mpr ⟨hNone, .inl hu⟩⟩
  obtain ⟨hNone, hu | ⟨t, ht, hu⟩⟩ := (hs.declared u).mp hu
  · exact ⟨hDefined hu, hNone⟩
  refine ⟨?_, hNone⟩
  rcases List.mem_append.mp ht with ht | ht
  · obtain ⟨⟨w, t⟩, hd, rfl⟩ := List.mem_map.mp ht
    obtain ⟨before, after, hSplit⟩ := List.append_of_mem hd
    rw [hs.body hSplit] at hu
    exact ((hFactual w).trim _).about u hu
  · rw [hs.asserted] at ht
    rcases List.mem_cons.mp ht with rfl | ht
    · obtain rfl : u = target := by simpa [Term.leaves] using hu
      exact hTarget
    · exact hAssertions t ht u hu

theorem nameText_of_none (h : (p.value v).const = none) :
    nameText p v = "|" ++ (p.valueText v ++ "|") := by
  unfold nameText
  rw [h]
  exact String.append_assoc ..

theorem refText_eq (p : Program) (v : ValueId) :
    refText p v = "|" ++ ("r" ++ p.valueText v ++ "|") := by
  unfold refText
  rw [show "|r" = "|" ++ "r" from rfl, String.append_assoc, String.append_assoc,
    String.append_assoc]

theorem nameText_inj (hv : (p.value v).const = none) (hw : (p.value w).const = none) :
    nameText p v = nameText p w ↔ p.valueText v = p.valueText w := by
  rw [nameText_of_none hv, nameText_of_none hw, String.append_right_inj, String.append_left_inj]

theorem refText_inj : refText p v = refText p w ↔ p.valueText v = p.valueText w := by
  rw [refText_eq, refText_eq, String.append_right_inj, String.append_left_inj,
    String.append_right_inj]

/-- A value has the symbol of a constraint only by its name, for numbers start with another
letter. -/
theorem nameText_eq_refText (hv : (p.value v).const = none) :
    nameText p v = refText p w ↔ (p.value v).name = "r" ++ p.valueText w := by
  rw [nameText_of_none hv, refText_eq, String.append_right_inj, String.append_left_inj]
  by_cases hName : (p.value v).name = ""
  · rw [valueText_of_unnamed hv hName, hName]
    constructor <;> intro h <;> have h := congrArg String.toList h <;> simp at h
  · rw [valueText_of_named hv hName]

theorem aliased_irrefl (h : p.Aliased v v) : False := by
  have h := congrArg String.toList (h.1.symm.trans h.2)
  simp at h

namespace Script.Owned

variable (hs : s.Owned p f) (hp : Decode.Labelled p)
include hs hp

theorem valueText_eq_iff (hu : u ∈ s.declared) (hw : w ∈ s.declared) :
    p.valueText u = p.valueText w ↔ u = w ∨ p.Aliased u w ∨ p.Aliased w u := by
  obtain ⟨⟨hu, hOwner⟩, hConst⟩ := hs.declared hu
  obtain ⟨⟨hw, hOwner'⟩, hConst'⟩ := hs.declared hw
  exact hp.valueText_eq_iff hu hw (hOwner.trans hOwner'.symm) hConst hConst'

theorem eq_of_declared (hApart : ¬ s.Clash p) (hu : u ∈ s.declared) (hw : w ∈ s.declared)
    (h : p.valueText u = p.valueText w) : u = w := by
  rcases (hs.valueText_eq_iff hp hu hw).mp h with hEq | hAlias | hAlias
  · exact hEq
  · exact absurd (.number hu hw hAlias) hApart
  · exact absurd (.number hw hu hAlias) hApart

/-- A constant has the text of another constant only, and the other values are declared. -/
theorem eq_of_defined (hApart : ¬ s.Clash p) (hu : u ∈ s.definitions.map (·.1))
    (hw : w ∈ s.definitions.map (·.1)) (h : p.valueText u = p.valueText w) : u = w := by
  cases hConst : (p.value u).const with
  | none =>
    cases hConst' : (p.value w).const with
    | none => exact hs.eq_of_declared hp hApart (hs.both hu hConst) (hs.both hw hConst') h
    | some n => exact absurd h.symm (hp.valueText_ne hConst' (hs.defined hu).1 hConst)
  | some m =>
    cases hConst' : (p.value w).const with
    | none => exact absurd h (hp.valueText_ne hConst (hs.defined hw).1 hConst')
    | some n =>
      cases (valueText_constants hConst hConst').mp h
      by_contra hNe
      exact hApart (.constants hu hw hNe hConst hConst')

theorem symbols_nodup (hApart : ¬ s.Clash p) : (s.symbols p).Nodup := by
  refine List.nodup_append.mpr ⟨?_, ?_, ?_⟩
  · refine (List.nodup_map_iff_inj_on hs.declaredOnce).mpr fun u hu w hw h => ?_
    exact hs.eq_of_declared hp hApart hu hw
      ((nameText_inj (hs.declared hu).2 (hs.declared hw).2).mp h)
  · refine (List.nodup_map_iff_inj_on hs.once).mpr fun u hu w hw h => ?_
    exact hs.eq_of_defined hp hApart hu hw (refText_inj.mp h)
  · rintro _ ha _ hb hEq
    obtain ⟨u, hu, rfl⟩ := List.mem_map.mp ha
    obtain ⟨w, hw, rfl⟩ := List.mem_map.mp hb
    exact hApart (.constraint hu hw ((nameText_eq_refText (hs.declared hu).2).mp hEq))

theorem not_clash (h : (s.symbols p).Nodup) : ¬ s.Clash p := by
  obtain ⟨hNames, hRefs, hDisjoint⟩ := List.nodup_append.mp h
  rw [List.nodup_map_iff_inj_on hs.declaredOnce] at hNames
  rw [List.nodup_map_iff_inj_on hs.once] at hRefs
  rintro (⟨hu, hw, hAlias⟩ | ⟨hu, hw, hName⟩ | ⟨hu, hw, hNe, hConst, hConst'⟩)
  · have hText := (hs.valueText_eq_iff hp hu hw).mpr (.inr (.inl hAlias))
    cases hNames _ hu _ hw ((nameText_inj (hs.declared hu).2 (hs.declared hw).2).mpr hText)
    exact aliased_irrefl hAlias
  · exact hDisjoint _ (List.mem_map_of_mem hu) _ (List.mem_map_of_mem hw)
      ((nameText_eq_refText (hs.declared hu).2).mpr hName)
  · exact hNe (hRefs _ hu _ hw (refText_inj.mpr ((valueText_constants hConst hConst').mpr rfl)))

end Script.Owned

/-- The script of a value of a decoded function introduces no symbol twice, exactly if no value of
it is named like the constraint of another or as an unnamed value is numbered, and no two constants
of one integer have constraints. -/
theorem symbols_nodup_iff {d : List Document.Func} (hDecode : decode d = .ok p)
    (hTarget : p.Holds f target) (hAssertions : ∀ t ∈ assertions, t.About (p.Holds f)) :
    ∃ s, script p target assertions = .ok s ∧ ((s.symbols p).Nodup ↔ ¬ s.Clash p) := by
  have hp := decode_labelled hDecode
  have hAccepted : p.Accepted := by
    have hAccepts := decode_accepts d
    rw [hDecode] at hAccepts
    exact hAccepts
  obtain ⟨cs, hcs, hWithin⟩ := constraints_gives hAccepted f
  have hWithin' (t : Term) (ht : t ∈ assertions) : t.Within p :=
    (Term.all_iff t).mpr fun w hw => (hAssertions t ht w (.inl hw)).1
  obtain ⟨e, hScript, hEmits⟩ := script_emits (hTarget.2 ▸ hcs) hWithin hTarget.1 hWithin'
  have hs := hEmits.closed.owned (factual_constraintOf (hp.confined hAccepted) hcs) hTarget
    hAssertions
  exact ⟨_, hScript, hs.not_clash hp, hs.symbols_nodup hp⟩

/-- A function that returns the sum of its two parameters. -/
def adding (first second : String) : Document.Func :=
  ⟨"f", false, [⟨first, "i8", none, none⟩, ⟨second, "i8", none, none⟩],
    [⟨"entry", [⟨"x", "add", "i8", [first, second], "", none, none⟩],
      ⟨"", none, "", "", "", [], "", none, some ["x"]⟩⟩]⟩

/-- The program of that function. -/
def addingProgram (first second : String) : Program :=
  ((decode [adding first second]).toOption).getD start

theorem decode_adding {first second : String}
    (h : (decode [adding first second]).toOption.isSome = true) :
    decode [adding first second] = .ok (addingProgram first second) := by
  unfold addingProgram
  revert h
  cases decode [adding first second] with
  | error e => nofun
  | ok p => exact fun _ => rfl

theorem symbols_of_script {p : Program} {symbols : List String} (hs : script p target [] = .ok s)
    (h : (script p target []).toOption.map (Script.symbols p) = some symbols) :
    s.symbols p = symbols := by
  rw [hs] at h
  exact Option.some.inj h

/-- Names that start like the symbols of constraints and unnamed values make no clash by that. -/
theorem adding_symbols_nodup : ∃ s, decode [adding "r" "v9"] = .ok (addingProgram "r" "v9") ∧
    (addingProgram "r" "v9").Holds 0 2 ∧ script (addingProgram "r" "v9") 2 [] = .ok s ∧
    (s.symbols (addingProgram "r" "v9")).Nodup ∧ ¬ s.Clash (addingProgram "r" "v9") := by
  have hDecode := decode_adding (show (decode [adding "r" "v9"]).toOption.isSome = true by
    decide +kernel)
  have hTarget : (addingProgram "r" "v9").Holds 0 2 := ⟨by decide +kernel, by decide +kernel⟩
  obtain ⟨s, hs, hIff⟩ := symbols_nodup_iff hDecode hTarget (List.forall_mem_nil _)
  have hSymbols := symbols_of_script hs
    (show _ = some ["|x|", "|r|", "|v9|", "|rr|", "|rv9|", "|rx|"] by decide +kernel)
  have hNodup : (s.symbols (addingProgram "r" "v9")).Nodup := by
    rw [hSymbols]
    decide
  exact ⟨s, hDecode, hTarget, hs, hNodup, hIff.mp hNodup⟩

/-- A parameter that is named as the constraint of the other is written is accepted, and its symbol
is introduced twice. -/
theorem adding_symbols_repeated : ∃ s, decode [adding "a" "ra"] = .ok (addingProgram "a" "ra") ∧
    (addingProgram "a" "ra").Holds 0 2 ∧ script (addingProgram "a" "ra") 2 [] = .ok s ∧
    s.symbols (addingProgram "a" "ra") = ["|x|", "|a|", "|ra|", "|ra|", "|rra|", "|rx|"] ∧
    ¬ (s.symbols (addingProgram "a" "ra")).Nodup := by
  have hDecode := decode_adding (show (decode [adding "a" "ra"]).toOption.isSome = true by
    decide +kernel)
  have hTarget : (addingProgram "a" "ra").Holds 0 2 := ⟨by decide +kernel, by decide +kernel⟩
  have hScript : (script (addingProgram "a" "ra") 2 []).toOption.map
      (Script.symbols (addingProgram "a" "ra")) =
        some ["|x|", "|a|", "|ra|", "|ra|", "|rra|", "|rx|"] := by decide +kernel
  cases hs : script (addingProgram "a" "ra") 2 [] with
  | error e =>
    rw [hs] at hScript
    cases hScript
  | ok s =>
    have hSymbols := symbols_of_script hs hScript
    refine ⟨s, hDecode, hTarget, rfl, hSymbols, ?_⟩
    rw [hSymbols]
    decide

end Symbols

end Smt

end ValueRange
