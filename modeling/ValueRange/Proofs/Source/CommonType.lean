import ValueRange.Proofs.Range.Conversion
import ValueRange.Source.Integer

/-! The representation of a type parameter. Whatever terms stand for the types that satisfy its
constraint, it has room for the values of all of them, and no integer type of fewer bits has. -/

namespace ValueRange

namespace IntType

variable {c t : IntType} {w : Int}

/-- Every value of `t` is one of `c`. -/
def Covers (c t : IntType) : Prop := ∀ n, t.Contains n → c.Contains n

/-- The type has room for the values of all the types, and no integer type of fewer bits has. -/
structure Tightest (r : IntType) (ts : List IntType) : Prop where
  covers : ∀ t ∈ ts, r.Covers t
  least : ∀ c : IntType, c.isInteger = true → (∀ t ∈ ts, c.Covers t) → r.signedWidth ≤ c.signedWidth

theorem covers_of_unsigned (hUnsigned : t.unsigned = true) (hw : t.width ≤ w) :
    Covers ⟨w, true⟩ t := by
  rintro n ⟨hl, hu⟩
  have hMono : pow2 t.width.toNat ≤ pow2 w.toNat := pow2_mono (by omega)
  simp only [minValue, maxValue, hUnsigned, if_true] at hl hu
  refine ⟨hl, ?_⟩
  simp only [maxValue, if_true]
  omega

/-- A signed type that is wide enough has room for a signed or an unsigned one. -/
theorem covers_of_signedWidth (hw : t.signedWidth ≤ w) : Covers (signed w) t := by
  rintro n ⟨hl, hu⟩
  have hPos := pow2_pos (w - 1).toNat
  unfold signedWidth at hw
  unfold minValue at hl
  unfold maxValue at hu
  cases hUnsigned : t.unsigned with
  | true =>
    rw [hUnsigned, if_pos rfl] at hw hl hu
    have hMono : pow2 t.width.toNat ≤ pow2 (w - 1).toNat := pow2_mono (by omega)
    constructor
    · simp only [signed, minValue, Bool.false_eq_true, if_false]
      omega
    · simp only [signed, maxValue, Bool.false_eq_true, if_false]
      omega
  | false =>
    rw [hUnsigned, if_neg Bool.false_ne_true] at hw hl hu
    have hMono : pow2 (t.width - 1).toNat ≤ pow2 (w - 1).toNat := pow2_mono (by omega)
    constructor
    · simp only [signed, minValue, Bool.false_eq_true, if_false]
      omega
    · simp only [signed, maxValue, Bool.false_eq_true, if_false]
      omega

/-- The least value of a signed type needs a signed type of at least as many bits. -/
theorem Covers.of_signed (h : c.Covers t) (hc : c.isInteger = true) (hSigned : t.unsigned = false) :
    c.unsigned = false ∧ t.width ≤ c.width := by
  have hWidth : 0 < c.width := of_decide_eq_true hc
  have hPos := pow2_pos (t.width - 1).toNat
  obtain ⟨hLow, -⟩ := h t.minValue ⟨Int.le_refl _, by
    simp only [minValue, maxValue, hSigned, Bool.false_eq_true, if_false]
    omega⟩
  unfold minValue at hLow
  rw [hSigned, if_neg Bool.false_ne_true] at hLow
  cases hUnsigned : c.unsigned with
  | true =>
    rw [hUnsigned, if_pos rfl] at hLow
    omega
  | false =>
    rw [hUnsigned, if_neg Bool.false_ne_true] at hLow
    refine ⟨rfl, Int.not_lt.mp fun hLt => ?_⟩
    have hMono : pow2 (c.width - 1).toNat < pow2 (t.width - 1).toNat := pow2_strictMono (by omega)
    omega

/-- The greatest value of an unsigned type needs one bit more in a signed type. -/
theorem Covers.of_unsigned (h : c.Covers t) (hc : c.isInteger = true) (ht : 0 ≤ t.width)
    (hUnsigned : t.unsigned = true) : t.signedWidth ≤ c.signedWidth := by
  have hWidth : 0 < c.width := of_decide_eq_true hc
  have hPos := pow2_pos t.width.toNat
  obtain ⟨-, hHigh⟩ := h t.maxValue ⟨by
    simp only [minValue, maxValue, hUnsigned, if_true]
    omega, Int.le_refl _⟩
  unfold maxValue at hHigh
  rw [hUnsigned, if_pos rfl] at hHigh
  refine Int.not_lt.mp fun hLt => ?_
  unfold signedWidth at hLt
  rw [hUnsigned, if_pos rfl] at hLt
  split at hLt
  case isTrue hc' =>
    rw [hc', if_pos rfl] at hHigh
    have hMono : pow2 c.width.toNat < pow2 t.width.toNat := pow2_strictMono (by omega)
    omega
  case isFalse hc' =>
    rw [if_neg hc'] at hHigh
    have hMono : pow2 (c.width - 1).toNat < pow2 t.width.toNat := pow2_strictMono (by omega)
    omega

theorem Covers.signedWidth_le (h : c.Covers t) (hc : c.isInteger = true) (ht : 0 ≤ t.width) :
    t.signedWidth ≤ c.signedWidth := by
  cases hUnsigned : t.unsigned with
  | true => exact h.of_unsigned hc ht hUnsigned
  | false =>
    obtain ⟨hSigned, hWidth⟩ := h.of_signed hc hUnsigned
    simpa only [signedWidth, hUnsigned, hSigned, Bool.false_eq_true, if_false] using hWidth

end IntType

namespace Source

open IntType

variable {ts ts' : List IntType}

/-! ### The census -/

namespace Census

theorem width_le_iff (c : Census) (bound : Int) :
    (ts.foldl add c).width ≤ bound ↔ c.width ≤ bound ∧ ∀ t ∈ ts, t.width ≤ bound := by
  induction ts generalizing c with
  | nil => simp
  | cons t ts ih =>
    rw [List.foldl_cons, ih, List.forall_mem_cons, ← and_assoc]
    refine and_congr_left' ?_
    simp only [add]
    split <;> omega

theorem signed_foldl (c : Census) :
    (ts.foldl add c).signed = (c.signed || ts.any fun t => !t.unsigned) := by
  induction ts generalizing c with
  | nil => simp
  | cons t ts ih => rw [List.foldl_cons, ih, List.any_cons, add, Bool.or_assoc]

theorem unsigned_foldl (c : Census) :
    (ts.foldl add c).unsigned = (c.unsigned || ts.any (·.unsigned)) := by
  induction ts generalizing c with
  | nil => simp
  | cons t ts ih => rw [List.foldl_cons, ih, List.any_cons, add, Bool.or_assoc]

end Census

/-- A width with room for the values of integer types in two's complement. -/
def roomFor (ts : List IntType) (width : Int) : Int :=
  ts.foldl (fun w t => if w < t.signedWidth then t.signedWidth else w) width

theorem roomFor_le_iff (width bound : Int) :
    roomFor ts width ≤ bound ↔ width ≤ bound ∧ ∀ t ∈ ts, t.signedWidth ≤ bound := by
  unfold roomFor
  induction ts generalizing width with
  | nil => simp
  | cons t ts ih =>
    rw [List.foldl_cons, ih, List.forall_mem_cons, ← and_assoc]
    refine and_congr_left' ?_
    split <;> omega

/-! ### The common type -/

/-- The type for the values of some integer types. -/
def commonType (ts : List IntType) : IntType :=
  let c := ts.foldl Census.add .start
  ⟨if c.signed && c.unsigned then roomFor ts c.width else c.width, c.unsigned && !c.signed⟩

theorem commonType_of_unsigned (hne : ts ≠ []) (h : ∀ t ∈ ts, t.unsigned = true) :
    ∃ w, commonType ts = ⟨w, true⟩ ∧
      ∀ bound, w ≤ bound ↔ 0 ≤ bound ∧ ∀ t ∈ ts, t.width ≤ bound := by
  obtain ⟨t, ht⟩ := List.exists_mem_of_ne_nil ts hne
  have hSigned : (ts.foldl Census.add .start).signed = false := by
    rw [Census.signed_foldl, Census.start, Bool.false_or, List.any_eq_false]
    intro t ht
    rw [h t ht]
    exact nofun
  have hUnsigned : (ts.foldl Census.add .start).unsigned = true := by
    rw [Census.unsigned_foldl, Census.start, Bool.false_or, List.any_eq_true]
    exact ⟨t, ht, h t ht⟩
  refine ⟨_, ?_, Census.width_le_iff .start⟩
  simp only [commonType, hSigned, hUnsigned, Bool.false_and, Bool.false_eq_true, if_false,
    Bool.not_false, Bool.and_self]

/-- With a signed type, every type needs its signed width. -/
theorem commonType_of_signed {t : IntType} (ht : t ∈ ts) (hSigned : t.unsigned = false) :
    ∃ w, commonType ts = signed w ∧
      ∀ bound, w ≤ bound ↔ 0 ≤ bound ∧ ∀ t ∈ ts, t.signedWidth ≤ bound := by
  have hLe (t : IntType) : t.width ≤ t.signedWidth := by
    unfold signedWidth
    split <;> omega
  have hSome : (ts.foldl Census.add .start).signed = true := by
    rw [Census.signed_foldl, Census.start, Bool.false_or, List.any_eq_true]
    exact ⟨t, ht, by rw [hSigned]; rfl⟩
  have hCommon : commonType ts = signed (if (ts.foldl Census.add .start).unsigned then
      roomFor ts (ts.foldl Census.add .start).width else (ts.foldl Census.add .start).width) := by
    simp only [commonType, hSome, Bool.true_and, Bool.not_true, Bool.and_false, signed]
  refine ⟨_, hCommon, fun bound => ?_⟩
  split
  · rw [roomFor_le_iff, Census.width_le_iff, and_assoc]
    refine and_congr_right fun _ => and_iff_right_of_imp fun h t ht => ?_
    exact Int.le_trans (hLe t) (h t ht)
  case isFalse hNone =>
    rw [Census.unsigned_foldl, Census.start, Bool.false_or, Bool.not_eq_true, List.any_eq_false]
      at hNone
    rw [Census.width_le_iff]
    refine and_congr_right fun _ => forall₂_congr fun t ht => ?_
    rw [signedWidth, if_neg (hNone t ht)]

theorem tightest_commonType (hne : ts ≠ []) (hWidths : ∀ t ∈ ts, 0 ≤ t.width) :
    (commonType ts).Tightest ts := by
  by_cases hUnsigned : ∀ t ∈ ts, t.unsigned = true
  · obtain ⟨w, hEq, hw⟩ := commonType_of_unsigned hne hUnsigned
    obtain ⟨-, hLe⟩ := (hw w).mp (Int.le_refl w)
    rw [hEq]
    refine ⟨fun t ht => covers_of_unsigned (hUnsigned t ht) (hLe t ht), fun c hc hCovers => ?_⟩
    obtain ⟨t, ht⟩ := List.exists_mem_of_ne_nil ts hne
    have hNeeds : w ≤ c.signedWidth - 1 := by
      rw [hw]
      refine ⟨?_, fun t ht => ?_⟩
      · have hWidth : 0 < c.width := of_decide_eq_true hc
        unfold signedWidth
        split <;> omega
      · have h := (hCovers t ht).of_unsigned hc (hWidths t ht) (hUnsigned t ht)
        rw [signedWidth, if_pos (hUnsigned t ht)] at h
        omega
    rw [signedWidth, if_pos rfl]
    dsimp only
    omega
  · simp only [not_forall, Bool.not_eq_true] at hUnsigned
    obtain ⟨s, hs, hSigned⟩ := hUnsigned
    obtain ⟨w, hEq, hw⟩ := commonType_of_signed hs hSigned
    obtain ⟨-, hLe⟩ := (hw w).mp (Int.le_refl w)
    rw [hEq]
    refine ⟨fun t ht => covers_of_signedWidth (hLe t ht), fun c hc hCovers => ?_⟩
    obtain ⟨hc', -⟩ := (hCovers s hs).of_signed hc hSigned
    change w ≤ c.signedWidth
    rw [hw]
    refine ⟨?_, fun t ht => (hCovers t ht).signedWidth_le hc (hWidths t ht)⟩
    rw [signedWidth, hc', if_neg Bool.false_ne_true]
    exact Int.le_of_lt (of_decide_eq_true hc)

/-- The common type depends only on which types there are. -/
theorem commonType_congr (h : ∀ t, t ∈ ts ↔ t ∈ ts') : commonType ts = commonType ts' := by
  have hAny (p : IntType → Bool) : ts.any p = ts'.any p := by
    rw [Bool.eq_iff_iff]
    simp only [List.any_eq_true, h]
  have hEq {w w' : Int} (hLe : ∀ bound, w ≤ bound ↔ w' ≤ bound) : w = w' :=
    Int.le_antisymm ((hLe w').mpr (Int.le_refl _)) ((hLe w).mp (Int.le_refl _))
  have hWidth : (ts.foldl Census.add .start).width = (ts'.foldl Census.add .start).width :=
    hEq fun bound => by simp only [Census.width_le_iff, h]
  have hRoom (w : Int) : roomFor ts w = roomFor ts' w :=
    hEq fun bound => by simp only [roomFor_le_iff, h]
  simp only [commonType, Census.signed_foldl, Census.unsigned_foldl, hAny, hWidth, hRoom]

/-! ### Type parameters -/

/-- An integer type is as wide as its name or its platform says. -/
theorem TypeTerm.width_nonneg {platform : Platform} {t : TypeTerm} {own : IntType}
    (h : t.integer? platform = some own) : 0 ≤ own.width := by
  unfold integer? Ty.plainInteger? at h
  split at h
  case h_1 b _ =>
    cases b with
    | sized bits unsigned =>
      cases h
      exact Int.natCast_nonneg bits
    | word unsigned | address =>
      cases h
      exact Int.natCast_nonneg platform.wordBits
    | invalid | other name => cases h
  case h_2 => cases h

/-- How the types of terms are represented, where they are integers. -/
def TypeTerm.integers (platform : Platform) (terms : List TypeTerm) : List IntType :=
  terms.filterMap (integer? platform)

variable {platform : Platform} {terms terms' : List TypeTerm}

theorem TypeTerm.integers_cons {t : TypeTerm} {own : IntType} (h : t.integer? platform = some own)
    (terms : List TypeTerm) : integers platform (t :: terms) = own :: integers platform terms :=
  List.filterMap_cons_some h

/-- Terms of integer types are all counted. -/
theorem foldlM_count (c : Census) (h : ∀ t ∈ terms, (t.integer? platform).isSome = true) :
    terms.foldlM (fun c t => c.count platform (some t)) c =
      some ((TypeTerm.integers platform terms).foldl Census.add c) := by
  induction terms generalizing c with
  | nil => rfl
  | cons t terms ih =>
    obtain ⟨own, hOwn⟩ := Option.isSome_iff_exists.mp (h t List.mem_cons_self)
    rw [List.foldlM_cons, Census.count, hOwn, Option.map_some, TypeTerm.integers_cons hOwn,
      List.foldl_cons]
    exact ih _ fun u hu => h u (List.mem_cons_of_mem t hu)

theorem foldl_makeRoom (w : Int) (h : ∀ t ∈ terms, (t.integer? platform).isSome = true) :
    terms.foldl (makeRoom platform) w = roomFor (TypeTerm.integers platform terms) w := by
  unfold roomFor
  induction terms generalizing w with
  | nil => rfl
  | cons t terms ih =>
    obtain ⟨own, hOwn⟩ := Option.isSome_iff_exists.mp (h t List.mem_cons_self)
    rw [List.foldl_cons, TypeTerm.integers_cons hOwn, List.foldl_cons,
      ih _ fun u hu => h u (List.mem_cons_of_mem t hu), makeRoom, hOwn, Option.getD_some]

theorem commonType?_of_integers (hne : terms ≠ [])
    (h : ∀ t ∈ terms, (t.integer? platform).isSome = true) :
    commonType? platform terms = some (commonType (TypeTerm.integers platform terms)) := by
  have hNonempty : ¬ terms.isEmpty = true := fun hNil => hne (List.isEmpty_iff.mp hNil)
  rw [commonType?, TypeTerm.all?, if_neg hNonempty, foldlM_count _ h, Option.map_some]
  simp only [foldl_makeRoom _ h]
  rfl

/-- A term of another type ends the count. -/
theorem foldlM_count_of_not_integer (c : Census) {t : TypeTerm} (ht : t ∈ terms)
    (h : t.integer? platform = none) :
    terms.foldlM (fun c t => c.count platform (some t)) c = none := by
  induction terms generalizing c with
  | nil => cases ht
  | cons u terms ih =>
    rw [List.foldlM_cons, Census.count]
    cases hOwn : u.integer? platform with
    | none => rfl
    | some own =>
      refine ih _ ((List.mem_cons.mp ht).resolve_left ?_)
      rintro rfl
      cases h.symm.trans hOwn

theorem commonType?_nil (platform : Platform) : commonType? platform [] = none := rfl

theorem commonType?_of_not_integer {t : TypeTerm} (ht : t ∈ terms)
    (h : t.integer? platform = none) : commonType? platform terms = none := by
  have hNonempty : ¬ terms.isEmpty = true := fun hNil =>
    List.ne_nil_of_mem ht (List.isEmpty_iff.mp hNil)
  rw [commonType?, TypeTerm.all?, if_neg hNonempty, foldlM_count_of_not_integer _ ht h,
    Option.map_none]

/-- The common type of terms depends only on which terms there are. -/
theorem commonType?_congr (h : ∀ t, t ∈ terms ↔ t ∈ terms') :
    commonType? platform terms = commonType? platform terms' := by
  by_cases hAll : ∀ t ∈ terms, (t.integer? platform).isSome = true
  · by_cases hNil : terms = []
    · have hNil' : terms' = [] := List.eq_nil_iff_forall_not_mem.mpr fun t ht => by
        rw [← h, hNil] at ht
        cases ht
      rw [hNil, hNil']
    · obtain ⟨t, ht⟩ := List.exists_mem_of_ne_nil terms hNil
      have hne' : terms' ≠ [] := List.ne_nil_of_mem ((h t).mp ht)
      rw [commonType?_of_integers hNil hAll,
        commonType?_of_integers hne' fun t ht => hAll t ((h t).mpr ht)]
      refine congrArg some (commonType_congr fun own => ?_)
      simp only [TypeTerm.integers, List.mem_filterMap, h]
  · simp only [not_forall, Bool.not_eq_true, Option.isSome_eq_false_iff, Option.isNone_iff_eq_none]
      at hAll
    obtain ⟨t, ht, hNone⟩ := hAll
    rw [commonType?_of_not_integer ht hNone, commonType?_of_not_integer ((h t).mp ht) hNone]

/-- Whatever terms a type parameter has: if there are some and their types are integer types, it is
represented by the tightest integer type that has room for all of them. It is not represented if
there are no terms, if one is of another type, or if its constraint has no terms to give. The order of
the terms does not matter. -/
theorem Ty.param_tightest (platform : Platform) (terms : List TypeTerm) (constraint : Ty)
    (normalTerms : Ty → Option (List TypeTerm)) (hTerms : normalTerms constraint = some terms) :
    (terms ≠ [] → (∀ t ∈ terms, (t.integer? platform).isSome = true) →
      ∃ r, (Ty.param constraint).integer? normalTerms platform = some r ∧
        r.Tightest (TypeTerm.integers platform terms)) ∧
    ((terms = [] ∨ ∃ t ∈ terms, t.integer? platform = none) →
      (Ty.param constraint).integer? normalTerms platform = none) ∧
    (∀ (other : Ty) (terms' : List TypeTerm) (normalTerms' : Ty → Option (List TypeTerm)),
      normalTerms' other = some terms' → terms'.Perm terms →
        (Ty.param other).integer? normalTerms' platform =
          (Ty.param constraint).integer? normalTerms platform) ∧
    ∀ other : Ty, normalTerms other = none →
      (Ty.param other).integer? normalTerms platform = none := by
  have hParam {c : Ty} {ts : List TypeTerm} {normal : Ty → Option (List TypeTerm)}
      (h : normal c = some ts) : (Ty.param c).integer? normal platform = commonType? platform ts := by
    rw [integer?, h, Option.bind_some]
  rw [hParam hTerms]
  refine ⟨fun hne hAll => ?_, fun h => ?_, fun other terms' normalTerms' h' hPerm => ?_,
    fun other hNone => ?_⟩
  · refine ⟨_, commonType?_of_integers hne hAll, tightest_commonType ?_ fun own hOwn => ?_⟩
    · obtain ⟨t, ht⟩ := List.exists_mem_of_ne_nil terms hne
      obtain ⟨own, hOwn⟩ := Option.isSome_iff_exists.mp (hAll t ht)
      exact List.ne_nil_of_mem (List.mem_filterMap.mpr ⟨t, ht, hOwn⟩)
    · obtain ⟨t, -, ht⟩ := List.mem_filterMap.mp hOwn
      exact t.width_nonneg ht
  · rcases h with rfl | ⟨t, ht, hNone⟩
    · exact commonType?_nil platform
    · exact commonType?_of_not_integer ht hNone
  · rw [hParam h']
    exact commonType?_congr fun t => hPerm.mem_iff
  · rw [integer?, hNone, Option.bind_none]

/-- Terms for signed words, bytes, and the types that are made of unsigned integers of 64 bits. -/
def mixedTerms : List TypeTerm :=
  [⟨false, .basic (.word false)⟩, ⟨false, .basic (.sized 8 true)⟩, ⟨true, .basic (.sized 64 true)⟩]

/-- The greatest unsigned value needs 65 bits among signed ones, in any order of the terms. -/
theorem mixedTerms_tightest :
    (∀ t ∈ mixedTerms, (t.integer? ⟨64⟩).isSome = true) ∧
      (Ty.param default).integer? (fun _ => some mixedTerms) ⟨64⟩ = some (.signed 65) ∧
      (IntType.signed 65).Tightest [⟨64, false⟩, ⟨8, true⟩, ⟨64, true⟩] ∧
      (Ty.param default).integer? (fun _ => some mixedTerms.reverse) ⟨64⟩ = some (.signed 65) := by
  have hAll : ∀ t ∈ mixedTerms, (t.integer? ⟨64⟩).isSome = true := by decide +kernel
  have hSigned : (Ty.param default).integer? (fun _ => some mixedTerms) ⟨64⟩ = some (.signed 65) := by
    decide +kernel
  obtain ⟨hTightest, -, hOrder, -⟩ :=
    Ty.param_tightest ⟨64⟩ mixedTerms default (fun _ => some mixedTerms) rfl
  obtain ⟨r, hr, hRoom⟩ := hTightest (by decide +kernel) hAll
  cases hr.symm.trans hSigned
  have hReversed := hOrder default mixedTerms.reverse (fun _ => some mixedTerms.reverse) rfl
    (List.reverse_perm _)
  exact ⟨hAll, hSigned, hRoom, hReversed.trans hSigned⟩

end Source

end ValueRange
