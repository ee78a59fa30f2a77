import Mathlib.Data.List.Nodup
import Mathlib.Dynamics.FixedPoints.Basic
import ValueRange.Files

/-! The directories above a directory. Going up from a directory makes its path shorter until it
stays the same, so that the way up ends, and it passes no directory twice. -/

namespace ValueRange.Path

variable {p : String} {cs stack : List String} {xs ys : List Char}

/-! ### Lengths of paths -/

/-- The characters of components, each with a slash. -/
def weight : List String → Nat
  | [] => 0
  | c :: cs => c.length + 1 + weight cs

theorem weight_nil : weight [] = 0 := rfl

theorem weight_cons (c : String) (cs : List String) : weight (c :: cs) = c.length + 1 + weight cs :=
  rfl

theorem weight_append (cs ds : List String) : weight (cs ++ ds) = weight cs + weight ds := by
  induction cs with
  | nil => rw [List.nil_append, weight_nil, Nat.zero_add]
  | cons c cs ih => rw [List.cons_append, weight_cons, weight_cons, ih, Nat.add_assoc _ (weight cs)]

theorem weight_reverse (cs : List String) : weight cs.reverse = weight cs := by
  induction cs with
  | nil => rfl
  | cons c cs ih =>
    rw [List.reverse_cons, weight_append, ih, weight_cons, weight_cons, weight_nil, Nat.add_zero,
      Nat.add_comm]

/-- There is no slash after the last component. -/
theorem length_intercalate (h : cs ≠ []) : ("/".intercalate cs).length + 1 = weight cs := by
  have hChars (c : String) (cs : List String) :
      (['/'].intercalate ((c :: cs).map String.toList)).length + 1 = weight (c :: cs) := by
    induction cs generalizing c with
    | nil => simp [weight, String.length_toList]
    | cons d cs ih =>
      have hRest := ih d
      rw [List.map_cons] at hRest ⊢
      rw [List.map_cons, List.intercalate_cons_cons, List.length_append, List.length_append,
        weight_cons, ← hRest, List.length_singleton, String.length_toList]
      omega
  cases cs with
  | nil => exact absurd rfl h
  | cons c cs =>
    rw [← String.length_toList, String.toList_intercalate]
    exact hChars c cs

theorem intercalate_components (p : String) : "/".intercalate (components p) = p := by
  refine String.toList_inj.mp ?_
  rw [String.toList_intercalate, components, List.map_map]
  have hId : String.toList ∘ String.ofList = id := by
    funext cs
    exact String.toList_ofList
  rw [hId, List.map_id]
  exact List.intercalate_splitOn '/'

theorem components_ne_nil (p : String) : components p ≠ [] := fun h =>
  List.splitOn_ne_nil '/' p.toList (List.map_eq_nil_iff.mp h)

theorem weight_components (p : String) : weight (components p) = p.length + 1 := by
  rw [← length_intercalate (components_ne_nil p), intercalate_components]

/-- A component adds at most itself, and an empty one adds nothing. -/
theorem weight_push_le (rooted : Bool) (stack : List String) (c : String) :
    weight (push rooted stack c) + [c].count "" ≤ weight stack + (c.length + 1) := by
  unfold push
  by_cases hEmpty : c = ""
  · rw [if_pos (.inl hEmpty), hEmpty]
    exact Nat.le_refl _
  have hCount : [c].count "" = 0 := by
    rw [List.count_singleton, beq_eq_false_iff_ne.mpr hEmpty]
    rfl
  rw [hCount]
  split
  · omega
  · split
    case isTrue hUp =>
      subst hUp
      have hTwo : "..".length = 2 := by decide
      split
      · split
        · omega
        · rw [weight_cons, weight_nil]
          omega
      · split
        · rw [weight_cons]
          omega
        · rw [weight_cons]
          omega
    case isFalse =>
      rw [weight_cons]
      omega

theorem weight_foldl_push_le (rooted : Bool) (cs stack : List String) :
    weight (cs.foldl (push rooted) stack) + cs.count "" ≤ weight stack + weight cs := by
  induction cs generalizing stack with
  | nil => exact Nat.le_refl _
  | cons c cs ih =>
    have hPush := weight_push_le rooted stack c
    have hRest := ih (push rooted stack c)
    rw [List.foldl_cons, weight_cons, List.count_cons]
    rw [List.count_singleton] at hPush
    omega

/-- A path is not cleaned to nothing. -/
theorem clean_ne_empty (p : String) : clean p ≠ "" := by
  unfold clean
  dsimp only
  split
  · intro h
    have hLength := congrArg String.length h
    rw [String.length_append] at hLength
    have hOne : "/".length = 1 := by decide
    have hZero : "".length = 0 := by decide
    omega
  · split
    · decide
    · assumption

/-- A clean path has no empty components, except for the one that stands before the first slash. -/
theorem length_clean (p : String) : (clean p).length ≤ 1 ∨
    (clean p).length + (components p).count "" ≤
      p.length + if p.toList.head? = some '/' then 1 else 0 := by
  have hWeight := weight_foldl_push_le (p.toList.head? = some '/') (components p) []
  rw [weight_components, weight_nil] at hWeight
  unfold clean
  dsimp only
  generalize (components p).foldl (push (p.toList.head? = some '/')) [] = stack at hWeight ⊢
  have hOne : "/".length = 1 := by decide
  by_cases hStack : stack = []
  · left
    subst hStack
    split <;> decide
  · have hBody := length_intercalate (List.reverse_ne_nil_iff.mpr hStack)
    rw [weight_reverse] at hBody
    split
    · right
      rw [String.length_append]
      omega
    · split
      · left
        decide
      · right
        omega

/-! ### Parents -/

theorem parent_of_no_slash (h : '/' ∉ p.toList) : parent p = "." := by
  have hComponents : components p = [p] := by
    rw [components, List.splitOn_eq_singleton h, List.map_singleton, String.ofList_toList]
  have hContains : p.toList.contains '/' = false := by simpa using h
  rw [parent, hComponents, hContains]
  exact (by decide : clean ("/".intercalate [] ++ "") = ".")

/-- The parent is what stands up to the last slash, in its clean form. -/
theorem parent_of_slash (hp : p.toList = xs ++ '/' :: ys) (h : '/' ∉ ys) :
    parent p = clean (String.ofList (xs ++ ['/'])) := by
  have hComponents : components p = (xs.splitOn '/').map String.ofList ++ [String.ofList ys] := by
    rw [components, hp, List.splitOn_append_cons_self, List.splitOn_eq_singleton h, List.map_append,
      List.map_singleton]
  have hContains : p.toList.contains '/' = true := by simp [hp]
  have hFront : "/".intercalate ((xs.splitOn '/').map String.ofList) = String.ofList xs := by
    have := intercalate_components (String.ofList xs)
    rwa [components, String.toList_ofList] at this
  rw [parent, hComponents, List.dropLast_concat, hContains, hFront, if_pos rfl, String.ofList_append]

/-- The part of a path up to its last slash ends in an empty component, and starts with another one
if it starts with a slash. -/
theorem count_components (xs : List Char) :
    (if (xs ++ ['/']).head? = some '/' then 2 else 1) ≤
      (components (String.ofList (xs ++ ['/']))).count "" := by
  have hComponents : components (String.ofList (xs ++ ['/'])) =
      (xs.splitOn '/').map String.ofList ++ [""] := by
    rw [components, String.toList_ofList, List.splitOn_append_cons_self, List.splitOn_nil,
      List.map_append, List.map_singleton, show String.ofList [] = "" from rfl]
  rw [hComponents, List.count_append, List.count_singleton_self]
  cases xs with
  | nil => decide
  | cons x xs =>
    rw [List.cons_append, List.head?_cons]
    split
    case isTrue hx =>
      cases hx
      rw [List.splitOn_cons_eq_if_modifyHead, if_pos (beq_self_eq_true _), List.map_cons,
        show String.ofList [] = "" from rfl, List.count_cons_self]
      omega
    case isFalse => omega

/-- The parent of a path is the current directory, the path itself, or shorter. -/
theorem parent_cases (p : String) :
    parent p = "." ∨ parent p = p ∨ (parent p).length < p.length := by
  by_cases hSlash : '/' ∈ p.toList
  · obtain ⟨ys, xs, hRev, hLast⟩ := List.eq_append_cons_of_mem (List.mem_reverse.mpr hSlash)
    have hChars : p.toList = xs.reverse ++ '/' :: ys.reverse := by
      rw [← List.reverse_reverse p.toList, hRev, List.reverse_append, List.reverse_cons,
        List.append_assoc, List.singleton_append]
    have hLength : p.length = xs.length + 1 + ys.length := by
      rw [← String.length_toList, hChars]
      simp only [List.length_append, List.length_cons, List.length_reverse]
      omega
    have hParent := parent_of_slash hChars fun h => hLast (List.mem_reverse.mp h)
    have hCount := count_components xs.reverse
    have hFront : (String.ofList (xs.reverse ++ ['/'])).length = xs.length + 1 := by
      rw [String.length_ofList, List.length_append, List.length_reverse, List.length_singleton]
    rw [hParent]
    rcases length_clean (String.ofList (xs.reverse ++ ['/'])) with hShort | hShort
    · by_cases hOne : xs = [] ∧ ys = []
      · -- the root is its own parent
        obtain ⟨rfl, rfl⟩ := hOne
        have hRoot : p = "/" := String.toList_inj.mp hChars
        rw [hRoot]
        decide
      · refine .inr (.inr (Nat.lt_of_le_of_lt hShort ?_))
        have : xs.length ≠ 0 ∨ ys.length ≠ 0 := by
          rw [Ne, Ne, List.length_eq_zero_iff, List.length_eq_zero_iff]
          exact not_and_or.mp hOne
        omega
    · rw [String.toList_ofList, hFront] at hShort
      refine .inr (.inr ?_)
      split at hShort
      case isTrue hRooted =>
        rw [if_pos hRooted] at hCount
        omega
      case isFalse hRooted =>
        rw [if_neg hRooted] at hCount
        omega
  · exact .inl (parent_of_no_slash hSlash)

theorem parent_dot : parent "." = "." := by decide

/-! ### The way up -/

/-- The way up from a directory: the directories that going up leads to, up to the first one that is
above itself. -/
structure WayUp (dir : String) (dirs : List String) (last : Nat) : Prop where
  eq : dirs = (List.range (last + 1)).map fun k => parent^[k] dir
  top : Function.IsFixedPt parent (parent^[last] dir)
  first : ∀ k < last, ¬ Function.IsFixedPt parent (parent^[k] dir)

theorem WayUp.single {dir : String} (h : parent dir = dir) : WayUp dir [dir] 0 :=
  ⟨rfl, h, nofun⟩

theorem WayUp.cons {dir : String} {dirs : List String} {last : Nat} (h : parent dir ≠ dir)
    (hUp : WayUp (parent dir) dirs last) : WayUp dir (dir :: dirs) (last + 1) := by
  refine ⟨?_, hUp.top, fun k hk => ?_⟩
  · rw [List.range_succ_eq_map, List.map_cons, List.map_map, hUp.eq]
    rfl
  · cases k with
    | zero => exact h
    | succ k => exact hUp.first k (Nat.lt_of_succ_lt_succ hk)

/-- There are enough steps to come to the top. -/
theorem exists_wayUp_within (steps : Nat) {dir : String} (hDir : dir ≠ "")
    (hSteps : dir.length < steps) : ∃ last, WayUp dir (ancestorsWithin steps dir) last := by
  induction steps generalizing dir with
  | zero => cases hSteps
  | succ steps ih =>
    rw [ancestorsWithin]
    by_cases hTop : parent dir = dir
    · rw [if_pos hTop]
      exact ⟨0, .single hTop⟩
    rw [if_neg hTop]
    rcases parent_cases dir with hDot | hSame | hShorter
    · have hPos : dir.length ≠ 0 := fun h => hDir (String.length_eq_zero_iff.mp h)
      obtain ⟨k, rfl⟩ : ∃ k, steps = k + 1 := ⟨steps - 1, by omega⟩
      refine ⟨1, .cons hTop ?_⟩
      rw [hDot, ancestorsWithin, if_pos parent_dot]
      exact .single parent_dot
    · exact absurd hSame hTop
    · obtain ⟨last, hUp⟩ := @ih (parent dir) (clean_ne_empty _) (by omega)
      exact ⟨last + 1, hUp.cons hTop⟩

theorem exists_wayUp {dir : String} (hDir : dir ≠ "") :
    ∃ last, WayUp dir (ancestors dir) last :=
  exists_wayUp_within (dir.length + 2) hDir (by omega)

variable {dir : String} {dirs : List String} {last : Nat}

theorem WayUp.eq_iterate (h : WayUp dir dirs last) {k : Nat} {d : String} (hd : dirs[k]? = some d) :
    d = parent^[k] dir := by
  rw [h.eq, List.getElem?_map] at hd
  obtain ⟨j, hj, rfl⟩ := Option.map_eq_some_iff.mp hd
  obtain ⟨hlt, rfl⟩ := List.getElem?_eq_some_iff.mp hj
  rw [List.getElem_range]

/-- Above the top, going up leads nowhere else. -/
theorem WayUp.iterate_of_le (h : WayUp dir dirs last) {k : Nat} (hk : last ≤ k) :
    parent^[k] dir = parent^[last] dir := by
  obtain ⟨j, rfl⟩ := Nat.exists_eq_add_of_le' hk
  rw [Function.iterate_add_apply]
  exact h.top.iterate j

theorem WayUp.mem_iff (h : WayUp dir dirs last) (d : String) :
    d ∈ dirs ↔ ∃ k, d = parent^[k] dir := by
  rw [h.eq, List.mem_map]
  constructor
  · rintro ⟨k, -, rfl⟩
    exact ⟨k, rfl⟩
  · rintro ⟨k, rfl⟩
    rcases Nat.le_total k last with hk | hk
    · exact ⟨k, List.mem_range.mpr (by omega), rfl⟩
    · exact ⟨last, List.mem_range.mpr (by omega), (h.iterate_of_le hk).symm⟩

/-- A directory that was passed twice would be passed again and again, and never be the top. -/
theorem WayUp.nodup (h : WayUp dir dirs last) : dirs.Nodup := by
  have hNe {i j : Nat} (hij : i < j) (hj : j ≤ last) : parent^[i] dir ≠ parent^[j] dir := by
    intro hSame
    refine h.first (last - j + i) (by omega) ?_
    have hTop : parent^[last - j + i] dir = parent^[last] dir := by
      rw [Function.iterate_add_apply, hSame, ← Function.iterate_add_apply]
      congr 2
      omega
    rw [hTop]
    exact h.top
  rw [h.eq]
  refine List.Nodup.map_on (fun i hi j hj hSame => ?_) List.nodup_range
  rw [List.mem_range] at hi hj
  rcases Nat.lt_trichotomy i j with hlt | hEq | hgt
  · exact absurd hSame (hNe hlt (by omega))
  · exact hEq
  · exact absurd hSame.symm (hNe hgt (by omega))

end ValueRange.Path
