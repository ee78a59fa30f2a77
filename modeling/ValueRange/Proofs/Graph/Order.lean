import Mathlib.Data.Finset.Card
import Mathlib.Data.Finset.Max
import ValueRange.Proofs.Graph.Traversal

/-! Putting components in order. Of the places that are not done, each counts those that lead to it,
and the queue holds the places with a count of zero. Where every place leads to lower places only,
the highest place that is not done is always ready, so that all places get their turn. -/

namespace ValueRange.Graph

/-! ### Places -/

/-- The places of the nodes of all but the last component do not depend on it. -/
theorem places_append (size : Nat) (comps : List (List NodeId)) (c : List NodeId) :
    places size (comps ++ [c]) =
      c.foldl (fun acc n => acc.set! n comps.length) (places size comps) := by
  simp [places, List.zipIdx_append]

theorem size_places (size : Nat) (comps : List (List NodeId)) : (places size comps).size = size := by
  induction comps using List.reverseRecOn with
  | nil => exact Array.size_replicate
  | append_singleton comps c ih => rw [places_append, Search.size_setAll, ih]

/-- The place of a node is that of the component it stands in. -/
theorem places_eq {size : Nat} {comps : List (List NodeId)} (hNodup : comps.flatten.Nodup)
    (hLt : ∀ n ∈ comps.flatten, n < size) {i : Nat} {c : List NodeId} {n : NodeId}
    (hc : comps[i]? = some c) (hn : n ∈ c) : (places size comps).getD n 0 = i := by
  induction comps using List.reverseRecOn with
  | nil => simp at hc
  | append_singleton comps last ih =>
    rw [List.flatten_append, List.flatten_singleton] at hNodup hLt
    obtain ⟨hFront, -, hApart⟩ := List.nodup_append.mp hNodup
    rw [places_append, Search.getD_setAll, size_places]
    rcases Nat.lt_trichotomy i comps.length with hi | hi | hi
    · rw [List.getElem?_append_left hi] at hc
      have hFlat : n ∈ comps.flatten := List.mem_flatten.mpr ⟨c, List.mem_of_getElem? hc, hn⟩
      rw [if_neg fun h => hApart n hFlat n h.1 rfl]
      exact ih hFront (fun m hm => hLt m (List.mem_append_left _ hm)) hc
    · subst hi
      rw [List.getElem?_concat_length] at hc
      cases hc
      rw [if_pos ⟨hn, hLt n (List.mem_append_right _ hn)⟩]
    · rw [List.getElem?_eq_none (by simp; omega)] at hc
      cases hc

/-- Collecting what is not passed over, each once. -/
theorem collect_spec {P : Nat → Prop} {f : List Nat → Nat → List Nat}
    (hf : ∀ acc k, (f acc k = acc ∧ (P k ∨ k ∈ acc)) ∨ (f acc k = acc ++ [k] ∧ ¬ P k ∧ k ∉ acc))
    (js acc : List Nat) (hAcc : acc.Nodup) :
    (js.foldl f acc).Nodup ∧ ∀ j, j ∈ js.foldl f acc ↔ j ∈ acc ∨ (¬ P j ∧ j ∈ js) := by
  induction js generalizing acc with
  | nil => simpa using hAcc
  | cons k js ih =>
    rw [List.foldl_cons]
    rcases hf acc k with ⟨hSame, hk⟩ | ⟨hMore, hk, hNew⟩
    · rw [hSame]
      refine ⟨(ih acc hAcc).1, fun j => ?_⟩
      rw [(ih acc hAcc).2, List.mem_cons]
      constructor
      · rintro (hj | ⟨hne, hj⟩)
        · exact .inl hj
        · exact .inr ⟨hne, .inr hj⟩
      · rintro (hj | ⟨hne, rfl | hj⟩)
        · exact .inl hj
        · exact .inl (hk.resolve_left hne)
        · exact .inr ⟨hne, hj⟩
    · rw [hMore]
      have hNodup : (acc ++ [k]).Nodup := by
        rw [List.nodup_append]
        refine ⟨hAcc, List.nodup_singleton k, fun a ha b hb hab => hNew ?_⟩
        rw [← List.mem_singleton.mp hb, ← hab]
        exact ha
      refine ⟨(ih _ hNodup).1, fun j => ?_⟩
      rw [(ih _ hNodup).2, List.mem_append, List.mem_singleton, List.mem_cons]
      constructor
      · rintro ((hj | rfl) | ⟨hne, hj⟩)
        · exact .inl hj
        · exact .inr ⟨hk, .inl rfl⟩
        · exact .inr ⟨hne, .inr hj⟩
      · rintro (hj | ⟨hne, rfl | hj⟩)
        · exact .inl (.inl hj)
        · exact .inl (.inr rfl)
        · exact .inr ⟨hne, hj⟩

/-- A component leads to each other component once. -/
theorem componentSuccessors_spec (g : Graph) (place : Array Nat) (i : Nat) (comp : List NodeId) :
    (g.componentSuccessors place i comp).Nodup ∧ ∀ j, j ∈ g.componentSuccessors place i comp ↔
      j ∈ [] ∨ (¬ j = i ∧ j ∈ (comp.flatMap g.successors).map (place.getD · 0)) := by
  refine collect_spec (fun acc k => ?_) _ [] .nil
  by_cases hk : k = i ∨ k ∈ acc
  · exact .inl ⟨if_pos hk, hk⟩
  · exact .inr ⟨if_neg hk, not_or.mp hk⟩

theorem nodup_componentSuccessors (g : Graph) (place : Array Nat) (i : Nat) (comp : List NodeId) :
    (g.componentSuccessors place i comp).Nodup :=
  (g.componentSuccessors_spec place i comp).1

/-- The places that a component leads to, without its own. -/
theorem mem_componentSuccessors (g : Graph) (place : Array Nat) (i : Nat) (comp : List NodeId)
    (j : Nat) : j ∈ g.componentSuccessors place i comp ↔
      j ≠ i ∧ ∃ n ∈ comp, ∃ m ∈ g.successors n, place.getD m 0 = j := by
  refine ((g.componentSuccessors_spec place i comp).2 j).trans ?_
  simp only [List.not_mem_nil, false_or, List.mem_map, List.mem_flatMap]
  refine and_congr_right fun _ => ?_
  constructor
  · rintro ⟨m, ⟨n, hn, hm⟩, hj⟩
    exact ⟨n, hn, m, hm, hj⟩
  · rintro ⟨n, hn, m, hm, hj⟩
    exact ⟨m, ⟨n, hn, hm⟩, hj⟩

/-! ### Counting -/

/-- Counting the members of a list of places. -/
theorem getD_countIn (js : List Nat) (acc : Array Nat) (j : Nat) :
    (js.foldl (fun acc j => acc.modify j (· + 1)) acc).getD j 0 =
      acc.getD j 0 + if j < acc.size then js.count j else 0 := by
  induction js generalizing acc with
  | nil => simp
  | cons k js ih =>
    rw [List.foldl_cons, ih, Array.size_modify]
    simp only [Array.getD_eq_getD_getElem?, Array.getElem?_modify, List.count_cons]
    by_cases hj : j < acc.size
    · by_cases hk : k = j
      · subst hk
        simp [hj]
        omega
      · simp [hj, hk]
    · by_cases hk : k = j <;> simp [hj, hk]

theorem size_countIn (js : List Nat) (acc : Array Nat) :
    (js.foldl (fun acc j => acc.modify j (· + 1)) acc).size = acc.size := by
  induction js generalizing acc with
  | nil => rfl
  | cons k js ih => rw [List.foldl_cons, ih, Array.size_modify]

/-- Counting the lists that hold a place, each of which does so once. -/
theorem getD_countAll (next : List (List Nat)) (hNodup : ∀ js ∈ next, js.Nodup) (acc : Array Nat)
    {j : Nat} (hj : j < acc.size) :
    (next.foldl (fun acc js => js.foldl (fun acc j => acc.modify j (· + 1)) acc) acc).getD j 0 =
      acc.getD j 0 + next.countP (decide <| j ∈ ·) := by
  induction next generalizing acc with
  | nil => rfl
  | cons js next ih =>
    rw [List.foldl_cons, ih (fun k hk => hNodup k (List.mem_cons_of_mem js hk)) _
      (by rw [size_countIn]; exact hj), getD_countIn, if_pos hj, List.countP_cons,
      (hNodup js List.mem_cons_self).count]
    simp only [decide_eq_true_eq]
    omega

theorem size_countAll (next : List (List Nat)) (acc : Array Nat) :
    (next.foldl (fun acc js => js.foldl (fun acc j => acc.modify j (· + 1)) acc) acc).size =
      acc.size := by
  induction next generalizing acc with
  | nil => rfl
  | cons js next ih => rw [List.foldl_cons, ih, size_countIn]

/-! ### Order -/

section Topological

variable {next : Array (List Nat)} {pending : Finset Nat} {queue : List Nat} {waiting : Array Nat}

/-- Releasing some places, each once. -/
theorem release_spec (queue : List Nat) (waiting : Array Nat) {js : List Nat} (hNodup : js.Nodup)
    (hLt : ∀ j ∈ js, j < waiting.size) :
    (js.foldl release (queue, waiting)).1 =
        queue ++ js.filter (fun j => waiting.getD j 0 - 1 = 0) ∧
      (js.foldl release (queue, waiting)).2.size = waiting.size ∧
      ∀ j, (js.foldl release (queue, waiting)).2.getD j 0 =
        if j ∈ js then waiting.getD j 0 - 1 else waiting.getD j 0 := by
  induction js generalizing queue waiting with
  | nil => simp
  | cons k js ih =>
    obtain ⟨hk, hjs⟩ := List.nodup_cons.mp hNodup
    have hkLt : k < waiting.size := hLt k List.mem_cons_self
    have hGet (j : Nat) : (waiting.set! k (waiting.getD k 0 - 1)).getD j 0 =
        if j = k then waiting.getD k 0 - 1 else waiting.getD j 0 := by
      rw [Search.getD_set!]
      by_cases hj : j = k
      · simp [hj, hkLt]
      · simp [hj, Ne.symm hj]
    have hSize : (waiting.set! k (waiting.getD k 0 - 1)).size = waiting.size := by
      rw [Array.set!_eq_setIfInBounds, Array.size_setIfInBounds]
    obtain ⟨hQueue, hSize', hWaiting⟩ := ih
      (if waiting.getD k 0 - 1 = 0 then queue ++ [k] else queue)
      (waiting.set! k (waiting.getD k 0 - 1)) hjs
      fun j hj => hSize ▸ hLt j (List.mem_cons_of_mem k hj)
    refine ⟨hQueue.trans ?_, hSize'.trans hSize, fun j => (hWaiting j).trans ?_⟩
    · have hSame : js.filter (fun j => (waiting.set! k (waiting.getD k 0 - 1)).getD j 0 - 1 = 0) =
          js.filter (fun j => waiting.getD j 0 - 1 = 0) := by
        refine List.filter_congr fun j hj => ?_
        rw [hGet, if_neg (ne_of_mem_of_not_mem hj hk)]
      rw [hSame, List.filter_cons]
      by_cases hZero : waiting.getD k 0 - 1 = 0
      · rw [if_pos hZero, if_pos (decide_eq_true hZero), List.append_assoc, List.singleton_append]
      · rw [if_neg hZero, if_neg (by simpa using hZero)]
    · rw [hGet]
      by_cases hj : j = k
      · subst hj
        simp [hk]
      · simp [hj]

/-- The state of the sort: what is not done, the counts of what leads to each place and is not done,
and the places that nothing leads to any more. -/
structure Sorting (next : Array (List Nat)) (pending : Finset Nat) (queue : List Nat)
    (waiting : Array Nat) : Prop where
  lt {j : Nat} : j ∈ pending → j < waiting.size
  waiting_eq {j : Nat} : j < waiting.size →
    waiting.getD j 0 = (pending.filter (j ∈ next.getD · [])).card
  fed {i j : Nat} : i ∈ pending → j ∈ next.getD i [] → j ∈ pending
  nodup : queue.Nodup
  mem_queue (j : Nat) : j ∈ queue ↔ j ∈ pending ∧ ∀ i ∈ pending, j ∉ next.getD i []

/-- Every place leads to lower places only, and to each once. -/
structure Descending (next : Array (List Nat)) (size : Nat) : Prop where
  nodup (i : Nat) : (next.getD i []).Nodup
  lt {i j : Nat} : j ∈ next.getD i [] → j < i
  size_lt {i j : Nat} : j ∈ next.getD i [] → i < size

/-- The first place of the queue is done. -/
theorem Sorting.step (hNext : Descending next waiting.size) {i : Nat}
    (h : Sorting next pending (i :: queue) waiting) :
    let state := (next.getD i []).foldl release (queue, waiting)
    Sorting next (pending.erase i) state.1 state.2 := by
  obtain ⟨hi, hReady⟩ := (h.mem_queue i).mp List.mem_cons_self
  obtain ⟨hiq, hQueue⟩ := List.nodup_cons.mp h.nodup
  have hLt {j : Nat} (hj : j ∈ next.getD i []) : j < waiting.size :=
    Nat.lt_trans (hNext.lt hj) (hNext.size_lt hj)
  obtain ⟨hFst, hSize, hSnd⟩ := release_spec queue waiting (hNext.nodup i) fun j => hLt
  have hSelf : i ∉ next.getD i [] := fun hii => Nat.lt_irrefl i (hNext.lt hii)
  have hErase (j : Nat) : (pending.erase i).filter (j ∈ next.getD · []) =
      (pending.filter (j ∈ next.getD · [])).erase i := Finset.filter_erase _ _ _
  have hCount {j : Nat} (hj : j ∈ next.getD i []) :
      waiting.getD j 0 = ((pending.erase i).filter (j ∈ next.getD · [])).card + 1 := by
    rw [h.waiting_eq (hLt hj), hErase, Finset.card_erase_add_one]
    exact Finset.mem_filter.mpr ⟨hi, hj⟩
  refine ⟨fun hj => ?_, fun {j} hj => ?_, fun {k j} hk hj => ?_, ?_, fun j => ?_⟩
  · rw [hSize]
    exact h.lt (Finset.mem_of_mem_erase hj)
  · rw [hSize] at hj
    by_cases hji : j ∈ next.getD i []
    · rw [hSnd, if_pos hji, hCount hji]
      rfl
    · rw [hSnd, if_neg hji, h.waiting_eq hj, hErase, Finset.erase_eq_of_notMem]
      exact fun hMem => hji (Finset.mem_filter.mp hMem).2
  · have hkp := Finset.mem_of_mem_erase hk
    refine Finset.mem_erase.mpr ⟨?_, h.fed hkp hj⟩
    rintro rfl
    exact hReady k hkp hj
  · rw [hFst]
    refine List.nodup_append.mpr ⟨hQueue, (hNext.nodup i).filter _, fun a ha b hb hab => ?_⟩
    have hFree := ((h.mem_queue a).mp (List.mem_cons_of_mem i ha)).2 i hi
    exact hFree (hab ▸ (List.mem_filter.mp hb).1)
  · rw [hFst, List.mem_append, List.mem_filter, Finset.mem_erase, decide_eq_true_eq]
    constructor
    · rintro (hj | ⟨hj, hZero⟩)
      · obtain ⟨hp, hFree⟩ := (h.mem_queue j).mp (List.mem_cons_of_mem i hj)
        exact ⟨⟨ne_of_mem_of_not_mem hj hiq, hp⟩, fun k hk => hFree k (Finset.mem_of_mem_erase hk)⟩
      · rw [hCount hj, Nat.add_sub_cancel, Finset.card_eq_zero, Finset.filter_eq_empty_iff] at hZero
        exact ⟨⟨ne_of_mem_of_not_mem hj hSelf, h.fed hi hj⟩, fun k hk => hZero hk⟩
    · rintro ⟨⟨hne, hp⟩, hFree⟩
      by_cases hj : j ∈ next.getD i []
      · refine .inr ⟨hj, ?_⟩
        rw [hCount hj, Nat.add_sub_cancel, Finset.card_eq_zero, Finset.filter_eq_empty_iff]
        exact fun k hk => hFree k hk
      · refine .inl ((List.mem_cons.mp ((h.mem_queue j).mpr ⟨hp, fun k hk => ?_⟩)).resolve_left hne)
        by_cases hki : k = i
        · rw [hki]
          exact hj
        · exact hFree k (Finset.mem_erase.mpr ⟨hki, hk⟩)

/-- While something is not done, something is ready: the highest place. -/
theorem Sorting.pending_eq_empty (hNext : Descending next waiting.size)
    (h : Sorting next pending [] waiting) : pending = ∅ := by
  by_contra hne
  obtain ⟨i, hi, hMax⟩ := pending.exists_max_image id (Finset.nonempty_iff_ne_empty.mpr hne)
  have hReady : i ∈ ([] : List Nat) := by
    refine (h.mem_queue i).mpr ⟨hi, fun k hk hik => ?_⟩
    exact Nat.not_lt.mpr (hMax k hk) (hNext.lt hik)
  cases hReady

/-- The order holds each place once, and no place leads to an earlier one. -/
theorem Sorting.topological_spec (size : Nat) (hNext : Descending next waiting.size)
    (h : Sorting next pending queue waiting) (hSize : pending.card ≤ size) :
    (topological next size queue waiting).Nodup ∧
      (∀ i, i ∈ topological next size queue waiting ↔ i ∈ pending) ∧
      (topological next size queue waiting).Pairwise fun i j => i ∉ next.getD j [] := by
  induction size generalizing pending queue waiting with
  | zero =>
    rw [Finset.card_eq_zero.mp (Nat.le_zero.mp hSize)]
    simp [topological]
  | succ size ih =>
    match queue, h with
    | [], h =>
      rw [h.pending_eq_empty hNext]
      simp [topological]
    | i :: queue, h =>
      obtain ⟨hi, hReady⟩ := (h.mem_queue i).mp List.mem_cons_self
      have hLt {j : Nat} (hj : j ∈ next.getD i []) : j < waiting.size :=
        Nat.lt_trans (hNext.lt hj) (hNext.size_lt hj)
      have hWaiting := (release_spec queue waiting (hNext.nodup i) fun j => hLt).2.1
      have hCard : (pending.erase i).card ≤ size := by
        rw [Finset.card_erase_of_mem hi]
        omega
      obtain ⟨hNodup, hMem, hOrder⟩ := ih (hWaiting ▸ hNext) (h.step hNext) hCard
      simp only [Finset.mem_erase] at hMem
      refine ⟨List.nodup_cons.mpr ⟨fun hii => ((hMem i).mp hii).1 rfl, hNodup⟩, fun j => ?_,
        List.pairwise_cons.mpr ⟨fun j hj => hReady j ((hMem j).mp hj).2, hOrder⟩⟩
      show j ∈ i :: topological next size _ _ ↔ _
      rw [List.mem_cons, hMem]
      constructor
      · rintro (rfl | ⟨-, hj⟩)
        · exact hi
        · exact hj
      · intro hj
        by_cases hji : j = i
        · exact .inl hji
        · exact .inr ⟨hji, hj⟩

end Topological

end ValueRange.Graph
