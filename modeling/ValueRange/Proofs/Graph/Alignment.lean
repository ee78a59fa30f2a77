import ValueRange.Proofs.Graph.Relocation

/-! The order of the components of a graph that is part of a larger one. The places of its components
follow each other there, no other place leads to them or from them, and so the sort takes them in the
same order as in the graph alone, with other places in between. -/

namespace ValueRange.Graph

/-- Whether a place is one of `count` places from `d` on. -/
def window (d count j : Nat) : Bool := decide (d ≤ j) && decide (j < d + count)

theorem window_add {d count j : Nat} (hj : j < count) : window d count (j + d) = true := by
  rw [window, Bool.and_eq_true, decide_eq_true_eq, decide_eq_true_eq]
  omega

theorem window_eq_false {d count j : Nat} : window d count j = false ↔ Apart d count j := by
  rw [window, Bool.and_eq_false_iff, decide_eq_false_iff_not, decide_eq_false_iff_not]
  unfold Apart
  omega

theorem filter_window_range {d count n : Nat} (h : d + count ≤ n) :
    (List.range n).filter (window d count) = (List.range count).map (· + d) := by
  have hApart (xs : List Nat) (hxs : ∀ j ∈ xs, Apart d count j) : xs.filter (window d count) = [] :=
    List.filter_eq_nil_iff.mpr fun j hj => by simp [window_eq_false.mpr (hxs j hj)]
  have hInside : ((List.range count).map (· + d)).filter (window d count) =
      (List.range count).map (· + d) := by
    refine List.filter_eq_self.mpr fun j hj => ?_
    obtain ⟨i, hi, rfl⟩ := List.mem_map.mp hj
    exact window_add (List.mem_range.mp hi)
  rw [range_split h, List.filter_append, List.filter_append, hInside,
    hApart (List.range d) fun j hj => .inl (List.mem_range.mp hj), List.nil_append,
    hApart ((List.range (n - (d + count))).map _), List.append_nil]
  intro j hj
  obtain ⟨i, -, rfl⟩ := List.mem_map.mp hj
  exact .inr (Nat.le_add_right _ _)

/-- Components that are taken in the same order are aligned. -/
theorem aligned_of_filter {a size d count : Nat} {order order' : List Nat}
    {component component' : Nat → List NodeId}
    (hOrder : order'.filter (window d count) = order.map (· + d))
    (hInside : ∀ i ∈ order, component' (i + d) = (component i).map (· + a))
    (hApart : ∀ i ∈ order', Apart d count i → ∀ n ∈ component' i, Apart a size n) :
    Aligned a size (order.map component) (order'.map component') := by
  induction order' generalizing order with
  | nil =>
    rw [List.filter_nil, eq_comm, List.map_eq_nil_iff] at hOrder
    rw [hOrder]
    exact .nil
  | cons i' order' ih =>
    have hRest (i : Nat) (hi : i ∈ order') := hApart i (List.mem_cons_of_mem i' hi)
    rcases apart_or d count i' with hi' | ⟨i, hi, rfl⟩
    · rw [List.filter_cons_of_neg (by simp [window_eq_false.mpr hi'])] at hOrder
      exact .apart (hApart i' List.mem_cons_self hi') (ih hOrder hInside hRest)
    · rw [List.filter_cons_of_pos (window_add hi)] at hOrder
      obtain ⟨k, order, rfl, hk, hOthers⟩ := List.map_eq_cons_iff.mp hOrder.symm
      obtain rfl : k = i := Nat.add_right_cancel hk
      rw [List.map_cons, List.map_cons, hInside k List.mem_cons_self]
      exact .inside (ih hOthers.symm (fun j hj => hInside j (List.mem_cons_of_mem k hj)) hRest)

section Topological

variable {d count count' size size' : Nat} {next next' : Array (List Nat)}
  {pending pending' : Finset Nat} {queue queue' : List Nat} {waiting waiting' : Array Nat}

/-- From `d` on, the places lead to each other as they do alone, and no other place leads there. -/
structure Carried (d count : Nat) (next next' : Array (List Nat)) : Prop where
  inside {i : Nat} : i < count → next'.getD (i + d) [] = (next.getD i []).map (· + d)
  apart {i j : Nat} : Apart d count i → j ∈ next'.getD i [] → Apart d count j

/-- A sort that has come as far with the places from `d` on as another one that has these alone. -/
structure Tracks (d count : Nat) (queue : List Nat) (waiting : Array Nat) (queue' : List Nat)
    (waiting' : Array Nat) : Prop where
  queue : queue'.filter (window d count) = queue.map (· + d)
  waiting {j : Nat} : j < count → waiting'.getD (j + d) 0 = waiting.getD j 0

/-- One of the places is done in both sorts. -/
theorem Tracks.inside (h : Tracks d count queue waiting queue' waiting')
    (hNext : Descending next count) (hNext' : Descending next' count')
    (hCarried : Carried d count next next') (hSize : waiting.size = count)
    (hSize' : waiting'.size = count') {i : Nat} (hi : i < count) :
    let state := (next.getD i []).foldl release (queue, waiting)
    let state' := (next'.getD (i + d) []).foldl release (queue', waiting')
    Tracks d count state.1 state.2 state'.1 state'.2 := by
  have hLt {j : Nat} (hj : j ∈ next.getD i []) : j < count := (hNext.lt hj).trans hi
  obtain ⟨hQueue, -, hWaiting⟩ := release_spec queue waiting (hNext.nodup i) fun j hj =>
    hSize.symm ▸ hLt hj
  obtain ⟨hQueue', -, hWaiting'⟩ := release_spec queue' waiting' (hNext'.nodup (i + d)) fun j hj =>
    hSize'.symm ▸ (hNext'.lt hj).trans (hNext'.size_lt hj)
  refine ⟨?_, fun {j} hj => ?_⟩
  · rw [hQueue, hQueue', List.filter_append, h.queue, List.map_append, hCarried.inside hi,
      List.filter_map, List.filter_map, List.filter_filter]
    refine congrArg (_ ++ List.map _ ·) (List.filter_congr fun j hj => ?_)
    simp only [Function.comp_apply, window_add (hLt hj), Bool.true_and, h.waiting (hLt hj)]
  · rw [hWaiting, hWaiting', hCarried.inside hi, h.waiting hj]
    simp only [List.mem_map_of_injective fun _ _ => Nat.add_right_cancel]

/-- A place that stands apart is done in the larger sort alone. -/
theorem Tracks.apart (h : Tracks d count queue waiting queue' waiting')
    (hNext' : Descending next' count') (hCarried : Carried d count next next')
    (hSize' : waiting'.size = count') {i : Nat} (hi : Apart d count i) :
    let state' := (next'.getD i []).foldl release (queue', waiting')
    Tracks d count queue waiting state'.1 state'.2 := by
  obtain ⟨hQueue', -, hWaiting'⟩ := release_spec queue' waiting' (hNext'.nodup i) fun j hj =>
    hSize'.symm ▸ (hNext'.lt hj).trans (hNext'.size_lt hj)
  refine ⟨?_, fun {j} hj => ?_⟩
  · rw [hQueue', List.filter_append, h.queue, List.filter_filter, List.filter_eq_nil_iff.mpr,
      List.append_nil]
    intro j hj
    simp [window_eq_false.mpr (hCarried.apart hi hj)]
  · rw [hWaiting', if_neg fun hMem => (hCarried.apart hi hMem).ne hj rfl, h.waiting hj]

theorem topological_nil (next : Array (List Nat)) (size : Nat) (waiting : Array Nat) :
    topological next size [] waiting = [] := by
  cases size <;> rfl

/-- The places from `d` on are put in the same order as without the others. -/
theorem Tracks.filter_topological (h : Tracks d count queue waiting queue' waiting')
    (hNext : Descending next count) (hNext' : Descending next' count')
    (hCarried : Carried d count next next') (hWaiting : waiting.size = count)
    (hWaiting' : waiting'.size = count') (hSorting : Sorting next pending queue waiting)
    (hSorting' : Sorting next' pending' queue' waiting') (hSize : pending.card ≤ size)
    (hSize' : pending'.card ≤ size') :
    (topological next' size' queue' waiting').filter (window d count) =
      (topological next size queue waiting).map (· + d) := by
  induction size' generalizing pending pending' queue queue' waiting waiting' size with
  | zero =>
    have hDone : pending' = ∅ := Finset.card_eq_zero.mp (Nat.le_zero.mp hSize')
    have hNone : queue' = [] := List.eq_nil_iff_forall_not_mem.mpr fun j hj => by
      have := ((hSorting'.mem_queue j).mp hj).1
      simp [hDone] at this
    have hQueue := h.queue
    rw [hNone, List.filter_nil, eq_comm, List.map_eq_nil_iff] at hQueue
    rw [hQueue, topological_nil]
    rfl
  | succ size' ih =>
    match queue', h, hSorting' with
    | [], h, hSorting' =>
      have hQueue := h.queue
      rw [List.filter_nil, eq_comm, List.map_eq_nil_iff] at hQueue
      rw [hQueue, topological_nil, topological_nil]
      rfl
    | i' :: queue', h, hSorting' =>
      have hStep' := hSorting'.step (hWaiting'.symm ▸ hNext')
      have hKept' := (release_spec queue' waiting' (hNext'.nodup i') fun j hj =>
        hWaiting'.symm ▸ (hNext'.lt hj).trans (hNext'.size_lt hj)).2.1
      have hCard' : (pending'.erase i').card ≤ size' := by
        rw [Finset.card_erase_of_mem ((hSorting'.mem_queue i').mp List.mem_cons_self).1]
        omega
      have hQueue := h.queue
      rcases apart_or d count i' with hApart | ⟨i, hi, rfl⟩
      · have hFalse := window_eq_false.mpr hApart
        rw [List.filter_cons_of_neg (by simp [hFalse])] at hQueue
        have hRest : Tracks d count queue waiting queue' waiting' := ⟨hQueue, h.waiting⟩
        refine (List.filter_cons_of_neg (by simp [hFalse])).trans ?_
        exact ih (hRest.apart hNext' hCarried hWaiting' hApart) hWaiting (hKept'.trans hWaiting')
          hSorting hStep' hSize hCard'
      · rw [List.filter_cons_of_pos (window_add hi)] at hQueue
        obtain ⟨k, queue, rfl, hk, hOthers⟩ := List.map_eq_cons_iff.mp hQueue.symm
        obtain rfl : k = i := Nat.add_right_cancel hk
        have hMem := ((hSorting.mem_queue k).mp List.mem_cons_self).1
        -- something is left to do in the smaller sort too
        obtain ⟨size, rfl⟩ : ∃ rest, size = rest + 1 :=
          ⟨size - 1, by have := Finset.card_pos.mpr ⟨k, hMem⟩; omega⟩
        have hKept := (release_spec queue waiting (hNext.nodup k) fun j hj =>
          hWaiting.symm ▸ (hNext.lt hj).trans (hNext.size_lt hj)).2.1
        have hCard : (pending.erase k).card ≤ size := by
          rw [Finset.card_erase_of_mem hMem]
          omega
        have hRest : Tracks d count queue waiting queue' waiting' := ⟨hOthers.symm, h.waiting⟩
        refine (List.filter_cons_of_pos (window_add hi)).trans (congrArg ((k + d) :: ·) ?_)
        exact ih (hRest.inside hNext hNext' hCarried hWaiting hWaiting' hi)
          (hKept.trans hWaiting) (hKept'.trans hWaiting') (hSorting.step (hWaiting.symm ▸ hNext))
          hStep' hCard hCard'

end Topological

/-! ### Places of components -/

/-- The place at which the component of a node is found. -/
def place (g : Graph) (n : NodeId) : Nat := (places g.nodes.size g.foundComponents).getD n 0

section Found

variable {g : Graph}

theorem Linked.place_eq (hg : Linked g) {i : Nat} {c : List NodeId} {n : NodeId}
    (hc : g.foundComponents[i]? = some c) (hn : n ∈ c) : g.place n = i :=
  have hPartition := (foundComponents_spec hg.successors_lt).1
  places_eq hPartition.nodup (fun n => (hPartition.mem_flatten n).mp) hc hn

theorem Linked.exists_found (hg : Linked g) {n : NodeId} (hn : n < g.nodes.size) :
    ∃ c, g.foundComponents[g.place n]? = some c ∧ n ∈ c := by
  have hPartition := (foundComponents_spec hg.successors_lt).1
  obtain ⟨c, hc, hn⟩ := List.mem_flatten.mp ((hPartition.mem_flatten n).mpr hn)
  obtain ⟨i, hi⟩ := List.mem_iff_getElem?.mp hc
  exact ⟨c, hg.place_eq hi hn ▸ hi, hn⟩

theorem Linked.lt_of_found (hg : Linked g) {i : Nat} {c : List NodeId} {n : NodeId}
    (hc : g.foundComponents[i]? = some c) (hn : n ∈ c) : n < g.nodes.size :=
  ((foundComponents_spec hg.successors_lt).1.mem_flatten n).mp
    (List.mem_flatten.mpr ⟨c, List.mem_of_getElem? hc, hn⟩)

end Found

/-- Collecting places is the same for places further on. -/
theorem foldl_collect_map (d i : Nat) (js acc : List Nat) :
    (js.map (· + d)).foldl (fun acc j => if j = i + d ∨ j ∈ acc then acc else acc ++ [j])
        (acc.map (· + d)) =
      (js.foldl (fun acc j => if j = i ∨ j ∈ acc then acc else acc ++ [j]) acc).map (· + d) := by
  induction js generalizing acc with
  | nil => rfl
  | cons j js ih =>
    have hSame : (j + d = i + d ∨ j + d ∈ acc.map (· + d)) ↔ (j = i ∨ j ∈ acc) := by
      rw [List.mem_map_of_injective fun _ _ => Nat.add_right_cancel, Nat.add_right_cancel_iff]
    rw [List.map_cons, List.foldl_cons, List.foldl_cons, ← ih]
    by_cases hj : j = i ∨ j ∈ acc
    · rw [if_pos hj, if_pos (hSame.mpr hj)]
    · rw [if_neg hj, if_neg (mt hSame.mp hj), List.map_append]
      rfl

namespace Embeds

variable {a b d : Nat} {g h : Graph}

section Places

variable (hEmbeds : Embeds a b g h) (hg : Wired g) (hh : Wired h)
  (hPlaced : ∀ {i : Nat} {c : List NodeId}, g.foundComponents[i]? = some c →
    h.foundComponents[i + d]? = some (c.map (· + a)))

include hg hh hPlaced

theorem place_add {n : NodeId} (hn : n < g.nodes.size) : h.place (n + a) = g.place n + d := by
  obtain ⟨c, hc, hMem⟩ := hg.exists_found hn
  exact hh.place_eq (hPlaced hc) (List.mem_map_of_mem hMem)

/-- The other components hold nodes apart from the graph only. -/
theorem apart_of_place {i : Nat} {c : List NodeId} {n : NodeId}
    (hc : h.foundComponents[i]? = some c) (hn : n ∈ c)
    (hi : Apart d g.foundComponents.length i) : Apart a g.nodes.size n := by
  refine (apart_or a g.nodes.size n).resolve_right ?_
  rintro ⟨m, hm, rfl⟩
  obtain ⟨c', hc', -⟩ := hg.exists_found hm
  refine hi.ne (List.getElem?_eq_some_iff.mp hc').1 ?_
  rw [← hh.place_eq hc hn, place_add hg hh hPlaced hm]

theorem apart_place {n : NodeId} (hn : n < h.nodes.size) (hApart : Apart a g.nodes.size n) :
    Apart d g.foundComponents.length (h.place n) := by
  refine (apart_or d g.foundComponents.length (h.place n)).resolve_right ?_
  rintro ⟨i, hi, hPlace⟩
  obtain ⟨c, hc, hMem⟩ := hh.exists_found hn
  rw [hPlace, hPlaced (List.getElem?_eq_getElem hi)] at hc
  cases hc
  obtain ⟨m, hm, rfl⟩ := List.mem_map.mp hMem
  exact hApart.ne (hg.lt_of_found (List.getElem?_eq_getElem hi) hm) rfl

include hEmbeds

theorem carried : Carried d g.foundComponents.length g.nextPlaces h.nextPlaces := by
  refine ⟨fun {i} hi => ?_, fun {i j} hi hj => ?_⟩
  · have hc := List.getElem?_eq_getElem hi
    rw [getD_nextPlaces, getD_nextPlaces, hc, hPlaced hc, Option.map_some, Option.map_some,
      Option.getD_some, Option.getD_some, componentSuccessors, componentSuccessors,
      ← foldl_collect_map, List.map_nil]
    refine congrArg (List.foldl _ []) ?_
    rw [List.flatMap_map, List.map_flatMap, List.map_flatMap, List.map_flatMap]
    refine List.flatMap_congr fun n hn => ?_
    rw [hEmbeds.successors hg (hg.lt_of_found hc hn), List.map_map, List.map_map]
    refine List.map_congr_left fun m hm => ?_
    exact place_add hg hh hPlaced (hg.successors_lt n m hm)
  · obtain ⟨-, c, hc, n, hn, m, hm, rfl⟩ := mem_nextPlaces.mp hj
    have hApart := apart_of_place hg hh hPlaced hc hn hi
    exact apart_place hg hh hPlaced (hh.successors_lt n m hm)
      (hEmbeds.apart_successor hg hh hm hApart)

theorem waitingPlaces (hCount : d + g.foundComponents.length ≤ h.foundComponents.length) {j : Nat}
    (hj : j < g.foundComponents.length) :
    h.waitingPlaces.getD (j + d) 0 = g.waitingPlaces.getD j 0 := by
  have hCarried := hEmbeds.carried hg hh hPlaced
  rw [g.waitingPlaces_eq hj, h.waitingPlaces_eq (by omega)]
  refine (Finset.card_nbij (· + d) (fun i hi => ?_) (fun _ _ _ _ => Nat.add_right_cancel)
    fun i hi => ?_).symm
  · obtain ⟨hi, hMem⟩ := Finset.mem_filter.mp hi
    rw [Finset.mem_range] at hi
    have hLt : i + d < h.foundComponents.length := by omega
    refine Finset.mem_filter.mpr ⟨Finset.mem_range.mpr hLt, ?_⟩
    rw [hCarried.inside hi]
    exact List.mem_map_of_mem hMem
  · obtain ⟨-, hMem⟩ := Finset.mem_filter.mp hi
    rcases apart_or d g.foundComponents.length i with hApart | ⟨k, hk, rfl⟩
    · exact absurd rfl ((hCarried.apart hApart hMem).ne hj)
    · rw [hCarried.inside hk, List.mem_map_of_injective fun _ _ => Nat.add_right_cancel] at hMem
      exact ⟨k, Finset.mem_filter.mpr ⟨Finset.mem_range.mpr hk, hMem⟩, rfl⟩

theorem tracks_ready (hCount : d + g.foundComponents.length ≤ h.foundComponents.length) :
    Tracks d g.foundComponents.length
      ((List.range g.foundComponents.length).reverse.filter fun i => g.waitingPlaces.getD i 0 = 0)
      g.waitingPlaces
      ((List.range h.foundComponents.length).reverse.filter fun i => h.waitingPlaces.getD i 0 = 0)
      h.waitingPlaces := by
  refine ⟨?_, fun hj => hEmbeds.waitingPlaces hg hh hPlaced hCount hj⟩
  have hWindow := filter_window_range hCount
  rw [List.filter_filter, List.filter_reverse, List.filter_reverse, List.map_reverse,
    List.filter_congr fun i _ => Bool.and_comm _ _, ← List.filter_filter, hWindow, List.filter_map]
  refine congrArg (fun is => (List.map (· + d) is).reverse) (List.filter_congr fun i hi => ?_)
  simp only [Function.comp_apply,
    hEmbeds.waitingPlaces hg hh hPlaced hCount (List.mem_range.mp hi)]

/-- The components of the smaller graph are taken in the same order. -/
theorem filter_componentOrder (hCount : d + g.foundComponents.length ≤ h.foundComponents.length) :
    h.componentOrder.filter (window d g.foundComponents.length) =
      g.componentOrder.map (· + d) :=
  (hEmbeds.tracks_ready hg hh hPlaced hCount).filter_topological
    (g.size_waitingPlaces ▸ hg.descending) (h.size_waitingPlaces ▸ hh.descending)
    (hEmbeds.carried hg hh hPlaced) g.size_waitingPlaces h.size_waitingPlaces hg.sorting hh.sorting
    (Nat.le_of_eq (Finset.card_range _)) (Nat.le_of_eq (Finset.card_range _))

end Places

/-- The components of the smaller graph stand in the same order among those of the larger one. -/
theorem aligned (hEmbeds : Embeds a b g h) (hg : Wired g) (hh : Wired h)
    (hSize : a + g.nodes.size ≤ h.nodes.size) :
    Aligned a g.nodes.size g.orderedComponents h.orderedComponents := by
  obtain ⟨early, late, hFound⟩ := hEmbeds.foundComponents hg hh hSize
  have hPlaced {i : Nat} {c : List NodeId} (hc : g.foundComponents[i]? = some c) :
      h.foundComponents[i + early.length]? = some (c.map (· + a)) := by
    have hi := (List.getElem?_eq_some_iff.mp hc).1
    rw [hFound, List.append_assoc, Nat.add_comm, List.getElem?_append_right (Nat.le_add_right _ _),
      Nat.add_sub_cancel_left, List.getElem?_append_left (by rwa [List.length_map]),
      List.getElem?_map, hc, Option.map_some]
  have hCount : early.length + g.foundComponents.length ≤ h.foundComponents.length := by
    rw [hFound, List.length_append, List.length_append, List.length_map]
    exact Nat.le_add_right _ _
  refine aligned_of_filter (hEmbeds.filter_componentOrder hg hh hPlaced hCount) (fun i hi => ?_)
    fun i hi hApart n hn => ?_
  · have hLt := List.mem_range.mp (hg.componentOrder_spec.1.mem_iff.mp hi)
    rw [hPlaced (List.getElem?_eq_getElem hLt), List.getElem?_eq_getElem hLt]
    rfl
  · have hLt := List.mem_range.mp (hh.componentOrder_spec.1.mem_iff.mp hi)
    rw [List.getElem?_eq_getElem hLt] at hn
    exact apart_of_place hg hh hPlaced (List.getElem?_eq_getElem hLt) hn hApart

/-! ### Solutions -/

theorem startRange_shift (s : Sentinels) (b : Nat) (x : Node) :
    startRange s (x.shift b) = startRange s x := by
  unfold startRange Node.shift
  cases x.const <;> cases x.definition <;> cases x.hint <;> rfl

theorem seed (hEmbeds : Embeds a b g h) (hg : g.started = false) (hh : h.started = false) :
    Embeds a b g.seed h.seed := by
  refine ⟨?_, ?_, fun {n x} hx => ?_, fun {o op} ho => ?_⟩
  · rw [sentinels_seed hg, sentinels_seed hh, hEmbeds.sentinels]
  · rw [narrowing_seed hg, narrowing_seed hh, hEmbeds.narrowing]
  · rw [getElem?_seed hg] at hx
    obtain ⟨y, hy, rfl⟩ := Option.map_eq_some_iff.mp hx
    rw [getElem?_seed hh, hEmbeds.node hy, Option.map_some, startRange_shift, hEmbeds.sentinels]
    rfl
  · rw [ops_seed hg] at ho
    rw [ops_seed hh]
    exact hEmbeds.op ho

/-- The solution of the smaller graph stands in that of the larger one. -/
theorem solve (hEmbeds : Embeds a b g h) (hg : Unsolved g) (hh : Unsolved h)
    (hSize : a + g.nodes.size ≤ h.nodes.size)
    (hNarrowing : g.narrowing = .cousot ∨ g.narrowing = .crop) :
    ∃ g' h', Graph.solve.run.run g = (.ok (), g') ∧ Graph.solve.run.run h = (.ok (), h') ∧
      Embeds a b g' h' := by
  obtain ⟨m, hMeet, hm⟩ := exists_tight hNarrowing
  obtain ⟨cs, hFind, hLayout⟩ := hg.layout_begun
  obtain ⟨cs', hFind', hLayout'⟩ := hh.layout_begun
  have hSeed := hEmbeds.seed hg.started hh.started
  have hWired := hg.wired.seed hg.started
  have hWired' := hh.wired.seed hh.started
  have hSeedSize : a + g.seed.nodes.size ≤ h.seed.nodes.size := by
    rw [seed_of_not_started hg.started, seed_of_not_started hh.started, Array.size_map,
      Array.size_map]
    exact hSize
  have hAligned := hSeed.aligned hWired hWired' hSeedSize
  rw [← hWired.toLinked.members_eq hFind, ← hWired'.toLinked.members_eq hFind'] at hAligned
  have hBegun : Embeds a b (g.begun cs) (h.begun cs') :=
    ⟨hSeed.sentinels, hSeed.narrowing, hSeed.node, hSeed.op⟩
  have hCourse := hBegun.course hLayout ⟨(regular_seed hg.started).range⟩ hLayout' hm hAligned
  exact ⟨_, _, solve_eq hg.solved hFind hMeet,
    solve_eq hh.solved hFind' (hEmbeds.narrowing ▸ hMeet),
    hCourse.sentinels, hCourse.narrowing, hCourse.node, hCourse.op⟩

end Embeds

end ValueRange.Graph
