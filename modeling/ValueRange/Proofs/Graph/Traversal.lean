import Mathlib.Algebra.GroupWithZero.Nat
import Mathlib.Algebra.Order.BigOperators.Group.Finset
import ValueRange.Proofs.Graph.Search

/-! Running the depth-first search. Every step keeps the search sound and pays one unit of what is
still to be done: to leave each node, and to look at each node that it leads to. The search over all
nodes therefore ends, and the components that it found partition the nodes. -/

namespace ValueRange.Graph

namespace Search

variable {leads : NodeId → List NodeId} {size : Nat} {s : Search} {n m x : NodeId}

/-- Merging changes nothing, or the node takes over the earlier root of an active node. -/
theorem merge_cases (s : Search) (n m : NodeId) :
    (s.merge n m = s ∧
      (s.isClosed m = true ∨ s.indexOf (s.rootOf n) ≤ s.indexOf (s.rootOf m))) ∨
    (s.merge n m = s.lowerRoot n (s.rootOf m) ∧ s.isClosed m = false ∧
      s.indexOf (s.rootOf m) < s.indexOf (s.rootOf n)) := by
  unfold merge
  by_cases hc : s.isClosed m = true
  · exact .inl ⟨by simp [hc], .inl hc⟩
  · rw [Bool.not_eq_true] at hc
    by_cases hi : s.indexOf (s.rootOf m) < s.indexOf (s.rootOf n)
    · exact .inr ⟨by simp [hc, hi, lowerRoot], hc, hi⟩
    · exact .inl ⟨by simp [hc, hi], .inr (Nat.not_lt.mp hi)⟩

theorem merge_of_closed (n : NodeId) (h : s.isClosed m = true) : s.merge n m = s := by
  rw [merge, h]
  rfl

@[simp] theorem merge_index (s : Search) (n m : NodeId) : (s.merge n m).index = s.index := by
  unfold merge
  split <;> rfl

@[simp] theorem merge_work (s : Search) (n m : NodeId) : (s.merge n m).work = s.work := by
  unfold merge
  split <;> rfl

@[simp] theorem merge_stack (s : Search) (n m : NodeId) : (s.merge n m).stack = s.stack := by
  unfold merge
  split <;> rfl

/-- Merging reads and changes neither the work nor the stack. -/
theorem merge_with (s : Search) (work : List Frame) (stack : List NodeId) (n m : NodeId) :
    ({ s with work, stack } : Search).merge n m = { s.merge n m with work, stack } := by
  by_cases h : (!s.isClosed m && decide (s.indexOf (s.rootOf m) < s.indexOf (s.rootOf n))) = true
  · have hMerge : s.merge n m = { s with root := s.root.set! n (s.rootOf m) } := if_pos h
    rw [hMerge]
    exact if_pos h
  · have hMerge : s.merge n m = s := if_neg h
    rw [hMerge]
    exact if_neg h

/-- A node of the path that leads to an active node can take over its root. -/
theorem Sound.merge (h : Sound leads size s) (hn : n ∈ s.path) (hm : s.indexOf m ≠ 0)
    (hReach : Reach leads n m) :
    Sound leads size (s.merge n m) ∧ (s.merge n m).Settled n m ∧
      (s.isClosed m = false → n ≠ m →
        (s.merge n m).rootOf m = s.rootOf m ∧
        s.indexOf ((s.merge n m).rootOf n) ≤ s.indexOf (s.rootOf m)) := by
  rcases merge_cases s n m with ⟨hEq, hCase⟩ | ⟨hEq, hc, hi⟩
  · rw [hEq]
    refine ⟨h, ?_, fun hc _ => ⟨rfl, hCase.resolve_left (by simp [hc])⟩⟩
    by_cases hc : s.isClosed m = true
    · exact .inl hc
    · have ha : s.Active m := ⟨hm, by simpa using hc⟩
      exact .inr ⟨ha, Nat.le_trans (hCase.resolve_left hc) (h.root ha).2.1⟩
  · have ha : s.Active m := ⟨hm, hc⟩
    obtain ⟨hra, hri, hrr⟩ := h.root ha
    have hnLt : n < s.root.size :=
      h.size_root ▸ lt_of_entered h.size_index ((h.active_iff n).mpr (.inl hn)).1
    have hRoot : (s.lowerRoot n (s.rootOf m)).rootOf n = s.rootOf m := by
      show (s.root.set! n (s.rootOf m)).getD n 0 = _
      rw [getD_set!, if_pos ⟨rfl, hnLt⟩]
    rw [hEq]
    refine ⟨h.lowerRoot hn hra (Nat.le_of_lt hi) (hReach.trans hrr), .inr ⟨ha, ?_⟩, fun _ hne => ?_⟩
    · rw [hRoot]
      exact hri
    · refine ⟨?_, Nat.le_of_eq (congrArg s.indexOf hRoot)⟩
      show (s.root.set! n (s.rootOf m)).getD m 0 = _
      rw [getD_set!, if_neg fun he => hne he.1]
      rfl

/-- The first node of a search is its own root: nothing that is active was entered before it. -/
theorem Sound.below_ne_nil {below : List Frame} {rest : List NodeId} (h : Sound leads size s)
    (hWork : s.work = ⟨n, rest⟩ :: below) (hRoot : s.rootOf n ≠ n) : below ≠ [] := by
  rintro rfl
  have hPath : s.path = [n] := by simp [path, hWork]
  have hn : s.Active n := (h.active_iff n).mpr (.inl (by simp [hPath]))
  obtain ⟨hra, hri, -⟩ := h.root hn
  rcases (h.active_iff _).mp hra with hp | hs
  · rw [hPath, List.mem_singleton] at hp
    exact hRoot hp
  · obtain ⟨w, hw, hi⟩ := h.above hs
    rw [hPath, List.mem_singleton] at hw
    subst hw
    omega

/-- A node that is not its own root goes to the stack, after the node below took over its root. -/
theorem Sound.leave_pending {f : Frame} {below : List Frame} (h : Sound leads size s)
    (hWork : s.work = ⟨n, []⟩ :: f :: below) (hRoot : s.rootOf n ≠ n) :
    Sound leads size
      (({ s with work := f :: below, stack := n :: s.stack } : Search).merge f.node n) := by
  have hn : n ∈ s.path := by simp [path, hWork]
  have hf : f.node ∈ s.path := by simp [path, hWork]
  have ha : s.Active n := (h.active_iff n).mpr (.inl hn)
  have hLt : s.indexOf f.node < s.indexOf n := by
    have hSorted := h.sorted
    rw [path, hWork, List.map_cons, List.map_cons, List.pairwise_cons] at hSorted
    exact hSorted.1 f.node List.mem_cons_self
  have hne : f.node ≠ n := fun he => Nat.lt_irrefl _ (he ▸ hLt)
  obtain ⟨hSound, -, hMerge⟩ := h.merge hf ha.1 (h.reach hf ha hLt)
  obtain ⟨hSame, hle⟩ := hMerge ha.2 hne
  rw [merge_with]
  have hIndex (x : NodeId) : (s.merge f.node n).indexOf x = s.indexOf x := by
    rw [indexOf, merge_index]
    rfl
  have hWork' : (s.merge f.node n).work = ⟨n, []⟩ :: ⟨f.node, f.rest⟩ :: below := by
    rw [merge_work, hWork]
  have hPush := hSound.push hWork' (by rw [hSame]; exact hRoot)
    (by rw [hIndex, hIndex, hSame]; exact hle)
  rw [merge_stack] at hPush
  exact hPush

/-- Every step keeps the search sound. -/
theorem Sound.step (h : Sound leads size s) (hLeads : ∀ x, ∀ y ∈ leads x, y < size) :
    Sound leads size (s.step leads) := by
  unfold Search.step
  match hWork : s.work with
  | [] => exact h
  | ⟨n, m :: rest⟩ :: below =>
    have hn : n ∈ s.path := by simp [path, hWork]
    have hm : m ∈ leads n := by
      obtain ⟨seen, hSeen, -⟩ := h.frame (f := ⟨n, m :: rest⟩) (by simp [hWork])
      simp [hSeen]
    show Sound leads size (if s.indexOf m = 0 then _ else _)
    split
    case isTrue hNew =>
      have hReach (w : NodeId) (hw : w ∈ s.path) : Reach leads w m := by
        by_cases hwn : w = n
        · exact hwn ▸ .single hm
        · exact (h.reach hw ((h.active_iff n).mpr (.inl hn))
            (h.index_lt_of_path hWork hw hwn)).tail hm
      have hEnter := h.enter (hLeads n m hm) hNew hReach
      have hWork' : (s.enter leads m).work = [⟨m, leads m⟩] ++ ⟨n, m :: rest⟩ :: below := by
        simp [Search.enter, hWork]
      refine hEnter.advance hWork' ?_
      -- the new node was entered last, so that no root lies after it
      have hTop := (hEnter.active_iff m).mpr (.inl (by simp [path, Search.enter]))
      have hIndex := indexOf_enter leads h.size_index (hLeads n m hm)
      refine .inr ⟨hTop, ?_⟩
      have hLast := hEnter.index_lt ((s.enter leads m).rootOf n)
      rw [hIndex m, if_pos rfl]
      exact Nat.lt_succ_iff.mp hLast
    case isFalse hOld =>
      obtain ⟨hSound, hSettled, -⟩ := h.merge hn hOld (.single hm)
      have hWork' : (s.merge n m).work = [] ++ ⟨n, m :: rest⟩ :: below := by
        rw [merge_work, hWork]
        rfl
      have hAdvance := hSound.advance hWork' hSettled
      rw [merge_stack] at hAdvance
      rw [merge_with s _ s.stack]
      exact hAdvance
  | ⟨n, []⟩ :: below =>
    by_cases hRoot : s.rootOf n = n
    · have hLeave : ({ s with work := below } : Search).leave n = s.closeComponent n below :=
        if_pos hRoot
      have hClosed : (s.closeComponent n below).isClosed n = true :=
        (h.isClosed_close hWork n).mpr (.inr List.mem_cons_self)
      simp only [hLeave]
      cases below with
      | nil => exact h.close hWork hRoot
      | cons f below =>
        simp only [merge_of_closed _ hClosed]
        exact h.close hWork hRoot
    · have hLeave : ({ s with work := below } : Search).leave n =
          { s with work := below, stack := n :: s.stack } := if_neg hRoot
      simp only [hLeave]
      cases below with
      | nil => exact absurd rfl (h.below_ne_nil hWork hRoot)
      | cons f below => exact h.leave_pending hWork hRoot

/-- What the nodes that were not entered will cost: to be left once, and to look at each node that
they lead to. -/
def owed (leads : NodeId → List NodeId) (size : Nat) (s : Search) : Nat :=
  ∑ x ∈ Finset.range size, if s.indexOf x = 0 then (leads x).length + 1 else 0

/-- What is still to be done. -/
def remaining (leads : NodeId → List NodeId) (size : Nat) (s : Search) : Nat :=
  (s.work.map fun f => f.rest.length + 1).sum + owed leads size s

theorem remaining_withWork (leads : NodeId → List NodeId) (size : Nat) (s : Search)
    (work : List Frame) : remaining leads size { s with work } =
      (work.map fun f => f.rest.length + 1).sum + owed leads size s := rfl

theorem owed_congr {s s' : Search} (hIndex : s'.index = s.index) :
    owed leads size s' = owed leads size s := by
  unfold owed indexOf
  rw [hIndex]

theorem remaining_congr {s s' : Search} (hIndex : s'.index = s.index) (hWork : s'.work = s.work) :
    remaining leads size s' = remaining leads size s := by
  rw [remaining, remaining, hWork, owed_congr hIndex]

theorem owed_le (leads : NodeId → List NodeId) (size : Nat) (s : Search) :
    owed leads size s ≤ ∑ x ∈ Finset.range size, ((leads x).length + 1) := by
  refine Finset.sum_le_sum fun x _ => ?_
  split <;> omega

/-- Entering a node turns what it owes into a frame. -/
theorem remaining_enter (leads : NodeId → List NodeId) (hSize : s.index.size = size)
    (hNext : s.next ≠ 0) (hn : n < size) (hNew : s.indexOf n = 0) :
    remaining leads size (s.enter leads n) = remaining leads size s := by
  have hIndex := indexOf_enter leads hSize hn
  have hMem : n ∈ Finset.range size := Finset.mem_range.mpr hn
  have hOwed : owed leads size s = (leads n).length + 1 + owed leads size (s.enter leads n) := by
    unfold owed
    rw [← Finset.add_sum_erase _ _ hMem, ← Finset.add_sum_erase _ _ hMem, hIndex, if_pos rfl,
      if_neg hNext, if_pos hNew, Nat.zero_add]
    congr 1
    refine Finset.sum_congr rfl fun x hx => ?_
    rw [hIndex, if_neg (Finset.ne_of_mem_erase hx)]
  rw [remaining, remaining, hOwed]
  simp only [Search.enter, List.map_cons, List.sum_cons]
  omega

/-- Leaving a node enters none. -/
theorem leave_index (s : Search) (n : NodeId) : (s.leave n).index = s.index := by
  unfold leave
  split <;> rfl

theorem leave_work (s : Search) (n : NodeId) : (s.leave n).work = s.work := by
  unfold leave
  split <;> rfl

/-- Every step pays one unit. -/
theorem Sound.remaining_step (h : Sound leads size s) (hLeads : ∀ x, ∀ y ∈ leads x, y < size)
    (hWork : s.work ≠ []) :
    remaining leads size (s.step leads) + 1 = remaining leads size s := by
  unfold Search.step
  match hCase : s.work with
  | [] => exact absurd hCase hWork
  | ⟨n, m :: rest⟩ :: below =>
    have hm : m ∈ leads n := by
      obtain ⟨seen, hSeen, -⟩ := h.frame (f := ⟨n, m :: rest⟩) (by simp [hCase])
      simp [hSeen]
    have hPaid : remaining leads size { s with work := ⟨n, rest⟩ :: below } + 1 =
        remaining leads size s := by
      rw [remaining_withWork, remaining, hCase]
      simp only [List.map_cons, List.sum_cons, List.length_cons]
      omega
    have hNext := h.index_lt n
    show remaining leads size (if s.indexOf m = 0 then _ else _) + 1 = _
    split
    case isTrue hNew =>
      have hEnter := remaining_enter leads (s := { s with work := ⟨n, rest⟩ :: below })
        h.size_index (show s.next ≠ 0 by omega) (hLeads n m hm) hNew
      rw [hEnter]
      exact hPaid
    case isFalse =>
      rw [remaining_congr (merge_index _ n m) (merge_work _ n m)]
      exact hPaid
  | ⟨n, []⟩ :: below =>
    have hPaid : remaining leads size { s with work := below } + 1 = remaining leads size s := by
      rw [remaining_withWork, remaining, hCase]
      simp only [List.map_cons, List.sum_cons, List.length_nil]
      omega
    rw [← hPaid]
    congr 1
    cases below with
    | nil => exact remaining_congr (leave_index _ n) (leave_work _ n)
    | cons f below =>
      rw [remaining_congr (merge_index _ _ n) (merge_work _ _ n)]
      exact remaining_congr (leave_index _ n) (leave_work _ n)

/-- A node that was entered stays so. -/
theorem Sound.entered_step (h : Sound leads size s) (hx : s.indexOf x ≠ 0) :
    (s.step leads).indexOf x ≠ 0 := by
  have hSame {s' : Search} (hIndex : s'.index = s.index) : s'.indexOf x ≠ 0 := by
    rw [indexOf, hIndex]
    exact hx
  unfold Search.step
  cases hWork : s.work with
  | nil => exact hx
  | cons f below =>
    obtain ⟨n, rest⟩ := f
    cases rest with
    | cons m rest =>
      show (if s.indexOf m = 0 then _ else _ : Search).indexOf x ≠ 0
      split
      case isTrue hNew =>
        have hNext := h.index_lt x
        show (s.index.set! m s.next).getD x 0 ≠ 0
        rw [getD_set!]
        split
        · omega
        · exact hx
      case isFalse => exact hSame (merge_index _ n m)
    | nil =>
      cases below with
      | nil => exact hSame (leave_index _ n)
      | cons f below => exact hSame ((merge_index _ _ n).trans (leave_index _ n))

/-- With enough steps the search ends, and stays sound. -/
theorem Sound.run (hLeads : ∀ x, ∀ y ∈ leads x, y < size) (steps : Nat) {s : Search}
    (h : Sound leads size s) (hEnough : remaining leads size s ≤ steps) :
    Sound leads size (s.run leads steps) ∧ (s.run leads steps).work = [] ∧
      ∀ x, s.indexOf x ≠ 0 → (s.run leads steps).indexOf x ≠ 0 := by
  induction steps generalizing s with
  | zero =>
    refine ⟨h, ?_, fun x hx => hx⟩
    show s.work = []
    match hWork : s.work with
    | [] => rfl
    | f :: below =>
      simp only [remaining, hWork, List.map_cons, List.sum_cons] at hEnough
      omega
  | succ steps ih =>
    unfold Search.run
    split
    case isTrue hDone => exact ⟨h, List.isEmpty_iff.mp hDone, fun x hx => hx⟩
    case isFalse hMore =>
      rw [List.isEmpty_iff] at hMore
      have hPaid := h.remaining_step hLeads hMore
      obtain ⟨hSound, hEnd, hKeep⟩ := ih (h.step hLeads) (by omega)
      exact ⟨hSound, hEnd, fun x hx => hKeep x (h.entered_step hx)⟩

/-- Between two searches every node that was entered belongs to a complete component. -/
theorem Sound.closed_of_idle (h : Sound leads size s) (hWork : s.work = [])
    (hx : s.indexOf x ≠ 0) : s.isClosed x = true := by
  by_contra hc
  rcases (h.active_iff x).mp ⟨hx, by simpa using hc⟩ with hp | hs
  · simp [path, hWork] at hp
  · obtain ⟨w, hw, -⟩ := h.above hs
    simp [path, hWork] at hw

/-- Exploring from a node closes it. -/
theorem Sound.explore (h : Sound leads size s) (hLeads : ∀ x, ∀ y ∈ leads x, y < size)
    (hWork : s.work = []) (hn : n < size) {steps : Nat}
    (hSteps : ∑ x ∈ Finset.range size, ((leads x).length + 1) ≤ steps) :
    Sound leads size (s.explore leads steps n) ∧ (s.explore leads steps n).work = [] ∧
      (s.explore leads steps n).indexOf n ≠ 0 ∧
      ∀ x, s.indexOf x ≠ 0 → (s.explore leads steps n).indexOf x ≠ 0 := by
  unfold Search.explore
  split
  case isFalse hOld => exact ⟨h, hWork, hOld, fun x hx => hx⟩
  case isTrue hNew =>
    have hNext := h.index_lt n
    have hEnter := h.enter hn hNew (by simp [path, hWork])
    have hEnough : remaining leads size (s.enter leads n) ≤ steps := by
      rw [remaining_enter leads h.size_index (by omega) hn hNew]
      rw [remaining, hWork, List.map_nil, List.sum_nil, Nat.zero_add]
      exact Nat.le_trans (owed_le leads size s) hSteps
    obtain ⟨hSound, hEnd, hKeep⟩ := hEnter.run hLeads steps hEnough
    have hIndex := indexOf_enter leads h.size_index hn
    refine ⟨hSound, hEnd, hKeep n ?_, fun x hx => hKeep x ?_⟩
    · rw [hIndex, if_pos rfl]
      omega
    · rw [hIndex]
      split
      · omega
      · exact hx

/-- Exploring from a list of nodes closes all of them. -/
theorem Sound.exploreAll (hLeads : ∀ x, ∀ y ∈ leads x, y < size) {steps : Nat}
    (hSteps : ∑ x ∈ Finset.range size, ((leads x).length + 1) ≤ steps) (ns : List NodeId)
    {s : Search} (h : Sound leads size s) (hWork : s.work = []) (hns : ∀ n ∈ ns, n < size) :
    Sound leads size (ns.foldl (fun s n => s.explore leads steps n) s) ∧
      (ns.foldl (fun s n => s.explore leads steps n) s).work = [] ∧
      ∀ x, x ∈ ns ∨ s.indexOf x ≠ 0 →
        (ns.foldl (fun s n => s.explore leads steps n) s).indexOf x ≠ 0 := by
  induction ns generalizing s with
  | nil => exact ⟨h, hWork, fun x hx => hx.resolve_left nofun⟩
  | cons n ns ih =>
    obtain ⟨hSound, hEnd, hHere, hKeep⟩ := h.explore hLeads hWork (hns n List.mem_cons_self) hSteps
    obtain ⟨hLast, hIdle, hAll⟩ := ih hSound hEnd fun m hm => hns m (List.mem_cons_of_mem n hm)
    refine ⟨hLast, hIdle, fun x hx => hAll x ?_⟩
    rcases hx with hx | hx
    · rcases List.mem_cons.mp hx with rfl | hx
      · exact .inr hHere
      · exact .inl hx
    · exact .inr (hKeep x hx)

end Search

/-- The components partition the nodes, and the nodes of each reach each other. -/
structure Partition (leads : NodeId → List NodeId) (size : Nat) (comps : List (List NodeId)) :
    Prop where
  mem_flatten (n : NodeId) : n ∈ comps.flatten ↔ n < size
  nodup : comps.flatten.Nodup
  strong {c : List NodeId} {n m : NodeId} : c ∈ comps → n ∈ c → m ∈ c → Reach leads n m

section Found

variable (g : Graph)

theorem searchBound_eq :
    g.searchBound = ∑ n ∈ Finset.range g.nodes.size, ((g.successors n).length + 1) := by
  unfold searchBound
  induction g.nodes.size with
  | zero => rfl
  | succ k ih =>
    rw [List.range_succ, List.foldl_append, ih, Finset.sum_range_succ]
    rfl

variable {g : Graph}

/-- The search finds a partition into components, and an edge out of a component leads to one that
was found before it. -/
theorem foundComponents_spec (hLeads : ∀ n, ∀ m ∈ g.successors n, m < g.nodes.size) :
    Partition g.successors g.nodes.size g.foundComponents ∧
      Backward g.successors g.foundComponents.reverse := by
  have hRun := Search.Sound.exploreAll hLeads (Nat.le_of_eq g.searchBound_eq.symm)
    (List.range g.nodes.size) (Search.sound_fresh g.successors g.nodes.size) rfl
    fun n hn => List.mem_range.mp hn
  unfold foundComponents
  generalize (List.range g.nodes.size).foldl (fun s n => s.explore g.successors g.searchBound n)
    (Search.fresh g.nodes.size) = s at hRun ⊢
  obtain ⟨hSound, hWork, hAll⟩ := hRun
  have hPerm : s.found.reverse.flatten.Perm s.found.flatten := s.found.reverse_perm.flatten
  rw [List.reverse_reverse]
  refine ⟨⟨fun n => ?_, ?_, fun hc => ?_⟩, hSound.backward⟩
  · rw [hPerm.mem_iff, hSound.mem_found]
    constructor
    · exact fun hc => Search.lt_of_entered hSound.size_index (hSound.entered hc)
    · exact fun hn => hSound.closed_of_idle hWork (hAll n (.inl (List.mem_range.mpr hn)))
  · exact hPerm.nodup_iff.mpr hSound.nodup_found
  · exact hSound.strong (List.mem_reverse.mp hc)

end Found

end ValueRange.Graph
