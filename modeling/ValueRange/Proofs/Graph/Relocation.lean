import ValueRange.Proofs.Graph.Embedding

/-! The components of a graph that stands in a larger one. The search of the larger graph goes through
the smaller one as the search of that does, and finds the same components one after the other; sorting
keeps their order, though it may put others in between. -/

namespace ValueRange.Graph

def Frame.shift (a : Nat) (f : Frame) : Frame := ⟨f.node + a, f.rest.map (· + a)⟩

namespace Search

/-- The number of a node in a search that had given out `c` numbers before. -/
def mark (c i : Nat) : Nat := if i = 0 then 0 else i + c

theorem mark_eq_zero {c i : Nat} : mark c i = 0 ↔ i = 0 := by
  unfold mark
  split <;> omega

theorem mark_lt {c i j : Nat} : mark c i < mark c j ↔ i < j := by
  unfold mark
  split <;> split <;> omega

theorem while_congr {l : List Nat} {p q : Nat → Bool} (h : ∀ x ∈ l, p x = q x) :
    l.takeWhile p = l.takeWhile q ∧ l.dropWhile p = l.dropWhile q := by
  induction l with
  | nil => exact ⟨rfl, rfl⟩
  | cons x l ih =>
    obtain ⟨hTake, hDrop⟩ := ih fun y hy => h y (List.mem_cons_of_mem x hy)
    rw [List.takeWhile_cons, List.takeWhile_cons, List.dropWhile_cons, List.dropWhile_cons,
      h x List.mem_cons_self, hTake, hDrop]
    exact ⟨rfl, rfl⟩

/-- A search that has ended takes no more steps. -/
theorem run_of_le {leads : NodeId → List NodeId} {s : Search} {steps steps' : Nat}
    (hIdle : (s.run leads steps).work = []) (hle : steps ≤ steps') :
    s.run leads steps' = s.run leads steps := by
  induction steps generalizing s steps' with
  | zero =>
    cases steps' with
    | zero => rfl
    | succ steps' => exact if_pos (List.isEmpty_iff.mpr hIdle)
  | succ steps ih =>
    obtain ⟨steps', rfl⟩ : ∃ k, steps' = k + 1 := ⟨steps' - 1, by omega⟩
    unfold Search.run at hIdle ⊢
    split at hIdle
    case isTrue hDone => rw [if_pos hDone, if_pos hDone]
    case isFalse hMore =>
      rw [if_neg hMore, if_neg hMore]
      exact ih hIdle (Nat.le_of_succ_le_succ hle)

/-- The search `t` does what `s` does, `a` nodes on, after it had given out `c` numbers and found the
components `base`. -/
structure Follows (a size c : Nat) (base : List (List NodeId)) (s t : Search) : Prop where
  index {n : NodeId} : n < size → t.indexOf (n + a) = mark c (s.indexOf n)
  root {n : NodeId} : s.indexOf n ≠ 0 → t.rootOf (n + a) = s.rootOf n + a
  closed {n : NodeId} : n < size → t.isClosed (n + a) = s.isClosed n
  stack : t.stack = s.stack.map (· + a)
  found : t.found = s.found.map (·.map (· + a)) ++ base
  next : t.next = s.next + c
  work : t.work = s.work.map (Frame.shift a)

namespace Follows

variable {a size size' c n m : Nat} {base : List (List NodeId)} {s t : Search}
variable {leads leads' : NodeId → List NodeId}

theorem withWork (h : Follows a size c base s t) (work : List Frame) (stack : List NodeId) :
    Follows a size c base { s with work, stack }
      { t with work := work.map (Frame.shift a), stack := stack.map (· + a) } :=
  ⟨h.index, h.root, h.closed, rfl, h.found, h.next, rfl⟩

theorem enter (h : Follows a size c base s t) (hs : Sound leads size s)
    (ht : Sound leads' size' t) (hSize : a + size ≤ size') (hn : n < size)
    (hLeads : leads' (n + a) = (leads n).map (· + a)) :
    Follows a size c base (s.enter leads n) (t.enter leads' (n + a)) := by
  have hn' : n + a < size' := by omega
  have hNext := hs.index_lt n
  have hIndex := indexOf_enter leads hs.size_index hn
  have hIndex' := indexOf_enter leads' ht.size_index hn'
  refine ⟨fun {m} hm => ?_, fun {m} hm => ?_, h.closed, h.stack, h.found, ?_, ?_⟩
  · rw [hIndex, hIndex']
    by_cases hmn : m = n
    · rw [if_pos hmn, if_pos (congrArg (· + a) hmn), h.next, mark, if_neg (by omega)]
    · rw [if_neg hmn, if_neg fun hSame => hmn (Nat.add_right_cancel hSame), h.index hm]
  · rw [rootOf_enter leads hs.size_root hn, rootOf_enter leads' ht.size_root hn']
    rw [hIndex] at hm
    by_cases hmn : m = n
    · rw [if_pos hmn, if_pos (congrArg (· + a) hmn)]
    · rw [if_neg hmn] at hm
      rw [if_neg hmn, if_neg fun hSame => hmn (Nat.add_right_cancel hSame), h.root hm]
  · show t.next + 1 = s.next + 1 + c
    rw [h.next]
    omega
  · show (⟨n + a, leads' (n + a)⟩ : Frame) :: t.work = _
    rw [hLeads, h.work]
    rfl

theorem merge (h : Follows a size c base s t) (hs : Sound leads size s) (ht : Sound leads' size' t)
    (hSize : a + size ≤ size') (hn : s.Active n) (hm : s.indexOf m ≠ 0) :
    Follows a size c base (s.merge n m) (t.merge (n + a) (m + a)) := by
  have hLt {x : NodeId} (hx : s.indexOf x ≠ 0) : x < size := lt_of_entered hs.size_index hx
  cases hClosed : s.isClosed m with
  | true =>
    rw [merge_of_closed n hClosed, merge_of_closed _ ((h.closed (hLt hm)).trans hClosed)]
    exact h
  | false =>
    have hRoot (x : NodeId) (hx : s.Active x) :
        t.indexOf (t.rootOf (x + a)) = mark c (s.indexOf (s.rootOf x)) := by
      rw [h.root hx.1, h.index (hLt (hs.root hx).1.1)]
    unfold Search.merge
    rw [h.closed (hLt hm), hRoot n hn, hRoot m ⟨hm, hClosed⟩, h.root hm]
    simp only [mark_lt]
    split
    · refine ⟨h.index, fun {x} hx => ?_, h.closed, h.stack, h.found, h.next, h.work⟩
      show (t.root.set! (n + a) (s.rootOf m + a)).getD (x + a) 0 =
        (s.root.set! n (s.rootOf m)).getD x 0 + a
      have hn' : n < size := hLt hn.1
      rw [getD_set!, getD_set!, ht.size_root, hs.size_root]
      by_cases hnx : n = x
      · rw [if_pos ⟨congrArg (· + a) hnx, by omega⟩, if_pos ⟨hnx, hn'⟩]
      · rw [if_neg fun hSame => hnx (Nat.add_right_cancel hSame.1),
          if_neg fun hSame => hnx hSame.1]
        exact h.root hx
    · exact h

/-- Both searches complete a component. -/
theorem close (h : Follows a size c base s t) (hs : Sound leads size s) (ht : Sound leads' size' t)
    (hSize : a + size ≤ size') (hn : s.Active n) (below : List Frame) :
    Follows a size c base (s.closeComponent n below)
      (t.closeComponent (n + a) (below.map (Frame.shift a))) := by
  have hLt {x : NodeId} (hx : s.indexOf x ≠ 0) : x < size := lt_of_entered hs.size_index hx
  have hIndex (x : Nat) (hx : x ∈ s.stack) : decide (t.indexOf (n + a) < t.indexOf (x + a)) =
      decide (s.indexOf n < s.indexOf x) := by
    rw [h.index (hLt hn.1), h.index (hLt ((hs.active_iff x).mpr (.inr hx)).1)]
    exact decide_eq_decide.mpr mark_lt
  obtain ⟨hTake, hDrop⟩ := while_congr hIndex
  have hComp : t.component (n + a) = (s.component n).map (· + a) := by
    rw [component, component, h.stack, List.takeWhile_map]
    exact congrArg (fun l => (n + a) :: List.map (· + a) l) hTake
  refine ⟨h.index, h.root, fun {x} hx => ?_, ?_, ?_, h.next, rfl⟩
  · have hMem : x + a ∈ (s.component n).map (· + a) ↔ x ∈ s.component n :=
      List.mem_map_of_injective fun _ _ => Nat.add_right_cancel
    show ((t.component (n + a)).foldl _ t.closed).getD (x + a) false =
      ((s.component n).foldl _ s.closed).getD x false
    rw [getD_setAll, getD_setAll, hComp, ht.size_closed, hs.size_closed]
    by_cases hx' : x ∈ s.component n
    · rw [if_pos ⟨hMem.mpr hx', Nat.lt_of_lt_of_le (Nat.add_lt_add_right hx a)
        (Nat.add_comm a size ▸ hSize)⟩, if_pos ⟨hx', hx⟩]
    · rw [if_neg fun hSame => hx' (hMem.mp hSame.1), if_neg fun hSame => hx' hSame.1]
      exact h.closed hx
  · show t.stack.dropWhile _ = (s.stack.dropWhile _).map _
    rw [h.stack, List.dropWhile_map]
    exact congrArg _ hDrop
  · show t.component (n + a) :: t.found = (s.component n :: s.found).map _ ++ base
    rw [hComp, h.found]
    rfl

/-- A step within the smaller graph. -/
theorem step (h : Follows a size c base s t) (hs : Sound leads size s) (ht : Sound leads' size' t)
    (hSize : a + size ≤ size') (hLeads : ∀ n < size, leads' (n + a) = (leads n).map (· + a))
    (hLt : ∀ x, ∀ y ∈ leads x, y < size) :
    Follows a size c base (s.step leads) (t.step leads') := by
  have hWork := h.work
  unfold Search.step
  match hCase : s.work with
  | [] =>
    rw [hCase] at hWork
    rw [hWork]
    exact h
  | ⟨n, m :: rest⟩ :: below =>
    rw [hCase] at hWork
    rw [hWork]
    have hn : s.Active n := (hs.active_iff n).mpr (.inl (by simp [path, hCase]))
    have hm : m < size := by
      obtain ⟨seen, hSeen, -⟩ := hs.frame (f := ⟨n, m :: rest⟩) (by simp [hCase])
      exact hLt n m (by simp [hSeen])
    have hNew : t.indexOf (m + a) = 0 ↔ s.indexOf m = 0 := by rw [h.index hm, mark_eq_zero]
    show Follows a size c base (if s.indexOf m = 0 then _ else _)
      (if t.indexOf (m + a) = 0 then _ else _)
    by_cases hEntered : s.indexOf m = 0
    · rw [if_pos hEntered, if_pos (hNew.mpr hEntered)]
      have hEnter := (h.enter hs ht hSize hm (hLeads m hm)).withWork
        (⟨m, leads m⟩ :: ⟨n, rest⟩ :: below) s.stack
      rw [List.map_cons, Frame.shift, ← hLeads m hm, ← h.stack] at hEnter
      exact hEnter
    · rw [if_neg hEntered, if_neg fun hSame => hEntered (hNew.mp hSame),
        merge_with s _ s.stack, merge_with t _ t.stack, h.stack]
      exact (h.merge hs ht hSize hn hEntered).withWork (⟨n, rest⟩ :: below) s.stack
  | ⟨n, []⟩ :: below =>
    rw [hCase] at hWork
    rw [hWork]
    have hn : s.Active n := (hs.active_iff n).mpr (.inl (by simp [path, hCase]))
    have hRoot : t.rootOf (n + a) = n + a ↔ s.rootOf n = n := by
      rw [h.root hn.1]
      exact Nat.add_right_cancel_iff
    by_cases hOwn : s.rootOf n = n
    · have hLeave : ({ s with work := below } : Search).leave n = s.closeComponent n below :=
        if_pos hOwn
      have hLeave' : ({ t with work := below.map (Frame.shift a) } : Search).leave (n + a) =
          t.closeComponent (n + a) (below.map (Frame.shift a)) := if_pos (hRoot.mpr hOwn)
      have hClose := h.close hs ht hSize hn below
      have hClosed : (s.closeComponent n below).isClosed n = true :=
        (hs.isClosed_close hCase n).mpr (.inr List.mem_cons_self)
      have hClosed' := (hClose.closed (lt_of_entered hs.size_index hn.1)).trans hClosed
      cases below with
      | nil =>
        show Follows a size c base (({ s with work := [] } : Search).leave n)
          (({ t with work := [] } : Search).leave (n + a))
        rw [hLeave]
        exact hLeave' ▸ hClose
      | cons f below =>
        show Follows a size c base ((({ s with work := f :: below } : Search).leave n).merge f.node n)
          ((({ t with work := (f :: below).map (Frame.shift a) } : Search).leave (n + a)).merge
            (f.node + a) (n + a))
        rw [hLeave, hLeave', merge_of_closed _ hClosed, merge_of_closed _ hClosed']
        exact hClose
    · have hLeave : ({ s with work := below } : Search).leave n =
          { s with work := below, stack := n :: s.stack } := if_neg hOwn
      have hLeave' : ({ t with work := below.map (Frame.shift a) } : Search).leave (n + a) =
          { t with work := below.map (Frame.shift a), stack := (n + a) :: t.stack } :=
        if_neg fun hSame => hOwn (hRoot.mp hSame)
      cases below with
      | nil => exact absurd rfl (hs.below_ne_nil hCase hOwn)
      | cons f below =>
        have hf : s.Active f.node := (hs.active_iff f.node).mpr (.inl (by simp [path, hCase]))
        show Follows a size c base ((({ s with work := f :: below } : Search).leave n).merge f.node n)
          ((({ t with work := (f :: below).map (Frame.shift a) } : Search).leave (n + a)).merge
            (f.node + a) (n + a))
        rw [hLeave, hLeave', merge_with s, merge_with t, h.stack]
        exact (h.merge hs ht hSize hf hn.1).withWork (f :: below) (n :: s.stack)

/-- Both searches run as long as there is work. -/
theorem run (steps : Nat) (h : Follows a size c base s t) (hs : Sound leads size s)
    (ht : Sound leads' size' t) (hSize : a + size ≤ size')
    (hLeads : ∀ n < size, leads' (n + a) = (leads n).map (· + a))
    (hLt : ∀ x, ∀ y ∈ leads x, y < size) (hLt' : ∀ x, ∀ y ∈ leads' x, y < size') :
    Follows a size c base (s.run leads steps) (t.run leads' steps) := by
  induction steps generalizing s t with
  | zero => exact h
  | succ steps ih =>
    have hEmpty : t.work.isEmpty = s.work.isEmpty := by rw [h.work, List.isEmpty_map]
    unfold Search.run
    rw [hEmpty]
    split
    · exact h
    · exact ih (h.step hs ht hSize hLeads hLt) (hs.step hLt) (ht.step hLt')

theorem explore (h : Follows a size c base s t) (hs : Sound leads size s)
    (ht : Sound leads' size' t) (hWork : s.work = []) (hSize : a + size ≤ size')
    (hLeads : ∀ n < size, leads' (n + a) = (leads n).map (· + a))
    (hLt : ∀ x, ∀ y ∈ leads x, y < size) (hLt' : ∀ x, ∀ y ∈ leads' x, y < size') {steps steps' : Nat}
    (hSteps : ∑ x ∈ Finset.range size, ((leads x).length + 1) ≤ steps)
    (hSteps' : ∑ x ∈ Finset.range size', ((leads' x).length + 1) ≤ steps') (hn : n < size) :
    Follows a size c base (s.explore leads steps n) (t.explore leads' steps' (n + a)) := by
  have hn' : n + a < size' := by omega
  have hWork' : t.work = [] := by rw [h.work, hWork, List.map_nil]
  obtain ⟨-, hIdle, -⟩ := hs.explore hLt hWork hn hSteps
  obtain ⟨-, hIdle', -⟩ := ht.explore hLt' hWork' hn' hSteps'
  have hNew : t.indexOf (n + a) = 0 ↔ s.indexOf n = 0 := by rw [h.index hn, mark_eq_zero]
  unfold Search.explore at hIdle hIdle' ⊢
  by_cases hEntered : s.indexOf n = 0
  · have hEntered' := hNew.mpr hEntered
    rw [if_pos hEntered] at hIdle ⊢
    rw [if_pos hEntered'] at hIdle' ⊢
    rw [← run_of_le hIdle (Nat.le_max_left steps steps'),
      ← run_of_le hIdle' (Nat.le_max_right steps steps')]
    exact (h.enter hs ht hSize hn (hLeads n hn)).run _
      (hs.enter hn hEntered (by simp [path, hWork])) (ht.enter hn' hEntered' (by simp [path, hWork']))
      hSize hLeads hLt hLt'
  · rw [if_neg hEntered, if_neg fun hSame => hEntered (hNew.mp hSame)]
    exact h

/-- Both searches explore the nodes of the smaller graph. -/
theorem exploreAll (ns : List Nat) (h : Follows a size c base s t) (hs : Sound leads size s)
    (ht : Sound leads' size' t) (hWork : s.work = []) (hSize : a + size ≤ size')
    (hLeads : ∀ n < size, leads' (n + a) = (leads n).map (· + a))
    (hLt : ∀ x, ∀ y ∈ leads x, y < size) (hLt' : ∀ x, ∀ y ∈ leads' x, y < size') {steps steps' : Nat}
    (hSteps : ∑ x ∈ Finset.range size, ((leads x).length + 1) ≤ steps)
    (hSteps' : ∑ x ∈ Finset.range size', ((leads' x).length + 1) ≤ steps')
    (hns : ∀ n ∈ ns, n < size) :
    Follows a size c base (ns.foldl (fun s n => s.explore leads steps n) s)
      ((ns.map (· + a)).foldl (fun s n => s.explore leads' steps' n) t) := by
  induction ns generalizing s t with
  | nil => exact h
  | cons n ns ih =>
    have hn := hns n List.mem_cons_self
    have hn' : n + a < size' := by omega
    have hWork' : t.work = [] := by rw [h.work, hWork, List.map_nil]
    obtain ⟨hSound, hIdle, -⟩ := hs.explore hLt hWork hn hSteps
    obtain ⟨hSound', -⟩ := ht.explore hLt' hWork' hn' hSteps'
    exact ih (h.explore hs ht hWork hSize hLeads hLt hLt' hSteps hSteps' hn) hSound hSound' hIdle
      fun m hm => hns m (List.mem_cons_of_mem n hm)

end Follows

section Elsewhere

variable {leads : NodeId → List NodeId} {P : NodeId → Prop} {s : Search} {n : NodeId}

/-- The search has kept to the nodes of a set. -/
structure Within (P : NodeId → Prop) (s : Search) : Prop where
  entered {x : NodeId} : s.indexOf x ≠ 0 → P x
  node {f : Frame} : f ∈ s.work → P f.node
  rest {f : Frame} {x : NodeId} : f ∈ s.work → x ∈ f.rest → P x

theorem Within.of_eq {s' : Search} (h : Within P s) (hIndex : s'.index = s.index)
    (hWork : s'.work = s.work) : Within P s' := by
  refine ⟨fun {x} hx => h.entered (x := x) ?_, fun hf => h.node (hWork ▸ hf),
    fun hf hx => h.rest (hWork ▸ hf) hx⟩
  rwa [indexOf, hIndex] at hx

theorem Within.withWork {work : List Frame} (h : Within P s) (hNode : ∀ f ∈ work, P f.node)
    (hRest : ∀ f ∈ work, ∀ x ∈ f.rest, P x) : Within P { s with work } :=
  ⟨h.entered, fun hf => hNode _ hf, fun hf hx => hRest _ hf _ hx⟩

theorem Within.enter (h : Within P s) (hP : ∀ x, P x → ∀ y ∈ leads x, P y) (hn : P n) :
    Within P (s.enter leads n) := by
  refine ⟨fun {x} hx => ?_, fun {f} hf => ?_, fun {f x} hf hx => ?_⟩
  · have hx' : (s.index.set! n s.next).getD x 0 ≠ 0 := hx
    rw [getD_set!] at hx'
    split at hx'
    case isTrue hSame => exact hSame.1 ▸ hn
    case isFalse => exact h.entered hx'
  · rcases List.mem_cons.mp hf with rfl | hf
    · exact hn
    · exact h.node hf
  · rcases List.mem_cons.mp hf with rfl | hf
    · exact hP n hn x hx
    · exact h.rest hf hx

/-- A set that leads only to itself is not left. -/
theorem Within.step (h : Within P s) (hP : ∀ x, P x → ∀ y ∈ leads x, P y) :
    Within P (s.step leads) := by
  unfold Search.step
  match hWork : s.work with
  | [] => exact h
  | ⟨n, m :: rest⟩ :: below =>
    have hm : P m := h.rest (f := ⟨n, m :: rest⟩) (by simp [hWork]) List.mem_cons_self
    have hNext : Within P { s with work := ⟨n, rest⟩ :: below } := by
      refine h.withWork (fun f hf => ?_) fun f hf x hx => ?_
      · rcases List.mem_cons.mp hf with rfl | hf
        · exact h.node (f := ⟨n, m :: rest⟩) (by simp [hWork])
        · exact h.node (by simp [hWork, hf])
      · rcases List.mem_cons.mp hf with rfl | hf
        · exact h.rest (f := ⟨n, m :: rest⟩) (by simp [hWork]) (List.mem_cons_of_mem m hx)
        · exact h.rest (f := f) (by simp [hWork, hf]) hx
    show Within P (if s.indexOf m = 0 then _ else _)
    split
    · exact hNext.enter hP hm
    · exact hNext.of_eq (merge_index ..) (merge_work ..)
  | ⟨n, []⟩ :: below =>
    have hNext : Within P { s with work := below } := by
      refine h.withWork (fun f hf => h.node (by simp [hWork, hf])) fun f hf x hx => ?_
      exact h.rest (f := f) (by simp [hWork, hf]) hx
    have hLeave := hNext.of_eq (leave_index _ n) (leave_work _ n)
    cases below with
    | nil => exact hLeave
    | cons f below => exact hLeave.of_eq (merge_index ..) (merge_work ..)

theorem Within.run (steps : Nat) (h : Within P s) (hP : ∀ x, P x → ∀ y ∈ leads x, P y) :
    Within P (s.run leads steps) := by
  induction steps generalizing s with
  | zero => exact h
  | succ steps ih =>
    unfold Search.run
    split
    · exact h
    · exact ih (h.step hP)

theorem Within.exploreAll (steps : Nat) (ns : List NodeId) (h : Within P s)
    (hP : ∀ x, P x → ∀ y ∈ leads x, P y) (hns : ∀ n ∈ ns, P n) :
    Within P (ns.foldl (fun s n => s.explore leads steps n) s) := by
  induction ns generalizing s with
  | nil => exact h
  | cons n ns ih =>
    refine ih ?_ fun m hm => hns m (List.mem_cons_of_mem n hm)
    show Within P (if s.indexOf n = 0 then _ else _)
    split
    · exact (h.enter hP (hns n List.mem_cons_self)).run steps hP
    · exact h

end Elsewhere

/-- What was found stays found. -/
theorem found_step (leads : NodeId → List NodeId) (s : Search) :
    ∃ more, (s.step leads).found = more ++ s.found := by
  have hLeave (s : Search) (n : NodeId) : ∃ more, (s.leave n).found = more ++ s.found := by
    unfold leave
    split
    · exact ⟨[_], rfl⟩
    · exact ⟨[], rfl⟩
  have hMerge (s : Search) (n m : NodeId) : (s.merge n m).found = s.found := by
    unfold merge
    split <;> rfl
  unfold step
  match s.work with
  | [] => exact ⟨[], rfl⟩
  | ⟨n, m :: rest⟩ :: below =>
    show ∃ more, (if s.indexOf m = 0 then _ else _ : Search).found = more ++ s.found
    split
    · exact ⟨[], rfl⟩
    · exact ⟨[], hMerge ..⟩
  | ⟨n, []⟩ :: [] => exact hLeave { s with work := [] } n
  | ⟨n, []⟩ :: f :: below =>
    obtain ⟨more, hMore⟩ := hLeave { s with work := f :: below } n
    exact ⟨more, (hMerge ..).trans hMore⟩

theorem found_run (leads : NodeId → List NodeId) (steps : Nat) (s : Search) :
    ∃ more, (s.run leads steps).found = more ++ s.found := by
  induction steps generalizing s with
  | zero => exact ⟨[], rfl⟩
  | succ steps ih =>
    unfold run
    split
    · exact ⟨[], rfl⟩
    · obtain ⟨more, hMore⟩ := ih (s.step leads)
      obtain ⟨one, hOne⟩ := found_step leads s
      exact ⟨more ++ one, by rw [hMore, hOne, List.append_assoc]⟩

theorem found_exploreAll (leads : NodeId → List NodeId) (steps : Nat) (ns : List NodeId)
    (s : Search) : ∃ more,
      (ns.foldl (fun s n => s.explore leads steps n) s).found = more ++ s.found := by
  induction ns generalizing s with
  | nil => exact ⟨[], rfl⟩
  | cons n ns ih =>
    obtain ⟨more, hMore⟩ := ih (s.explore leads steps n)
    obtain ⟨one, hOne⟩ : ∃ one, (s.explore leads steps n).found = one ++ s.found := by
      unfold explore
      split
      · exact found_run leads steps (s.enter leads n)
      · exact ⟨[], rfl⟩
    exact ⟨more ++ one, by rw [List.foldl_cons, hMore, hOne, List.append_assoc]⟩

/-- A search that has kept apart from the smaller graph is ready to enter it. -/
theorem Within.follows {leads : NodeId → List NodeId} {a size size' : Nat} {t : Search}
    (h : Within (Apart a size) t) (ht : Sound leads size' t) (hWork : t.work = []) :
    Follows a size (t.next - 1) t.found (fresh size) t := by
  have hNew {n : Nat} (hn : n < size) : t.indexOf (n + a) = 0 := by
    by_contra hEntered
    exact (h.entered hEntered).ne hn rfl
  have hStack : t.stack = [] := by
    refine List.eq_nil_iff_forall_not_mem.mpr fun x hx => ?_
    obtain ⟨w, hw, -⟩ := ht.above hx
    simp [path, hWork] at hw
  have hNext := ht.index_lt 0
  refine ⟨fun hn => ?_, fun hn => ?_, fun hn => ?_, hStack, rfl, ?_, hWork⟩
  · rw [hNew hn, indexOf_fresh]
    rfl
  · exact absurd (indexOf_fresh size _) hn
  · rw [isClosed_fresh, ← Bool.not_eq_true]
    exact fun hClosed => ht.entered hClosed (hNew hn)
  · show t.next = 1 + (t.next - 1)
    omega

end Search

variable {a b : Nat} {g h : Graph}

theorem range_split {a size n : Nat} (h : a + size ≤ n) :
    List.range n = List.range a ++ (List.range size).map (· + a) ++
      (List.range (n - (a + size))).map (a + size + ·) := by
  rw [show (fun x => x + a) = (a + ·) from funext fun x => Nat.add_comm x a, ← List.range_add,
    ← List.range_add, Nat.add_sub_cancel' h]

/-- The components of the smaller graph are found one after the other. -/
theorem Embeds.foundComponents (hEmbeds : Embeds a b g h) (hg : Wired g) (hh : Wired h)
    (hSize : a + g.nodes.size ≤ h.nodes.size) : ∃ before after,
      h.foundComponents = before ++ g.foundComponents.map (·.map (· + a)) ++ after := by
  have hLt := hg.successors_lt
  have hLt' := hh.successors_lt
  have hBound := Nat.le_of_eq g.searchBound_eq.symm
  have hBound' := Nat.le_of_eq h.searchBound_eq.symm
  unfold Graph.foundComponents
  rw [range_split hSize, List.foldl_append, List.foldl_append]
  obtain ⟨hSound, hIdle, -⟩ := Search.Sound.exploreAll hLt' hBound' (List.range a)
    (Search.sound_fresh h.successors h.nodes.size) rfl fun n hn =>
      (List.mem_range.mp hn).trans_le ((Nat.le_add_right a _).trans hSize)
  have hWithin : Search.Within (Apart a g.nodes.size) ((List.range a).foldl
      (fun s n => s.explore h.successors h.searchBound n) (Search.fresh h.nodes.size)) := by
    refine Search.Within.exploreAll _ _ ⟨fun hx => absurd (Search.indexOf_fresh _ _) hx, nofun, nofun⟩
      (fun x hx y hy => hEmbeds.apart_successor hg hh hy hx) fun n hn => ?_
    exact .inl (List.mem_range.mp hn)
  generalize (List.range a).foldl (fun s n => s.explore h.successors h.searchBound n)
    (Search.fresh h.nodes.size) = t at hSound hIdle hWithin ⊢
  have hFollows := (hWithin.follows hSound hIdle).exploreAll (List.range g.nodes.size)
    (Search.sound_fresh g.successors g.nodes.size) hSound rfl hSize
    (fun n hn => hEmbeds.successors hg hn) hLt hLt' hBound hBound' fun n hn => List.mem_range.mp hn
  obtain ⟨more, hMore⟩ := Search.found_exploreAll h.successors h.searchBound
    ((List.range (h.nodes.size - (a + g.nodes.size))).map (a + g.nodes.size + ·))
    (((List.range g.nodes.size).map (· + a)).foldl
      (fun s n => s.explore h.successors h.searchBound n) t)
  refine ⟨t.found.reverse, more.reverse, ?_⟩
  rw [hMore, hFollows.found]
  simp only [List.reverse_append, List.map_reverse]

end ValueRange.Graph
