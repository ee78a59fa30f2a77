import Mathlib.Algebra.BigOperators.Group.Finset.Basic
import Mathlib.Data.List.Pairwise
import Mathlib.Logic.Relation
import ValueRange.Graph.Components

/-! The depth-first search for components. The nodes that were entered and belong to no component
yet are active: they stand on the path from the first node of the search to the innermost one, or
were left and wait on the stack. The search is sound if the root of every active node is an active
node that it reaches and that was entered no later, and if no node that was looked at lies before
the root of the node that looked at it. A node that is its own root when it is left then completes
a component. -/

namespace ValueRange.Graph

/-- One node reaches another along the edges `leads`. -/
abbrev Reach (leads : NodeId → List NodeId) : NodeId → NodeId → Prop :=
  Relation.ReflTransGen fun n m => m ∈ leads n

/-- The components stand last one first: an edge out of a component leads to one after it. -/
def Backward (leads : NodeId → List NodeId) : List (List NodeId) → Prop
  | [] => True
  | comp :: rest =>
    (∀ x ∈ comp, ∀ y ∈ leads x, y ∈ comp ∨ y ∈ rest.flatten) ∧ Backward leads rest

namespace Search

variable {leads : NodeId → List NodeId} {size : Nat} {s : Search} {n m x y : NodeId}

/-- The nodes that were not left yet, the innermost one first. -/
def path (s : Search) : List NodeId := s.work.map (·.node)

/-- The node was entered and its component is not complete. -/
def Active (s : Search) (n : NodeId) : Prop := s.indexOf n ≠ 0 ∧ s.isClosed n = false

/-- The node `y` belongs to a complete component or is not before the root of `x`. -/
def Settled (s : Search) (x y : NodeId) : Prop :=
  s.isClosed y = true ∨ (s.Active y ∧ s.indexOf (s.rootOf x) ≤ s.indexOf y)

/-- The invariant of a search. -/
structure Sound (leads : NodeId → List NodeId) (size : Nat) (s : Search) : Prop where
  size_index : s.index.size = size
  size_root : s.root.size = size
  size_closed : s.closed.size = size
  index_lt (x : NodeId) : s.indexOf x < s.next
  index_inj {x y : NodeId} : s.indexOf x ≠ 0 → s.indexOf x = s.indexOf y → x = y
  mem_found (x : NodeId) : x ∈ s.found.flatten ↔ s.isClosed x = true
  entered {x : NodeId} : s.isClosed x = true → s.indexOf x ≠ 0
  active_iff (x : NodeId) : s.Active x ↔ x ∈ s.path ∨ x ∈ s.stack
  sorted : s.path.Pairwise fun a b => s.indexOf b < s.indexOf a
  nodup_stack : s.stack.Nodup
  disjoint {x : NodeId} : x ∈ s.stack → x ∉ s.path
  root_ne {x : NodeId} : x ∈ s.stack → s.rootOf x ≠ x
  above {x : NodeId} : x ∈ s.stack → ∃ w ∈ s.path, s.indexOf w < s.indexOf x
  split {w : NodeId} : w ∈ s.path →
    s.stack.Pairwise fun a b => s.indexOf w < s.indexOf b → s.indexOf w < s.indexOf a
  root {x : NodeId} : s.Active x →
    s.Active (s.rootOf x) ∧ s.indexOf (s.rootOf x) ≤ s.indexOf x ∧ Reach leads x (s.rootOf x)
  reach {w x : NodeId} : w ∈ s.path → s.Active x → s.indexOf w < s.indexOf x → Reach leads w x
  frame {f : Frame} : f ∈ s.work → ∃ seen, leads f.node = seen ++ f.rest ∧
    ∀ y ∈ seen, s.Settled f.node y
  looked {x y : NodeId} : x ∈ s.stack → y ∈ leads x → s.Settled x y
  between {v x : NodeId} : v ∈ s.path → x ∈ s.stack → s.indexOf v < s.indexOf x →
    (∀ u ∈ s.path, s.indexOf v < s.indexOf u → s.indexOf x < s.indexOf u) →
    s.indexOf (s.rootOf v) ≤ s.indexOf (s.rootOf x)
  nodup_found : s.found.flatten.Nodup
  strong {c : List NodeId} {x y : NodeId} : c ∈ s.found → x ∈ c → y ∈ c → Reach leads x y
  backward : Backward leads s.found

theorem getD_set! {α : Type} (a : Array α) (i j : Nat) (v d : α) :
    (a.set! i v).getD j d = if i = j ∧ i < a.size then v else a.getD j d := by
  simp only [Array.set!_eq_setIfInBounds, Array.getD_eq_getD_getElem?,
    Array.getElem?_setIfInBounds]
  by_cases h : i = j
  · subst h
    by_cases hi : i < a.size <;> simp [hi]
  · simp [h]

/-- Only nodes of the graph are entered. -/
theorem lt_of_entered (hs : s.index.size = size) (h : s.indexOf x ≠ 0) : x < size := by
  by_contra hx
  have hNone : s.index[x]? = none := Array.getElem?_eq_none (hs ▸ Nat.not_lt.mp hx)
  exact h (by rw [indexOf, Array.getD_eq_getD_getElem?, hNone]; rfl)

theorem indexOf_fresh (size : Nat) (x : NodeId) : (fresh size).indexOf x = 0 := by
  simp only [fresh, indexOf, Array.getD_eq_getD_getElem?, Array.getElem?_replicate]
  split <;> rfl

theorem isClosed_fresh (size : Nat) (x : NodeId) : (fresh size).isClosed x = false := by
  simp only [fresh, isClosed, Array.getD_eq_getD_getElem?, Array.getElem?_replicate]
  split <;> rfl

theorem sound_fresh (leads : NodeId → List NodeId) (size : Nat) :
    Sound leads size (fresh size) where
  size_index := Array.size_replicate
  size_root := Array.size_replicate
  size_closed := Array.size_replicate
  index_lt x := by
    rw [indexOf_fresh]
    exact Nat.one_pos
  index_inj h := absurd (indexOf_fresh size _) h
  mem_found x := by
    rw [isClosed_fresh]
    exact ⟨nofun, nofun⟩
  entered h := by
    rw [isClosed_fresh] at h
    cases h
  active_iff x := by
    refine ⟨fun h => absurd (indexOf_fresh size x) h.1, fun h => ?_⟩
    rcases h with h | h <;> cases h
  sorted := .nil
  nodup_stack := .nil
  disjoint := nofun
  root_ne := nofun
  above := nofun
  split := nofun
  root h := absurd (indexOf_fresh size _) h.1
  reach := nofun
  frame := nofun
  looked := nofun
  between := nofun
  nodup_found := .nil
  strong := nofun
  backward := trivial

/-- A node of the path takes over an earlier root that it reaches. -/
def lowerRoot (s : Search) (n r : NodeId) : Search := { s with root := s.root.set! n r }

theorem Sound.lowerRoot {r : NodeId} (h : Sound leads size s) (hn : n ∈ s.path)
    (hr : s.Active r) (hle : s.indexOf r ≤ s.indexOf (s.rootOf n)) (hReach : Reach leads n r) :
    Sound leads size (s.lowerRoot n r) := by
  have hActive : s.Active n := (h.active_iff n).mpr (.inl hn)
  have hLt : n < s.root.size := h.size_root ▸ lt_of_entered h.size_index hActive.1
  have hRoot (x : NodeId) : (s.lowerRoot n r).rootOf x = if x = n then r else s.rootOf x := by
    show (s.root.set! n r).getD x 0 = _
    rw [getD_set!]
    by_cases hx : x = n
    · subst hx
      simp [hLt]
    · simp [hx, Ne.symm hx, rootOf]
  have hIndex (x : NodeId) : s.indexOf ((s.lowerRoot n r).rootOf x) ≤ s.indexOf (s.rootOf x) := by
    rw [hRoot]
    split
    · subst x
      exact hle
    · exact Nat.le_refl _
  have hSettled {x y : NodeId} (hs : s.Settled x y) : (s.lowerRoot n r).Settled x y :=
    hs.imp id fun ⟨ha, hi⟩ => ⟨ha, Nat.le_trans (hIndex x) hi⟩
  have hKeep {x : NodeId} (hx : x ∈ s.stack) : (s.lowerRoot n r).rootOf x = s.rootOf x := by
    rw [hRoot, if_neg]
    rintro rfl
    exact h.disjoint hx hn
  exact {
    size_index := h.size_index
    size_root := by
      show (s.root.set! n r).size = size
      rw [Array.set!_eq_setIfInBounds, Array.size_setIfInBounds, h.size_root]
    size_closed := h.size_closed
    index_lt := h.index_lt
    index_inj := h.index_inj
    mem_found := h.mem_found
    entered := h.entered
    active_iff := h.active_iff
    sorted := h.sorted
    nodup_stack := h.nodup_stack
    disjoint := h.disjoint
    root_ne := fun {x} hx => by
      rw [hKeep hx]
      exact h.root_ne hx
    above := h.above
    split := h.split
    root := fun {x} hx => by
      obtain ⟨ha, hi, hReach'⟩ := h.root hx
      rw [hRoot]
      split
      · subst x
        exact ⟨hr, Nat.le_trans hle hi, hReach⟩
      · exact ⟨ha, hi, hReach'⟩
    reach := h.reach
    frame := fun {f} hf => by
      obtain ⟨seen, hSeen, hs⟩ := h.frame hf
      exact ⟨seen, hSeen, fun y hy => hSettled (hs y hy)⟩
    looked := fun hx hy => hSettled (h.looked hx hy)
    between := fun {v x} hv hx hi hu => by
      rw [hKeep hx]
      exact Nat.le_trans (hIndex v) (h.between hv hx hi hu)
    nodup_found := h.nodup_found
    strong := h.strong
    backward := h.backward }

/-- The nodes that a node of the path still has to look at may change. -/
theorem Sound.withWork {work : List Frame} (h : Sound leads size s)
    (hPath : work.map (·.node) = s.path)
    (hFrame : ∀ f ∈ work, ∃ seen, leads f.node = seen ++ f.rest ∧
      ∀ y ∈ seen, s.Settled f.node y) :
    Sound leads size { s with work } := by
  have hMem (x : NodeId) : x ∈ ({ s with work } : Search).path ↔ x ∈ s.path := by
    rw [← hPath]
    rfl
  exact {
    size_index := h.size_index
    size_root := h.size_root
    size_closed := h.size_closed
    index_lt := h.index_lt
    index_inj := h.index_inj
    mem_found := h.mem_found
    entered := h.entered
    active_iff := fun x => by
      rw [hMem]
      exact h.active_iff x
    sorted := by
      have hSorted := h.sorted
      rw [← hPath] at hSorted
      exact hSorted
    nodup_stack := h.nodup_stack
    disjoint := fun hx hp => h.disjoint hx ((hMem _).mp hp)
    root_ne := h.root_ne
    above := fun hx => by
      obtain ⟨w, hw, hi⟩ := h.above hx
      exact ⟨w, (hMem w).mpr hw, hi⟩
    split := fun hw => h.split ((hMem _).mp hw)
    root := h.root
    reach := fun hw => h.reach ((hMem _).mp hw)
    frame := fun {f} hf => hFrame f hf
    looked := h.looked
    between := fun hv hx hi hu =>
      h.between ((hMem _).mp hv) hx hi fun u hp => hu u ((hMem u).mpr hp)
    nodup_found := h.nodup_found
    strong := h.strong
    backward := h.backward }

/-- A node of the path has looked at one more node. -/
theorem Sound.advance {pre below : List Frame} {rest : List NodeId} (h : Sound leads size s)
    (hWork : s.work = pre ++ ⟨n, m :: rest⟩ :: below) (hm : s.Settled n m) :
    Sound leads size { s with work := pre ++ ⟨n, rest⟩ :: below } := by
  refine h.withWork (by simp [path, hWork]) fun f hf => ?_
  rw [List.mem_append, List.mem_cons] at hf
  rcases hf with hf | rfl | hf
  · exact h.frame (by rw [hWork]; exact List.mem_append_left _ hf)
  · obtain ⟨seen, hSeen, hs⟩ := h.frame (f := ⟨n, m :: rest⟩) (by simp [hWork])
    refine ⟨seen ++ [m], by simpa using hSeen, fun y hy => ?_⟩
    rcases List.mem_append.mp hy with hy | hy
    · exact hs y hy
    · rw [List.mem_singleton.mp hy]
      exact hm
  · exact h.frame (by rw [hWork]; exact List.mem_append_right _ (List.mem_cons_of_mem _ hf))

theorem indexOf_enter (leads : NodeId → List NodeId) (hSize : s.index.size = size)
    (hn : n < size) (x : NodeId) :
    (s.enter leads n).indexOf x = if x = n then s.next else s.indexOf x := by
  show (s.index.set! n s.next).getD x 0 = _
  rw [getD_set!, hSize]
  by_cases hx : x = n
  · subst hx
    simp [hn]
  · simp [hx, Ne.symm hx, indexOf]

theorem rootOf_enter (leads : NodeId → List NodeId) (hSize : s.root.size = size)
    (hn : n < size) (x : NodeId) :
    (s.enter leads n).rootOf x = if x = n then n else s.rootOf x := by
  show (s.root.set! n n).getD x 0 = _
  rw [getD_set!, hSize]
  by_cases hx : x = n
  · subst hx
    simp [hn]
  · simp [hx, Ne.symm hx, rootOf]

section Enter

variable (h : Sound leads size s) (hn : n < size) (hNew : s.indexOf n = 0)
include h hn hNew

/-- A node that was entered before keeps its number and its root. -/
theorem Sound.kept_enter (hx : s.indexOf x ≠ 0) : x ≠ n ∧
    (s.enter leads n).indexOf x = s.indexOf x ∧ (s.enter leads n).rootOf x = s.rootOf x := by
  have hne : x ≠ n := fun he => hx (he ▸ hNew)
  exact ⟨hne, by rw [indexOf_enter leads h.size_index hn, if_neg hne],
    by rw [rootOf_enter leads h.size_root hn, if_neg hne]⟩

theorem Sound.active_enter (x : NodeId) : (s.enter leads n).Active x ↔ x = n ∨ s.Active x := by
  show (s.enter leads n).indexOf x ≠ 0 ∧ s.isClosed x = false ↔ _
  rw [indexOf_enter leads h.size_index hn]
  by_cases hx : x = n
  · subst hx
    have hOpen : s.isClosed x = false := by
      by_contra hc
      exact h.entered (Bool.not_eq_false _ ▸ hc) hNew
    have := h.index_lt x
    simp only [if_true, true_or, iff_true]
    exact ⟨by omega, hOpen⟩
  · rw [if_neg hx]
    exact ⟨.inr, fun ha => ha.resolve_left hx⟩

theorem Sound.indexOf_rootOf_enter (hx : s.Active x) :
    (s.enter leads n).indexOf ((s.enter leads n).rootOf x) = s.indexOf (s.rootOf x) := by
  rw [(h.kept_enter hn hNew hx.1).2.2, (h.kept_enter hn hNew (h.root hx).1.1).2.1]

theorem Sound.settled_enter (hx : s.Active x) (hs : s.Settled x y) :
    (s.enter leads n).Settled x y := by
  rcases hs with hs | ⟨hy, hi⟩
  · exact .inl hs
  · refine .inr ⟨(h.active_enter hn hNew y).mpr (.inr hy), ?_⟩
    rw [h.indexOf_rootOf_enter hn hNew hx, (h.kept_enter hn hNew hy.1).2.1]
    exact hi

omit hNew in
/-- The number of the new node was not given out before. -/
theorem Sound.index_inj_enter (hx : (s.enter leads n).indexOf x ≠ 0)
    (he : (s.enter leads n).indexOf x = (s.enter leads n).indexOf y) : x = y := by
  have hxLt := h.index_lt x
  have hyLt := h.index_lt y
  simp only [indexOf_enter leads h.size_index hn] at hx he
  by_cases hxn : x = n
  · by_cases hyn : y = n
    · exact hxn.trans hyn.symm
    · simp only [hxn, hyn, if_true, if_false] at he
      omega
  · by_cases hyn : y = n
    · simp only [hxn, hyn, if_true, if_false] at he
      omega
    · simp only [hxn, hyn, if_false] at hx he
      exact h.index_inj hx he

/-- The node is entered with the greatest number, and nothing changes for the others. -/
theorem Sound.enter (hReach : ∀ w ∈ s.path, Reach leads w n) :
    Sound leads size (s.enter leads n) := by
  have hTop : (s.enter leads n).indexOf n = s.next := by
    rw [indexOf_enter leads h.size_index hn, if_pos rfl]
  have hOld {x : NodeId} (hx : s.indexOf x ≠ 0) := h.kept_enter hn hNew hx
  have hActive := h.active_enter hn hNew
  have hPath {x : NodeId} (hx : x ∈ s.path) := hOld ((h.active_iff x).mpr (.inl hx)).1
  have hStack {x : NodeId} (hx : x ∈ s.stack) := hOld ((h.active_iff x).mpr (.inr hx)).1
  exact {
    size_index := by
      show (s.index.set! n s.next).size = size
      rw [Array.set!_eq_setIfInBounds, Array.size_setIfInBounds, h.size_index]
    size_root := by
      show (s.root.set! n n).size = size
      rw [Array.set!_eq_setIfInBounds, Array.size_setIfInBounds, h.size_root]
    size_closed := h.size_closed
    index_lt := fun x => by
      have := h.index_lt x
      show _ < s.next + 1
      rw [indexOf_enter leads h.size_index hn]
      split <;> omega
    index_inj := h.index_inj_enter hn
    mem_found := h.mem_found
    entered := fun {x} hc => by
      rw [(hOld (h.entered hc)).2.1]
      exact h.entered hc
    active_iff := fun x => by
      rw [hActive, h.active_iff]
      show _ ↔ x ∈ n :: s.path ∨ x ∈ s.stack
      rw [List.mem_cons, or_assoc]
    sorted := by
      refine List.pairwise_cons.mpr ⟨fun b hb => ?_, ?_⟩
      · rw [hTop, (hPath hb).2.1]
        exact h.index_lt b
      · refine h.sorted.imp_of_mem fun ha hb hlt => ?_
        rw [(hPath ha).2.1, (hPath hb).2.1]
        exact hlt
    nodup_stack := h.nodup_stack
    disjoint := fun hx hp => by
      rcases List.mem_cons.mp hp with he | hp
      · exact (hStack hx).1 he
      · exact h.disjoint hx hp
    root_ne := fun hx => by
      rw [(hStack hx).2.2]
      exact h.root_ne hx
    above := fun hx => by
      obtain ⟨w, hw, hi⟩ := h.above hx
      refine ⟨w, List.mem_cons_of_mem n hw, ?_⟩
      rw [(hPath hw).2.1, (hStack hx).2.1]
      exact hi
    split := fun {w} hw => by
      rcases List.mem_cons.mp hw with rfl | hw
      · refine h.nodup_stack.imp_of_mem fun {a b} _ hb _ hlt => ?_
        have := h.index_lt b
        rw [hTop, (hStack hb).2.1] at hlt
        omega
      · refine (h.split hw).imp_of_mem fun ha hb hlt => ?_
        rw [(hPath hw).2.1, (hStack ha).2.1, (hStack hb).2.1]
        exact hlt
    root := fun {x} hx => by
      rcases (hActive x).mp hx with rfl | hx
      · rw [rootOf_enter leads h.size_root hn, if_pos rfl]
        exact ⟨(hActive x).mpr (.inl rfl), Nat.le_refl _, .refl⟩
      · obtain ⟨ha, hi, hr⟩ := h.root hx
        rw [h.indexOf_rootOf_enter hn hNew hx, (hOld hx.1).2.1, (hOld hx.1).2.2]
        exact ⟨(hActive _).mpr (.inr ha), hi, hr⟩
    reach := fun {w x} hw hx hlt => by
      rcases List.mem_cons.mp hw with rfl | hOuter
      · have := h.index_lt x
        rw [hTop, indexOf_enter leads h.size_index hn] at hlt
        split at hlt <;> omega
      · rcases (hActive x).mp hx with rfl | hx
        · exact hReach w hOuter
        · rw [(hPath hOuter).2.1, (hOld hx.1).2.1] at hlt
          exact h.reach hOuter hx hlt
    frame := fun {f} hf => by
      rcases List.mem_cons.mp hf with rfl | hf
      · exact ⟨[], rfl, nofun⟩
      · obtain ⟨seen, hSeen, hs⟩ := h.frame hf
        have ha : s.Active f.node := (h.active_iff _).mpr (.inl (List.mem_map_of_mem hf))
        exact ⟨seen, hSeen, fun y hy => h.settled_enter hn hNew ha (hs y hy)⟩
    looked := fun hx hy =>
      h.settled_enter hn hNew ((h.active_iff _).mpr (.inr hx)) (h.looked hx hy)
    between := fun {v x} hv hx hlt hu => by
      have hxLt := h.index_lt x
      rw [(hStack hx).2.1] at hlt
      rcases List.mem_cons.mp hv with rfl | hv
      · rw [hTop] at hlt
        omega
      · rw [(hPath hv).2.1] at hlt
        rw [h.indexOf_rootOf_enter hn hNew ((h.active_iff v).mpr (.inl hv)),
          h.indexOf_rootOf_enter hn hNew ((h.active_iff x).mpr (.inr hx))]
        refine h.between hv hx hlt fun u hp hvu => ?_
        have := hu u (List.mem_cons_of_mem n hp)
        rw [(hPath hv).2.1, (hPath hp).2.1, (hStack hx).2.1] at this
        exact this hvu
    nodup_found := h.nodup_found
    strong := h.strong
    backward := h.backward }

end Enter

section Leave

variable {below : List Frame} {rest : List NodeId}

/-- What stands innermost on the path was entered last. -/
theorem Sound.index_lt_of_path (h : Sound leads size s) (hWork : s.work = ⟨n, rest⟩ :: below)
    (hx : x ∈ s.path) (hne : x ≠ n) : s.indexOf x < s.indexOf n := by
  have hSorted := h.sorted
  have hPath : s.path = n :: below.map (·.node) := by simp [path, hWork]
  rw [hPath] at hSorted hx
  exact (List.pairwise_cons.mp hSorted).1 x ((List.mem_cons.mp hx).resolve_left hne)

/-- The rest of the path, once the innermost node is left. -/
theorem Sound.mem_outer (h : Sound leads size s) (hWork : s.work = ⟨n, rest⟩ :: below) :
    x ∈ below.map (·.node) ↔ x ∈ s.path ∧ x ≠ n := by
  have hSorted := h.sorted
  have hPath : s.path = n :: below.map (·.node) := by simp [path, hWork]
  rw [hPath] at hSorted ⊢
  constructor
  · intro hx
    refine ⟨List.mem_cons_of_mem n hx, ?_⟩
    rintro rfl
    exact Nat.lt_irrefl _ ((List.pairwise_cons.mp hSorted).1 x hx)
  · rintro ⟨hx, hne⟩
    exact (List.mem_cons.mp hx).resolve_left hne

/-- The node below the innermost one has taken over its root, so that the roots on the stack are
still no earlier than that of the nearest node of the path before them. -/
theorem Sound.between_push (h : Sound leads size s)
    (hWork : s.work = ⟨n, []⟩ :: ⟨m, rest⟩ :: below)
    (hle : s.indexOf (s.rootOf m) ≤ s.indexOf (s.rootOf n)) {v : NodeId}
    (hv : v ∈ m :: below.map (·.node)) (hx : x ∈ n :: s.stack) (hlt : s.indexOf v < s.indexOf x)
    (hu : ∀ u ∈ m :: below.map (·.node), s.indexOf v < s.indexOf u → s.indexOf x < s.indexOf u) :
    s.indexOf (s.rootOf v) ≤ s.indexOf (s.rootOf x) := by
  have hn : n ∈ s.path := by simp [path, hWork]
  have hOuter {y : NodeId} : y ∈ m :: below.map (·.node) ↔ y ∈ s.path ∧ y ≠ n := h.mem_outer hWork
  have hBefore (hs : x ∈ s.stack) (hi : s.indexOf x < s.indexOf n) :
      s.indexOf (s.rootOf v) ≤ s.indexOf (s.rootOf x) := by
    refine h.between (hOuter.mp hv).1 hs hlt fun u hp hvu => ?_
    by_cases hun : u = n
    · exact hun ▸ hi
    · exact hu u (hOuter.mpr ⟨hp, hun⟩) hvu
  rcases List.mem_cons.mp hv with rfl | hBelow
  · rcases List.mem_cons.mp hx with rfl | hs
    · exact hle
    · -- a node of the stack was entered before `n` or after it
      rcases Nat.lt_or_ge (s.indexOf x) (s.indexOf n) with hi | hi
      · exact hBefore hs hi
      · have hne : s.indexOf x ≠ s.indexOf n := fun he =>
          h.disjoint hs (h.index_inj ((h.active_iff x).mpr (.inr hs)).1 he ▸ hn)
        refine Nat.le_trans hle (h.between hn hs (by omega) fun u hp hnu => ?_)
        by_cases hun : u = n
        · exact absurd hnu (hun ▸ Nat.lt_irrefl _)
        · exact absurd hnu (Nat.lt_asymm (h.index_lt_of_path hWork hp hun))
  · -- the node was entered before `m`, and so before `n`
    have hm := h.index_lt_of_path hWork (hOuter.mp List.mem_cons_self).1
      (hOuter.mp List.mem_cons_self).2
    have hSorted := h.sorted
    rw [show s.path = n :: m :: below.map (·.node) by simp [path, hWork]] at hSorted
    have hvm := (List.pairwise_cons.mp (List.pairwise_cons.mp hSorted).2).1 v hBelow
    have hxm := hu m List.mem_cons_self hvm
    rcases List.mem_cons.mp hx with rfl | hs
    · omega
    · exact hBefore hs (Nat.lt_trans hxm hm)

/-- The innermost node, which is not its own root, goes to the stack once the node below it has
taken over its root. -/
theorem Sound.push (h : Sound leads size s) (hWork : s.work = ⟨n, []⟩ :: ⟨m, rest⟩ :: below)
    (hRoot : s.rootOf n ≠ n) (hle : s.indexOf (s.rootOf m) ≤ s.indexOf (s.rootOf n)) :
    Sound leads size { s with stack := n :: s.stack, work := ⟨m, rest⟩ :: below } := by
  have hPath : s.path = n :: m :: below.map (·.node) := by simp [path, hWork]
  have hSorted := h.sorted
  rw [hPath, List.pairwise_cons] at hSorted
  obtain ⟨hFirst, hTail⟩ := hSorted
  have hn : n ∈ s.path := by
    rw [hPath]
    exact List.mem_cons_self
  have hm : s.indexOf m < s.indexOf n := hFirst m List.mem_cons_self
  have hOuter {x : NodeId} : x ∈ m :: below.map (·.node) ↔ x ∈ s.path ∧ x ≠ n := h.mem_outer hWork
  exact {
    size_index := h.size_index
    size_root := h.size_root
    size_closed := h.size_closed
    index_lt := h.index_lt
    index_inj := h.index_inj
    mem_found := h.mem_found
    entered := h.entered
    active_iff := fun x => by
      refine (h.active_iff x).trans ?_
      rw [hPath, List.mem_cons]
      show _ ↔ x ∈ m :: below.map (·.node) ∨ x ∈ n :: s.stack
      rw [List.mem_cons (a := x) (b := n)]
      tauto
    sorted := hTail
    nodup_stack := List.nodup_cons.mpr ⟨fun hx => h.disjoint hx hn, h.nodup_stack⟩
    disjoint := fun {x} hx hp => by
      rcases List.mem_cons.mp hx with rfl | hx
      · exact (hOuter.mp hp).2 rfl
      · exact h.disjoint hx (hOuter.mp hp).1
    root_ne := fun {x} hx => by
      rcases List.mem_cons.mp hx with rfl | hx
      · exact hRoot
      · exact h.root_ne hx
    above := fun {x} hx => by
      rcases List.mem_cons.mp hx with rfl | hx
      · exact ⟨m, List.mem_cons_self, hm⟩
      · obtain ⟨w, hw, hi⟩ := h.above hx
        by_cases hwn : w = n
        · exact ⟨m, List.mem_cons_self, Nat.lt_trans hm (hwn ▸ hi)⟩
        · exact ⟨w, hOuter.mpr ⟨hw, hwn⟩, hi⟩
    split := fun {w} hw => List.pairwise_cons.mpr
      ⟨fun _ _ _ => hFirst w hw, h.split (hOuter.mp hw).1⟩
    root := h.root
    reach := fun hw => h.reach (hOuter.mp hw).1
    frame := fun {f} hf => h.frame (by rw [hWork]; exact List.mem_cons_of_mem _ hf)
    looked := fun {x y} hx hy => by
      rcases List.mem_cons.mp hx with rfl | hx
      · obtain ⟨seen, hSeen, hs⟩ := h.frame (f := ⟨x, []⟩) (by simp [hWork])
        rw [hSeen, List.append_nil] at hy
        exact hs y hy
      · exact h.looked hx hy
    between := h.between_push hWork hle
    nodup_found := h.nodup_found
    strong := h.strong
    backward := h.backward }

end Leave

theorem takeWhile_eq_filter {l : List NodeId} {p : NodeId → Bool}
    (h : l.Pairwise fun a b => p b = true → p a = true) :
    l.takeWhile p = l.filter p ∧ l.dropWhile p = l.filter fun x => !p x := by
  induction l with
  | nil => exact ⟨rfl, rfl⟩
  | cons a l ih =>
    obtain ⟨hHead, hTail⟩ := List.pairwise_cons.mp h
    cases ha : p a with
    | true => simp [ha, ih hTail]
    | false =>
      have hNone : ∀ b ∈ l, p b = false := fun b hb => by
        by_contra hp
        rw [hHead b hb (Bool.not_eq_false _ ▸ hp)] at ha
        cases ha
      refine ⟨?_, ?_⟩
      · rw [List.takeWhile_cons_of_neg (by simp [ha]), List.filter_cons_of_neg (by simp [ha])]
        exact (List.filter_eq_nil_iff.mpr (by simpa using hNone)).symm
      · rw [List.dropWhile_cons_of_neg (by simp [ha]), List.filter_cons_of_pos (by simp [ha])]
        rw [List.filter_eq_self.mpr (by simpa using hNone)]

theorem getD_setAll {α : Type} (ns : List NodeId) (a : Array α) (v d : α) (x : NodeId) :
    (ns.foldl (fun a n => a.set! n v) a).getD x d =
      if x ∈ ns ∧ x < a.size then v else a.getD x d := by
  induction ns generalizing a with
  | nil => simp
  | cons n ns ih =>
    rw [List.foldl_cons, ih, getD_set!, Array.set!_eq_setIfInBounds, Array.size_setIfInBounds]
    by_cases hn : n = x
    · subst hn
      by_cases hx : n < a.size <;> simp [hx]
    · simp [hn, Ne.symm hn]

theorem size_setAll {α : Type} (ns : List NodeId) (a : Array α) (v : α) :
    (ns.foldl (fun a n => a.set! n v) a).size = a.size := by
  induction ns generalizing a with
  | nil => rfl
  | cons n ns ih =>
    rw [List.foldl_cons, ih, Array.set!_eq_setIfInBounds, Array.size_setIfInBounds]

/-- The component that a node completes which is its own root: itself and what was entered after it
and waits on the stack. -/
def component (s : Search) (n : NodeId) : List NodeId :=
  n :: s.stack.takeWhile fun m => decide (s.indexOf n < s.indexOf m)

section Close

variable {below : List Frame}

theorem Sound.mem_component (h : Sound leads size s) (hWork : s.work = ⟨n, []⟩ :: below) :
    x ∈ s.component n ↔ s.Active x ∧ s.indexOf n ≤ s.indexOf x := by
  have hn : n ∈ s.path := by simp [path, hWork]
  have hTake := (takeWhile_eq_filter (p := fun m => decide (s.indexOf n < s.indexOf m))
    (by simpa using h.split hn)).1
  rw [component, hTake, List.mem_cons, List.mem_filter, decide_eq_true_eq]
  constructor
  · rintro (rfl | ⟨hx, hi⟩)
    · exact ⟨(h.active_iff x).mpr (.inl hn), Nat.le_refl _⟩
    · exact ⟨(h.active_iff x).mpr (.inr hx), Nat.le_of_lt hi⟩
  · rintro ⟨ha, hi⟩
    by_cases hxn : x = n
    · exact .inl hxn
    · refine .inr ?_
      rcases (h.active_iff x).mp ha with hp | hx
      · have := h.index_lt_of_path hWork hp hxn
        omega
      · have hne : s.indexOf x ≠ s.indexOf n := fun he => hxn (h.index_inj ha.1 he)
        exact ⟨hx, by omega⟩

/-- The roots of a component are in it. -/
theorem Sound.root_mem_component (h : Sound leads size s) (hWork : s.work = ⟨n, []⟩ :: below)
    (hRoot : s.rootOf n = n) (hx : x ∈ s.component n) : s.rootOf x ∈ s.component n := by
  obtain ⟨ha, hi⟩ := (h.mem_component hWork).mp hx
  refine (h.mem_component hWork).mpr ⟨(h.root ha).1, ?_⟩
  have hn : n ∈ s.path := by simp [path, hWork]
  by_cases hxn : x = n
  · rw [hxn, hRoot]
  · rcases (h.active_iff x).mp ha with hp | hs
    · have := h.index_lt_of_path hWork hp hxn
      omega
    · have hne : s.indexOf x ≠ s.indexOf n := fun he => hxn (h.index_inj ha.1 he)
      have hBetween := h.between hn hs (by omega) fun u hp hu => by
        by_cases hun : u = n
        · subst hun
          omega
        · have := h.index_lt_of_path hWork hp hun
          omega
      rw [hRoot] at hBetween
      exact hBetween

/-- Every node of a component reaches the node that completes it: its root does so, which was
entered before it. -/
theorem Sound.component_reach (h : Sound leads size s) (hWork : s.work = ⟨n, []⟩ :: below)
    (hRoot : s.rootOf n = n) (hx : x ∈ s.component n) : Reach leads x n := by
  induction hi : s.indexOf x using Nat.strong_induction_on generalizing x with
  | _ k ih =>
    obtain ⟨ha, hle⟩ := (h.mem_component hWork).mp hx
    by_cases hxn : x = n
    · rw [hxn]
    · obtain ⟨hra, hri, hr⟩ := h.root ha
      have hs : x ∈ s.stack := by
        rcases (h.active_iff x).mp ha with hp | hs
        · have := h.index_lt_of_path hWork hp hxn
          omega
        · exact hs
      have hne : s.indexOf (s.rootOf x) ≠ s.indexOf x := fun he =>
        h.root_ne hs (h.index_inj hra.1 he)
      exact hr.trans (ih _ (by omega) (h.root_mem_component hWork hRoot hx) rfl)

/-- The edges out of a component lead to complete components. -/
theorem Sound.component_edge (h : Sound leads size s) (hWork : s.work = ⟨n, []⟩ :: below)
    (hRoot : s.rootOf n = n) (hx : x ∈ s.component n) (hy : y ∈ leads x) :
    y ∈ s.component n ∨ s.isClosed y = true := by
  have hSettled : s.Settled x y := by
    obtain ⟨ha, hi⟩ := (h.mem_component hWork).mp hx
    by_cases hxn : x = n
    · subst hxn
      obtain ⟨seen, hSeen, hs⟩ := h.frame (f := ⟨x, []⟩) (by simp [hWork])
      rw [hSeen, List.append_nil] at hy
      exact hs y hy
    · rcases (h.active_iff x).mp ha with hp | hs
      · have := h.index_lt_of_path hWork hp hxn
        omega
      · exact h.looked hs hy
  rcases hSettled with hc | ⟨ha, hi⟩
  · exact .inr hc
  · have hr := (h.mem_component hWork).mp (h.root_mem_component hWork hRoot hx)
    exact .inl ((h.mem_component hWork).mpr ⟨ha, Nat.le_trans hr.2 hi⟩)

/-- The search after a node that is its own root completes its component. -/
def closeComponent (s : Search) (n : NodeId) (below : List Frame) : Search :=
  { s with
    closed := (s.component n).foldl (fun closed m => closed.set! m true) s.closed
    stack := s.stack.dropWhile fun m => decide (s.indexOf n < s.indexOf m)
    found := s.component n :: s.found
    work := below }

theorem Sound.isClosed_close (h : Sound leads size s) (hWork : s.work = ⟨n, []⟩ :: below)
    (x : NodeId) : (s.closeComponent n below).isClosed x = true ↔
      s.isClosed x = true ∨ x ∈ s.component n := by
  show ((s.component n).foldl (fun closed m => closed.set! m true) s.closed).getD x false = true ↔ _
  have hLt (hx : x ∈ s.component n) : x < s.closed.size :=
    h.size_closed ▸ lt_of_entered h.size_index ((h.mem_component hWork).mp hx).1.1
  rw [getD_setAll]
  by_cases hx : x ∈ s.component n
  · simp [hx, hLt hx]
  · simp [hx, isClosed]

theorem Sound.active_close (h : Sound leads size s) (hWork : s.work = ⟨n, []⟩ :: below)
    (x : NodeId) : (s.closeComponent n below).Active x ↔
      s.Active x ∧ s.indexOf x < s.indexOf n := by
  have hClosed := h.isClosed_close hWork x
  rw [h.mem_component hWork] at hClosed
  unfold Active at hClosed ⊢
  rw [← Bool.not_eq_true, hClosed, ← Bool.not_eq_true]
  show s.indexOf x ≠ 0 ∧ _ ↔ _
  constructor
  · rintro ⟨hi, hc⟩
    simp only [not_or, not_and] at hc
    exact ⟨⟨hi, hc.1⟩, by have := hc.2 ⟨hi, by simpa using hc.1⟩; omega⟩
  · rintro ⟨⟨hi, hc⟩, hlt⟩
    refine ⟨hi, ?_⟩
    rintro (hc' | ⟨-, hle⟩)
    · exact hc hc'
    · omega

theorem Sound.mem_stack_close (h : Sound leads size s) (hWork : s.work = ⟨n, []⟩ :: below)
    (x : NodeId) : x ∈ (s.closeComponent n below).stack ↔
      x ∈ s.stack ∧ s.indexOf x < s.indexOf n := by
  have hn : n ∈ s.path := by simp [path, hWork]
  have hDrop := (takeWhile_eq_filter (p := fun m => decide (s.indexOf n < s.indexOf m))
    (by simpa using h.split hn)).2
  show x ∈ s.stack.dropWhile _ ↔ _
  rw [hDrop, List.mem_filter]
  refine and_congr_right fun hx => ?_
  have hne : s.indexOf x ≠ s.indexOf n := fun he =>
    h.disjoint (h.index_inj ((h.active_iff x).mpr (.inr hx)).1 he ▸ hx) hn
  simp only [Bool.not_eq_true', decide_eq_false_iff_not]
  omega

/-- An edge that was dealt with stays so when a component is completed. -/
theorem Sound.settled_close (h : Sound leads size s) (hWork : s.work = ⟨n, []⟩ :: below)
    (hs : s.Settled x y) : (s.closeComponent n below).Settled x y := by
  rcases hs with hc | ⟨ha, hi⟩
  · exact .inl ((h.isClosed_close hWork y).mpr (.inl hc))
  · by_cases hy : y ∈ s.component n
    · exact .inl ((h.isClosed_close hWork y).mpr (.inr hy))
    · refine .inr ⟨(h.active_close hWork y).mpr ⟨ha, ?_⟩, hi⟩
      rw [h.mem_component hWork] at hy
      simp only [not_and] at hy
      have := hy ha
      omega

theorem Sound.nodup_component (h : Sound leads size s) (hWork : s.work = ⟨n, []⟩ :: below) :
    (s.component n).Nodup := by
  have hn : n ∈ s.path := by simp [path, hWork]
  refine List.nodup_cons.mpr ⟨fun hx => ?_, (List.takeWhile_sublist _).nodup h.nodup_stack⟩
  exact h.disjoint ((List.takeWhile_sublist _).subset hx) hn

/-- A node that is its own root completes a component when it is left. -/
theorem Sound.close (h : Sound leads size s) (hWork : s.work = ⟨n, []⟩ :: below)
    (hRoot : s.rootOf n = n) : Sound leads size (s.closeComponent n below) := by
  have hPath : s.path = n :: below.map (·.node) := by simp [path, hWork]
  have hn : n ∈ s.path := by
    rw [hPath]
    exact List.mem_cons_self
  have hSorted := h.sorted
  rw [hPath, List.pairwise_cons] at hSorted
  have hOuter {x : NodeId} (hx : x ∈ below.map (·.node)) : x ∈ s.path := by
    rw [hPath]
    exact List.mem_cons_of_mem n hx
  have hClosed := h.isClosed_close hWork
  have hActive := h.active_close hWork
  have hStack := h.mem_stack_close hWork
  have hSub : (s.closeComponent n below).stack.Sublist s.stack := List.dropWhile_sublist _
  have hSettled {x y : NodeId} (hs : s.Settled x y) := h.settled_close hWork hs
  exact {
    size_index := h.size_index
    size_root := h.size_root
    size_closed := (size_setAll _ _ _).trans h.size_closed
    index_lt := h.index_lt
    index_inj := h.index_inj
    mem_found := fun x => by
      rw [hClosed, ← h.mem_found, or_comm]
      exact List.mem_append
    entered := fun {x} hc => by
      rcases (hClosed x).mp hc with hc | hc
      · exact h.entered hc
      · exact ((h.mem_component hWork).mp hc).1.1
    active_iff := fun x => by
      rw [hActive, h.active_iff, hStack, hPath, List.mem_cons]
      show _ ↔ x ∈ below.map (·.node) ∨ _
      constructor
      · rintro ⟨(rfl | hp) | hs, hlt⟩
        · exact absurd hlt (Nat.lt_irrefl _)
        · exact .inl hp
        · exact .inr ⟨hs, hlt⟩
      · rintro (hp | ⟨hs, hlt⟩)
        · exact ⟨.inl (.inr hp), hSorted.1 x hp⟩
        · exact ⟨.inr hs, hlt⟩
    sorted := hSorted.2
    nodup_stack := hSub.nodup h.nodup_stack
    disjoint := fun hx hp => h.disjoint (hSub.subset hx) (hOuter hp)
    root_ne := fun hx => h.root_ne (hSub.subset hx)
    above := fun {x} hx => by
      obtain ⟨hs, hlt⟩ := (hStack x).mp hx
      obtain ⟨w, hw, hi⟩ := h.above hs
      rw [hPath] at hw
      rcases List.mem_cons.mp hw with rfl | hw
      · omega
      · exact ⟨w, hw, hi⟩
    split := fun hw => (h.split (hOuter hw)).sublist hSub
    root := fun {x} hx => by
      obtain ⟨ha, hlt⟩ := (hActive x).mp hx
      obtain ⟨hra, hi, hr⟩ := h.root ha
      exact ⟨(hActive _).mpr ⟨hra, Nat.lt_of_le_of_lt hi hlt⟩, hi, hr⟩
    reach := fun hw hx => h.reach (hOuter hw) ((hActive _).mp hx).1
    frame := fun {f} hf => by
      obtain ⟨seen, hSeen, hs⟩ := h.frame (f := f) (by rw [hWork]; exact List.mem_cons_of_mem _ hf)
      exact ⟨seen, hSeen, fun y hy => hSettled (hs y hy)⟩
    looked := fun hx hy => hSettled (h.looked (hSub.subset hx) hy)
    between := fun {v x} hv hx hlt hu => by
      obtain ⟨hs, hxn⟩ := (hStack x).mp hx
      refine h.between (hOuter hv) hs hlt fun u hp hvu => ?_
      rw [hPath] at hp
      rcases List.mem_cons.mp hp with rfl | hp
      · exact hxn
      · exact hu u hp hvu
    nodup_found := by
      refine List.nodup_append.mpr ⟨h.nodup_component hWork, h.nodup_found, fun x hx y hy => ?_⟩
      rintro rfl
      have hc := (h.mem_found x).mp hy
      rw [((h.mem_component hWork).mp hx).1.2] at hc
      cases hc
    strong := fun {c x y} hc hx hy => by
      rcases List.mem_cons.mp hc with rfl | hc
      · refine (h.component_reach hWork hRoot hx).trans ?_
        obtain ⟨ha, hi⟩ := (h.mem_component hWork).mp hy
        by_cases hyn : y = n
        · rw [hyn]
        · have hne : s.indexOf n ≠ s.indexOf y := fun he =>
            hyn (h.index_inj ha.1 he.symm)
          exact h.reach hn ha (by omega)
      · exact h.strong hc hx hy
    backward := by
      refine ⟨fun x hx y hy => ?_, h.backward⟩
      rw [h.mem_found]
      exact h.component_edge hWork hRoot hx hy }

end Close

end Search

end ValueRange.Graph
