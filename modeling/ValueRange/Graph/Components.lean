import ValueRange.Graph.Basic

/-! The strongly connected components of a graph. A node leads to the sinks of the operations that
read it and of the sigmas that it bounds. A depth-first search remembers for each node the earliest
visited node that it is known to lead back to, its root; a node that is its own root when the search
leaves it completes a component (Nuutila's algorithm). The components are then put into an order in
which each depends on earlier ones only. -/

namespace ValueRange.Graph

variable (g : Graph)

/-- The nodes that a node leads to, with repetitions. -/
def successors (n : NodeId) : List NodeId := (g.uses n ++ g.bounds n).map g.sink

/-- A node that a search has entered, with the nodes it leads to that are still to be looked at. -/
structure Frame where
  node : NodeId
  rest : List NodeId
deriving DecidableEq, Repr, Inhabited

/-- The state of a search. Nodes are numbered from one in the order in which they are entered; the
number of the others is zero. The frames of the nodes that were not left yet are the work, the
innermost one first. A node that was left without completing a component waits on the stack until
its root does, and is closed then. The components that were found stand last one first. -/
structure Search where
  index : Array Nat
  root : Array NodeId
  closed : Array Bool
  stack : List NodeId
  found : List (List NodeId)
  next : Nat
  work : List Frame
deriving Repr, Inhabited

namespace Search

/-- A search before the first visit. -/
def fresh (size : Nat) : Search :=
  ⟨Array.replicate size 0, Array.replicate size 0, Array.replicate size false, [], [], 1, []⟩

variable (s : Search)

/-- The number of a node, zero if it was not entered. -/
def indexOf (n : NodeId) : Nat := s.index.getD n 0

/-- The root of a node. -/
def rootOf (n : NodeId) : NodeId := s.root.getD n 0

/-- Whether the component of a node is complete. -/
def isClosed (n : NodeId) : Bool := s.closed.getD n false

/-- Enters a node. -/
def enter (leads : NodeId → List NodeId) (n : NodeId) : Search :=
  { s with
    index := s.index.set! n s.next
    root := s.root.set! n n
    next := s.next + 1
    work := ⟨n, leads n⟩ :: s.work }

/-- Lets a node take over the root of a node it leads to, if that one was entered earlier. -/
def merge (n m : NodeId) : Search :=
  if !s.isClosed m && decide (s.indexOf (s.rootOf m) < s.indexOf (s.rootOf n)) then
    { s with root := s.root.set! n (s.rootOf m) }
  else s

/-- Leaves a node. If it is its own root, it completes a component with the nodes of the stack that
were entered after it; otherwise it goes to the stack. -/
def leave (n : NodeId) : Search :=
  if s.rootOf n = n then
    let later m := decide (s.indexOf n < s.indexOf m)
    let comp := n :: s.stack.takeWhile later
    { s with
      closed := comp.foldl (fun closed m => closed.set! m true) s.closed
      stack := s.stack.dropWhile later
      found := comp :: s.found }
  else { s with stack := n :: s.stack }

/-- One step of a search: the innermost node looks at one more node it leads to, or is left when
there is none. The node below takes over the root of a node that is left. -/
def step (leads : NodeId → List NodeId) : Search :=
  match s.work with
  | [] => s
  | ⟨n, m :: rest⟩ :: below =>
    let s := { s with work := ⟨n, rest⟩ :: below }
    if s.indexOf m = 0 then s.enter leads m else s.merge n m
  | ⟨n, []⟩ :: below =>
    let s := { s with work := below }.leave n
    match below with
    | [] => s
    | frame :: _ => s.merge frame.node n

/-- Steps until there is no work left. -/
def run (leads : NodeId → List NodeId) : (steps : Nat) → Search → Search
  | 0, s => s
  | steps + 1, s => if s.work.isEmpty then s else run leads steps (s.step leads)

/-- Searches from a node, unless it was entered before. -/
def explore (leads : NodeId → List NodeId) (steps : Nat) (n : NodeId) : Search :=
  if s.indexOf n = 0 then (s.enter leads n).run leads steps else s

end Search

/-- A bound on the steps of a search: each node is left once and looks once at each node it leads
to. -/
def searchBound : Nat :=
  (List.range g.nodes.size).foldl (fun k n => k + (g.successors n).length + 1) 0

/-- The components in the order in which they are found. -/
def foundComponents : List (List NodeId) :=
  ((List.range g.nodes.size).foldl (fun s n => s.explore g.successors g.searchBound n)
    (Search.fresh g.nodes.size)).found.reverse

/-- For each node the place of its component in a list. -/
def places (size : Nat) (comps : List (List NodeId)) : Array Nat :=
  comps.zipIdx.foldl (fun acc (comp, i) => comp.foldl (fun acc n => acc.set! n i) acc)
    (Array.replicate size 0)

/-- The places of the other components that a component leads to, each once. -/
def componentSuccessors (place : Array Nat) (i : Nat) (comp : List NodeId) : List Nat :=
  ((comp.flatMap g.successors).map (place.getD · 0)).foldl (fun acc j =>
    if j = i ∨ j ∈ acc then acc else acc ++ [j]) []

/-- Counts one thing less that leads to a place. The state is a queue of places that are ready and,
for each place, how many of the things that lead to it are not done. -/
def release (state : List Nat × Array Nat) (j : Nat) : List Nat × Array Nat :=
  let left := state.2.getD j 0 - 1
  (if left = 0 then state.1 ++ [j] else state.1, state.2.set! j left)

/-- Puts places in order. A place is ready once everything that leads to it is done; `waiting`
counts what is not, and `queue` holds the places that are ready. -/
def topological (next : Array (List Nat)) : (size : Nat) → (queue : List Nat) →
    (waiting : Array Nat) → List Nat
  | 0, _, _ => []
  | _, [], _ => []
  | size + 1, i :: queue, waiting =>
    let (queue, waiting) := (next.getD i []).foldl release (queue, waiting)
    i :: topological next size queue waiting

/-- The components of the graph in order. -/
def findComponents : Except Fault Components :=
  let found := g.foundComponents
  let place := places g.nodes.size found
  let next := (found.zipIdx.map fun (comp, i) => g.componentSuccessors place i comp).toArray
  let waiting := next.foldl (fun acc js => js.foldl (fun acc j => acc.modify j (· + 1)) acc)
    (Array.replicate found.length 0)
  let ready := (List.range found.length).reverse.filter fun i => waiting.getD i 0 = 0
  let order := topological next found.length ready waiting
  if order.length = found.length then
    let members := order.map fun i => (found[i]?).getD []
    .ok ⟨places g.nodes.size members, members.toArray⟩
  else .error .componentCycle

end ValueRange.Graph
