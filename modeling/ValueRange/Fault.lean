/-! The faults of building, solving and merging: uses of the interface that have no answer. -/

namespace ValueRange

/-- Why a step has no answer. -/
inductive Fault where
  /-- An operand, a position or a record that is needed is not there. -/
  | missing
  /-- A number that names no comparison is to be negated or turned around. -/
  | unknownPredicate (code : Nat)
  /-- A number that names no comparison is to bound a region. -/
  | regionOfUnknown
  /-- A block is given a second terminator. -/
  | terminated (block : String)
  /-- A graph is extended after its solution was started. -/
  | graphFrozen
  /-- A value is given a second definition. -/
  | redefined (value : String)
  /-- A component is asked for before the components are known. -/
  | noComponents
  /-- A number that names no narrowing operator is to narrow a component. -/
  | unknownNarrowing (code : Int)
  /-- The components depend on each other in a cycle. -/
  | componentCycle
  /-- Settings are to be merged from no layers at all. -/
  | noLayers
deriving DecidableEq, Repr

/-- The text of a fault; a missing piece has none. -/
def Fault.message : Fault → Option String
  | .missing => none
  | .unknownPredicate code => some s!"unhandled predicate {code}"
  | .regionOfUnknown => some "unreachable"
  | .terminated block => some s!"block {block} already has a terminator"
  | .graphFrozen => some "constraint graph modified after solving started"
  | .redefined value => some s!"value {value} has more than one definition"
  | .noComponents => some "SCC requested before components were computed"
  | .unknownNarrowing code => some s!"unhandled narrowing Narrowing({code})"
  | .componentCycle => some "cycle in the component graph"
  | .noLayers => some "trying to merge zero configs"

/-- What a text shows in place of a piece that cannot be written. -/
def brokenText : String :=
  "%!s(PANIC=String method: runtime error: invalid memory address or nil pointer dereference)"

end ValueRange
