import ValueRange.Analysis
import ValueRange.Source.Lowering

/-! The ranges of the integers of a package and of what its functions return. What is found out
about the results of a function is a fact that the analysis of other packages can use. -/

namespace ValueRange.Source

/-- The range of the only result of a function. A missing bound is unbounded. -/
structure ReturnFact where
  lower : Option Int
  upper : Option Int
deriving DecidableEq, Repr, Inhabited

namespace ReturnFact

/-- The fact that a range states. -/
def ofRange (r : Range) : ReturnFact :=
  ⟨if r.lowerUnbounded then none else some r.lower, if r.upperUnbounded then none else some r.upper⟩

/-- The text of a fact. -/
def text (f : ReturnFact) : String := "returns " ++ (Hint.mk f.lower f.upper).text

/-- What a fact says about a result of a type: the tighter of its bounds and those of the type. -/
def hint (f : ReturnFact) (t : IntType) : Hint :=
  ⟨some (max t.minValue (f.lower.getD t.minValue)), some (min t.maxValue (f.upper.getD t.maxValue))⟩

end ReturnFact

/-- The functions that instructions use other than by calling them. A detached call uses what it
calls, because its arguments are not bound to the parameters. -/
def Instr.usedFunctions (i : Instr) : List Nat :=
  let called := match i.action with
    | .call false _ _ => (i.operands[0]?).join
    | _ => none
  i.operands.filterMap fun v =>
    match v with
    | some (.func n) => if v = called then none else some n
    | _ => none

/-- The functions that some instruction of a listed function uses other than by calling them. -/
def Package.usedFunctions (pkg : Package) : List Nat :=
  pkg.functions.toList.flatMap fun f =>
    if f.isListed then
      f.blocks.toList.flatMap fun b => b.instrs.toList.flatMap Instr.usedFunctions
    else []

/-- The rules for a package among others, whose facts are known by the names of functions. -/
def Package.rules (pkg : Package) (platform : Platform) (known : List (String × ReturnFact)) :
    Rules :=
  let used := pkg.usedFunctions
  { platform
    isExternal := fun i =>
      let f := pkg.func i
      f.isClosure || f.isMethod || f.isExported || used.contains i || !f.isLocal
    resultHint := fun i t =>
      let f := pkg.func i
      match f.object with
      | some object =>
        if f.objectIsLocal then none else (known.lookup object).map fun fact => fact.hint t
      | none => none }

/-- A remark on a return statement. -/
structure Remark where
  position : String
  range : Range
deriving Repr, Inhabited

/-- The text of a remark. -/
def Remark.text (r : Remark) : String := "returns " ++ r.range.text

/-- A lowered function with the graph that holds its ranges. -/
structure Solved where
  frame : Frame
  graph : Graph
deriving Repr, Inhabited

namespace Solved

variable (s : Solved)

/-- The range of an operand where it is defined, if it is an integer of the function. -/
def rangeOf? (v : Operand) : Option Range := (s.frame.values.lookup v).map s.graph.rangeOf

/-- The range of an operand where block `b` uses it. -/
def rangeAt? (platform : Platform) (f : Func) (v : Operand) (b : Nat) : Option Range :=
  match v with
  | .const type n =>
    (type.integer? platform).map fun _ => s.graph.sentinels.singleton (n.getD 0)
  | _ => (s.frame.valueAt f v b).map s.graph.rangeOf

/-- The union of the ranges that the given blocks return and the remarks on them, starting from a
range. A returned value that is no integer ends the search. -/
def returnsFrom (platform : Platform) (f : Func) : List Nat → Range → List Remark × Option Range
  | [], r => ([], some r)
  | b :: bs, r =>
    match f.last? b with
    | some ⟨.ret position, _, _, result :: _⟩ =>
      match result.bind fun v => s.rangeAt? platform f v b with
      | none => ([], none)
      | some returned =>
        let (remarks, all) := returnsFrom platform f bs (r.union returned)
        (position.toList.map (⟨·, returned⟩) ++ remarks, all)
    | some ⟨.ret _, _, _, []⟩ => ([], none)
    | _ => returnsFrom platform f bs r

/-- The range that a function with one result returns, with remarks on its return statements. -/
def returns (platform : Platform) (f : Func) : List Remark × Option Range :=
  if f.resultCount = 1 then
    s.returnsFrom platform f (List.range f.blocks.size) s.graph.sentinels.empty
  else ([], none)

/-- The fact about a function that others can use, with its name. It is worth keeping if it bounds
the result. -/
def fact? (platform : Platform) (f : Func) : Option (String × ReturnFact) :=
  match (s.returns platform f).2, f.object with
  | some r, some object => if r.isEmpty || r.isMax then none else some (object, .ofRange r)
  | _, _ => none

end Solved

/-- What is found out about a package. -/
structure Survey where
  lowered : Lowered
  solved : List Solved
  remarks : List Remark
  facts : List (String × ReturnFact)
deriving Repr, Inhabited

/-- Analyses a package, its functions together or each on its own. -/
def Package.survey (pkg : Package) (platform : Platform) (narrowing : Narrowing)
    (separately : Bool) (known : List (String × ReturnFact)) : Except AnalysisError Survey := do
  let lowered := pkg.lower (pkg.rules platform known)
  let options : Options := ⟨narrowing, 0, false⟩
  let graphs ← if separately then
      analyzeAll false lowered.program (lowered.frames.map (·.target)) options
    else do
      let g ← (analyzeModule lowered.program 0 options).mapError .fault
      pure (lowered.frames.map fun _ => g)
  let solved := lowered.frames.zipWith Solved.mk graphs
  return {
    lowered, solved
    remarks := solved.flatMap fun s => (s.returns platform (pkg.func s.frame.source)).1
    facts := solved.filterMap fun s => s.fact? platform (pkg.func s.frame.source) }

end ValueRange.Source
