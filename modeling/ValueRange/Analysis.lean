import ValueRange.Graph.Calls
import ValueRange.Graph.Export

/-! Analyses of functions and modules: a graph is built and solved. -/

namespace ValueRange

/-- Builds and solves a graph by one more step. -/
def solveBuilt (built : Except Fault Unit × Graph) : Except Fault Graph := do
  built.1
  match Graph.solve.run.run built.2 with
  | (.ok _, g) => return g
  | (.error f, _) => throw f

/-- The solved graph of a function. -/
def analyze (p : Program) (f : FuncId) (o : Options) : Except Fault Graph :=
  solveBuilt (Graph.build p f o)

/-- The solved graph of a module. -/
def analyzeModule (p : Program) (m : ModuleId) (o : Options) : Except Fault Graph :=
  solveBuilt (Graph.buildModule p m o)

/-- Why an analysis of several functions gives no graphs: it was called off, or a function has a
fault. -/
inductive AnalysisError where
  | canceled
  | fault (f : Fault)
deriving DecidableEq, Repr

/-- The text of an error; a missing piece has none. -/
def AnalysisError.message : AnalysisError → Option String
  | canceled => some "context canceled"
  | fault f => f.message

/-- The solved graphs of some functions, each on its own. Each is solved unless the analysis was
called off before. -/
def analyzeAll (canceled : Bool) (p : Program) (fs : List FuncId) (o : Options) :
    Except AnalysisError (List Graph) :=
  fs.mapM fun f => if canceled then .error .canceled else (analyze p f o).mapError .fault

/-- The text of what a branch tells. -/
def Fact.text (p : Program) : Fact → String
  | within r => r.text
  | against c bound => c.symbol ++ " " ++ p.valueText bound

/-- Whether a fact compares with another value. -/
def Fact.isSymbolic : Fact → Bool
  | within _ => false
  | against _ _ => true

end ValueRange
