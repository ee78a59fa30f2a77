import ValueRange.Graph.Builder

/-! Graphs of whole modules. The parameters of a function that is not external are bound to the
arguments of its calls, and the results of calls to what the callee returns. -/

namespace ValueRange.Graph

/-- Operands, none of which may be missing. -/
def present (vs : List (Option ValueId)) : Except Fault (List ValueId) :=
  vs.mapM fun v =>
    match v with
    | some v => .ok v
    | none => .error .missing

/-- The arguments at position `i` of some calls, of those calls that pass a tracked one there. -/
def actuals (p : Program) (calls : List Instr) (i : Nat) : Except Fault (List ValueId) := do
  let args ← present (calls.filterMap fun call => call.args[i]?)
  return args.filter p.isInteger

/-- Binds the parameters of a function to the arguments of its calls, if all of them pass one. -/
def bindParams (p : Program) (f : FuncId) (calls : List Instr) : GraphM Unit := do
  let params := (p.func f).params.toList
  for (v, i) in params.zipIdx do
    if p.isInteger v then
      let args ← liftM (actuals p calls i)
      if args.length == calls.length then
        let _ ← addBinding p v args

/-- Binds the results of calls to the values that the function returns. -/
def bindResults (p : Program) (f : FuncId) (calls : List Instr) : GraphM Unit := do
  let returned := (← liftM (present (p.returns f 0))).filter p.isInteger
  if returned.isEmpty then return
  for call in calls do
    if let some v := call.result then
      if p.isInteger v then
        let _ ← addBinding p v returned

/-- Binds the calls of a function within a module. -/
def bindCalls (p : Program) (m : ModuleId) (f : FuncId) : GraphM Unit := do
  let calls := p.calls m f
  if !(p.func f).external && !calls.isEmpty then bindParams p f calls
  bindResults p f calls

/-- Adds the functions of a module and binds their calls. -/
def addModule (p : Program) (m : ModuleId) : GraphM Unit := do
  for f in (p.moduleAt m).functions do
    addFunction p f
  for f in (p.moduleAt m).functions do
    bindCalls p m f

/-- The graph of a function. -/
def build (p : Program) (f : FuncId) (o : Options) : Except Fault Unit × Graph :=
  (addFunction p f).run.run (empty (sentinelsFor p o [f]) o)

/-- The graph of a module. -/
def buildModule (p : Program) (m : ModuleId) (o : Options) : Except Fault Unit × Graph :=
  (addModule p m).run.run (empty (sentinelsFor p o (p.moduleAt m).functions.toList) o)

end ValueRange.Graph
