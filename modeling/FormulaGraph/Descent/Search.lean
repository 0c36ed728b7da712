import FormulaGraph.Descent.Step
import FormulaGraph.LogLevel

/-!
# Gradient search

Steps down the gradient until the objective settles: it changes by less than a
tolerance, or its gradient vanishes.  The result is then where the variables
are.  A search that runs out of its budget of steps has no result.
-/

namespace FormulaGraph

/-- A search with its settings, and what came of it so far. -/
structure GradientSearch (α : Type) where
  objective : Option (Formula α)
  unknowns : List (Formula α)
  limits : List (Limit α)
  size : StepSize α
  tolerance : α
  maxIterations : Nat
  logLevel : Option String
  iterations : Nat
  result : Option (List α)

/-- Settings to change; those left out stay. -/
structure SearchSettings (α : Type) where
  logLevel : Option String
  absoluteStep : Option α
  relativeStep : Option α
  tolerance : Option α
  maxIterations : Option Nat

/-- The numbers a search starts out with. -/
structure SearchDefaults (α : Type) where
  absoluteStep : α
  relativeStep : α
  tolerance : α

/-- A millionth, a tenth and a millionth. -/
def usualDefaults : SearchDefaults Float := ⟨1e-6, 0.1, 1e-6⟩

namespace GradientSearch

variable {α : Type}

/-- A search without a problem. -/
def start (defaults : SearchDefaults α) : GradientSearch α where
  objective := none
  unknowns := []
  limits := []
  size := ⟨defaults.absoluteStep, defaults.relativeStep⟩
  tolerance := defaults.tolerance
  maxIterations := 1000
  logLevel := some "info"
  iterations := 0
  result := none

/-- Sets what is searched: an objective, the variables it may move, and limits
on them. -/
def withProblem (s : GradientSearch α) (objective : Formula α)
    (unknowns : List (Formula α)) (limits : List (Limit α)) :
    Except (Fault α) (GradientSearch α) :=
  if unknowns.all (·.isVariable) then
    .ok { s with objective := some objective, unknowns, limits }
  else .error .searchVariables

variable [Scalar α]

/-- Changes to a search, which keep what they changed before they are
refused. -/
abbrev Change (α : Type) := ExceptT (Fault α) (StateM (GradientSearch α))

/-- Changes a setting if it is given and admitted. -/
def change {β : Type} (given : Option β) (admitted : β → Bool) (fault : Fault α)
    (set : GradientSearch α → β → GradientSearch α) : Change α Unit := do
  match given with
  | none => return
  | some v => if admitted v then modify (set · v) else throw fault

/-- Changes the settings in order, up to the first that is refused. -/
def configure (c : SearchSettings α) : Change α Unit := do
  change c.logLevel (fun name => (LogLevel.ofName? name).isSome) .logLevel
    fun s v => { s with logLevel := some v }
  change c.absoluteStep (fun v => Scalar.less 0 v) .absoluteStep
    fun s v => { s with size := { s.size with absolute := v } }
  change c.relativeStep (fun v => Scalar.atMost 0 v) .relativeStep
    fun s v => { s with size := { s.size with relative := v } }
  change c.tolerance (fun v => Scalar.less 0 v) .tolerance
    fun s v => { s with tolerance := v }
  modify fun s => { s with maxIterations := c.maxIterations.getD s.maxIterations }

/-- How a run ended: the result, if there is one, and the steps made. -/
structure Run (α : Type) where
  result : Option (List α)
  iterations : Nat

/-- Makes at most `left` more steps. -/
def steps (s : GradientSearch α) (objective : Formula α) :
    (left : Nat) → (previous : α) → (made : Nat) → Action α (Run α)
  | 0, _, made => pure ⟨none, made⟩
  | left + 1, previous, made => do
    let outcome ← stepFormula objective s.unknowns s.limits s.size none
    if !outcome.moved then
      return ⟨some (← s.unknowns.mapM Formula.getValue), made + 1⟩
    else
      let value ← objective.evaluate
      if Scalar.less (Scalar.abs (previous - value)) s.tolerance then
        return ⟨some (← s.unknowns.mapM Formula.getValue), made + 1⟩
      else
        steps s objective left value (made + 1)

/-- Steps until the objective settles.  A run without a result leaves the result
of an earlier one in place. -/
def run (s : GradientSearch α) : Action α (Run α × GradientSearch α) := do
  match s.objective with
  | none => throw .objectiveMissing
  | some objective =>
    let before ← objective.evaluate
    let outcome ← s.steps objective s.maxIterations before 0
    return (outcome, { s with
      iterations := outcome.iterations
      result := outcome.result <|> s.result })

/-- Steps until the objective settles, with reports at the level of the search.
Whatever the run answers is the result. -/
def solve (s : GradientSearch α) : Action α (Run α × GradientSearch α) := do
  let _ ← (LogLevel.parse s.logLevel : Except (Fault α) (Option LogLevel))
  let (outcome, s) ← s.run
  return (outcome, { s with result := outcome.result })

end GradientSearch

end FormulaGraph
