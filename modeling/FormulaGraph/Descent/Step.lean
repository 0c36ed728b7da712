import FormulaGraph.Descent.Limit

/-!
# One step down the gradient

A step moves the variables against the gradient of a criterion, so far that the
criterion would fall by a given amount if it were linear.

A variable that would cross one of its limits is put on the limit and takes no
further part; the direction is then computed anew for the others.  Every such
round takes one variable out, so that a step asks for the criterion at most
once for every variable, and once if there is none.
-/

namespace FormulaGraph

/-- The value of a criterion and its partial derivatives, one for each
variable. -/
structure Criterion (α : Type) where
  value : α
  derivatives : List α

/-- How far a step should go: the criterion is to fall by the greater of an
amount of its own and a share of its size. -/
structure StepSize (α : Type) where
  absolute : α
  relative : α

/-- What came of a step: whether it was made (it is not when the gradient
vanishes), and how often the criterion was asked for. -/
structure StepOutcome where
  moved : Bool
  rounds : Nat
deriving DecidableEq, Repr

namespace Step

variable {α : Type} [Scalar α]

/-- The direction of the step: against the derivatives of the active variables,
nowhere along the others. -/
def direction (derivatives : List α) (active : List Bool) : List α :=
  (derivatives.zip active).map fun (d, isActive) => if isActive then -d else 0

/-- How fast the criterion changes along the direction. -/
def slope (derivatives direction : List α) (active : List Bool) : α :=
  Scalar.sum (((derivatives.zip direction).zip active).filterMap fun ((d, v), isActive) =>
    if isActive then some (d * v) else none)

/-- The fall of the criterion that a step aims at. -/
def StepSize.fall (size : StepSize α) (value : α) : α :=
  Scalar.larger size.absolute (size.relative * Scalar.abs value)

/-- Where a variable stands in a list; in its last place if it has several. -/
def place? (unknowns : List (Formula α)) (v : NodeId) : Option Nat :=
  (unknowns.length - 1 - ·) <$> unknowns.reverse.findIdx? (·.id == v)

/-- The multiple of the direction to go, and the limit that stopped it there
with the place of its variable. -/
structure Reach (α : Type) where
  coeff : α
  stopped : Option (Limit α × Nat)

/-- Shortens the step to a limit that it would cross. -/
def Reach.shorten (unknowns : List (Formula α)) (direction : List α) (active : List Bool)
    (reach : Reach α) (l : Limit α) (current : α) : Reach α :=
  match place? unknowns l.bounded.id with
  | none => reach
  | some i =>
    match active[i]?, direction[i]? with
    | some true, some v =>
      if l.exceeded current (v * reach.coeff) then ⟨l.distance current / v, some (l, i)⟩
      else reach
    | _, _ => reach

/-- Shortens the step to each limit in turn that it would still cross. -/
def shortenAll (unknowns : List (Formula α)) (direction : List α) (active : List Bool) :
    Reach α → List (Limit α) → Action α (Reach α)
  | reach, [] => pure reach
  | reach, l :: limits => do
    let current ← l.bounded.get
    shortenAll unknowns direction active (reach.shorten unknowns direction active l current)
      limits

/-- Moves the active variables, one after the other. -/
def move (coeff : α) : List (Formula α) → List α → List Bool → Action α Unit
  | e :: es, v :: vs, isActive :: active => do
    if isActive then
      e.setValue ((← e.getValue) + v * coeff)
    move coeff es vs active
  | _, _, _ => pure ()

/-- The rounds of a step.  `activeCount` is the number of variables still
active, `round` the number of rounds made before; the criterion is asked for
once a round and told which round it is. -/
def rounds (criterion : Nat → Action α (Criterion α)) (unknowns : List (Formula α))
    (limits : List (Limit α)) (size : StepSize α) :
    (activeCount : Nat) → (active : List Bool) → (round : Nat) → Action α StepOutcome
  | activeCount, active, round => do
    let c ← criterion round
    if c.derivatives.length != unknowns.length then
      throw .derivativeCount
    let direction := direction c.derivatives active
    let slope := slope c.derivatives direction active
    if slope == 0 then
      return ⟨false, round + 1⟩
    let coeff := StepSize.fall size c.value / Scalar.abs slope
    let reach ← shortenAll unknowns direction active ⟨coeff, none⟩ limits
    match reach.stopped with
    | some (l, i) =>
      l.bounded.set l.value
      match activeCount with
      | left + 2 =>
        rounds criterion unknowns limits size (left + 1) (active.set i false) (round + 1)
      | _ => return ⟨true, round + 1⟩
    | none =>
      move reach.coeff unknowns direction active
      return ⟨true, round + 1⟩

end Step

/-- One step for a criterion, which is asked for once a round and told which
round it is. -/
def step {α : Type} [Scalar α] (criterion : Nat → Action α (Criterion α))
    (unknowns : List (Formula α)) (limits : List (Limit α)) (size : StepSize α) :
    Action α StepOutcome :=
  Step.rounds criterion unknowns limits size unknowns.length
    (unknowns.map fun _ => true) 0

/-- The criterion given by a formula and its derivatives, all evaluated in one
pass: in the given one the first time, if there is one, and then in passes of
their own. -/
def formulaCriterion {α : Type} [Scalar α] (objective : Formula α)
    (derivatives : List (Formula α)) (first : Option Generation) (round : Nat) :
    Action α (Criterion α) := do
  let g ← match first, round with
    | some g, 0 => pure g
    | _, _ => (Evaluation.nextGeneration : Evaluation α Generation)
  let value ← objective.evaluateIn g
  let derivatives ← Formula.evaluateAllIn g derivatives
  return ⟨value, derivatives⟩

/-- One step for a formula. -/
def stepFormula {α : Type} [Scalar α] (objective : Formula α) (unknowns : List (Formula α))
    (limits : List (Limit α)) (size : StepSize α) (first : Option Generation) :
    Action α StepOutcome := Session.briefly do
  let derivatives ← objective.gradient unknowns
  step (formulaCriterion objective derivatives first) unknowns limits size

end FormulaGraph
