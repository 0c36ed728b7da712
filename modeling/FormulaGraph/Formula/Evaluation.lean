import FormulaGraph.Store
import FormulaGraph.BracketSearch

/-!
# Evaluation with stored values

Evaluating a formula in a generation computes every node at most once: a node
already computed in this generation answers from its slot.  Children are
evaluated from left to right and only as far as the result needs them: a zero
dividend leaves the divisor alone, a product stops at its first zero, and a
conditional takes one branch.

A solver writes every trial value into its variable and evaluates its body in
a pass of its own for each, since the values stored for the current pass were
computed at another trial value.  Afterwards the variable holds the root that
was found, or the last trial value if there was none.
-/

namespace FormulaGraph

namespace Formula

variable {α : Type} [Scalar α]

open Evaluation (nextGeneration read write)

/-- Answers from the slot of a node, or computes its value and stores it. -/
def throughSlot (id : NodeId) (g : Generation) (compute : Evaluation α α) :
    Evaluation α α := do
  let slot := (← get).slot id
  if slot.holds g then
    return slot.value
  else
    let v ← compute
    modify fun s => s.fill id g v
    return v

mutual

/-- The value of a formula in a generation. -/
def evaluateIn (g : Generation) : Formula α → Evaluation α α
  | node _ (.const v) => pure v
  | node id (.var _) => read id
  | node id (.unary op a) => throughSlot id g do
    return op.apply (← evaluateIn g a)
  | node id (.binary op a b) => throughSlot id g do
    let left ← evaluateIn g a
    -- the divisor is not needed once the dividend is zero
    if op == .divide && left == 0 then
      return 0
    else
      return op.apply left (← evaluateIn g b)
  | node id (.assoc .multiply args) => throughSlot id g (productIn g 1 args)
  | node id (.assoc op args) => throughSlot id g do
    return op.apply (← evaluateAllIn g args)
  | node id (.conditional op c a b) => throughSlot id g do
    if op.selectsFirst (← evaluateIn g c) then
      evaluateIn g a
    else
      evaluateIn g b
  | node id (.tabulated _ t a) => throughSlot id g do
    return t.interpolate (← evaluateIn g a)
  | node id (.solver ⟨body, bound, low, high, precision, guard⟩) => throughSlot id g do
    let low ← evaluateIn g low
    let high ← evaluateIn g high
    let precision ← evaluateIn g precision
    let found ← BracketSearch.run low high precision
      (fun x => do
        write bound.id x
        let trial ← nextGeneration
        if ← guardHoldsIn trial x guard then
          return Scalar.less (← evaluateIn trial body) 0
        else
          return false)
      (fun x => do
        write bound.id x
        let trial ← nextGeneration
        evaluateIn trial body)
    if Scalar.isNaN found.root then
      return found.root
    else
      write bound.id found.root
      return found.root

/-- The values of several formulas, from left to right. -/
def evaluateAllIn (g : Generation) : List (Formula α) → Evaluation α (List α)
  | [] => pure []
  | e :: es => do
    let v ← evaluateIn g e
    return v :: (← evaluateAllIn g es)

/-- The product of a number and several formulas, evaluated until it is
zero. -/
def productIn (g : Generation) (acc : α) : List (Formula α) → Evaluation α α
  | [] => pure acc
  | e :: es => do
    let next := acc * (← evaluateIn g e)
    if next == 0 then
      return next
    else
      productIn g next es

/-- Whether a guard, if there is one, admits the trial value `x`. -/
def guardHoldsIn (g : Generation) (x : α) :
    Option (NodeId × Guard α (Formula α)) → Evaluation α Bool
  | none => pure true
  | some (_, .custom holds) => pure (holds x)
  | some (_, .positive e) => do
    return Scalar.less 0 (← evaluateIn g e)

end

/-- The value of a formula in a pass of its own. -/
def evaluate (e : Formula α) : Evaluation α α := do
  e.evaluateIn (← nextGeneration)

/-- How often the node was computed. -/
def recomputations (e : Formula α) : Evaluation α Nat := do
  return ((← get).slot e.id).recomputations

end Formula

end FormulaGraph
