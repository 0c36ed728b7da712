import FormulaGraph.Formula.Simplification

/-!
# Replacing variables

Two passes put something else in the place of variables: substitution puts
formulas, all at once, and freezing puts constants holding the values of the
moment.  Both are one pass with a rule for variables.

A node under which no variable is replaced is its own result; any other node
is rebuilt as a simple node.  A shared part is replaced once and stays shared.
The variable bound by a solver is never replaced in its body: there the rule is
changed to leave it alone, and results are kept separately.
-/

namespace FormulaGraph

/-- What to put in the place of a variable; `none` leaves it. -/
abbrev Replacement (α : Type) := Variable → Option (Fresh (Formula α))

namespace Replacement

variable {α : Type}

/-- The replacement that leaves `v` alone as well. -/
def except (r : Replacement α) (v : NodeId) : Replacement α :=
  fun w => if w.id = v then none else r w

/-- Puts, for each variable of the list, the formula first paired with it. -/
def ofPairs (pairs : List (NodeId × Formula α)) : Replacement α :=
  fun v => (pairs.find? fun p => p.1 == v.id).map fun p => pure p.2

/-- Puts constants with the given values for all variables but the excluded
ones. -/
def ofValues (values : NodeId → α) (excluded : List NodeId) : Replacement α :=
  fun v => if excluded.contains v.id then none else some (Formula.constant (values v.id))

end Replacement

namespace Formula

variable {α : Type} [Scalar α]

/-- A node whose children have been replaced, rebuilt if one of them changed. -/
def replaceOver (e : Formula α) (children : List (Formula α)) : Fresh (Formula α) :=
  if sameAll e.children children then pure e else e.rebuild children

mutual

/-- One node of the pass. -/
def replaceNode (r : Replacement α) : Formula α → Pass α (Formula α)
  | node id shape => once id (replaceShape r (node id shape) shape)

/-- The node `e` with its variables replaced, given its shape. -/
def replaceShape (r : Replacement α) (e : Formula α) :
    Shape α (Formula α) → Pass α (Formula α)
  | .const _ => pure e
  | .var name =>
    match r ⟨e.id, name⟩ with
    | some put => put
    | none => pure e
  | .unary _ a => do
    let a ← replaceNode r a
    replaceOver e [a]
  | .binary _ a b => do
    let a ← replaceNode r a
    let b ← replaceNode r b
    replaceOver e [a, b]
  | .assoc _ args => do
    replaceOver e (← replaceNodes r args)
  | .conditional _ c a b => do
    let c ← replaceNode r c
    let a ← replaceNode r a
    let b ← replaceNode r b
    replaceOver e [c, a, b]
  | .tabulated _ _ a => do
    let a ← replaceNode r a
    replaceOver e [a]
  | .solver ⟨body, bound, low, high, precision, _⟩ => do
    let (body, _) ← (replaceNode (r.except bound.id) body).run ∅
    let low ← replaceNode r low
    let high ← replaceNode r high
    let precision ← replaceNode r precision
    replaceOver e [body, low, high, precision]

/-- The nodes of a list with their variables replaced. -/
def replaceNodes (r : Replacement α) : List (Formula α) → Pass α (List (Formula α))
  | [] => pure []
  | e :: es => do
    let e ← replaceNode r e
    return e :: (← replaceNodes r es)

end

/-- The formula with its variables replaced. -/
def replace (r : Replacement α) (e : Formula α) : Fresh (Formula α) := do
  return (← (replaceNode r e).run ∅).1

/-- The formula with each listed variable replaced by the formula first paired
with it, all at once. -/
def substitute (pairs : List (NodeId × Formula α)) (e : Formula α) : Fresh (Formula α) :=
  e.replace (.ofPairs pairs)

/-- The formula with all variables but the excluded ones replaced by constants
holding the given values. -/
def freeze (values : NodeId → α) (excluded : List NodeId) (e : Formula α) :
    Fresh (Formula α) :=
  e.replace (.ofValues values excluded)

end Formula

end FormulaGraph
