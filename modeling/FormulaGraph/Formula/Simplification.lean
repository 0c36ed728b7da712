import FormulaGraph.Formula.Construction
import Std.Data.HashMap

/-!
# Simplifying whole graphs

The graph is simplified from the leaves up: first the children, then the root
by its rule.  A shared part is simplified once, because results are kept by
node identity for the length of the pass.  A node under which nothing changes,
and to which no rule applies, is its own result.
-/

namespace FormulaGraph

/-- Results of a pass over a graph, by the identity of the node they are for. -/
abbrev Images (α : Type) := Std.HashMap NodeId (Formula α)

/-- A pass that builds formulas and keeps its results. -/
abbrev Pass (α : Type) := StateT (Images α) Fresh

namespace Formula

variable {α : Type} [Scalar α]

/-- The result kept for a node, or the result computed now and kept. -/
def once (id : NodeId) (compute : Pass α (Formula α)) : Pass α (Formula α) := do
  match (← get)[id]? with
  | some done => return done
  | none =>
    let result ← compute
    modify fun images => images.insert id result
    return result

/-- A node whose children have been simplified, simplified itself. -/
def simplifyOver (e : Formula α) (children : List (Formula α)) : Fresh (Formula α) :=
  if sameAll e.children children then (rootRule e.shape).getD (pure e)
  else e.rebuild children

mutual

/-- One node of the pass. -/
def simplifyNode : Formula α → Pass α (Formula α)
  | node id shape => once id (simplifyShape (node id shape) shape)

/-- The node `e` simplified, given its shape. -/
def simplifyShape (e : Formula α) : Shape α (Formula α) → Pass α (Formula α)
  | .const _ | .var _ | .assoc _ [] => pure e
  | .unary _ a => do
    let a ← simplifyNode a
    simplifyOver e [a]
  | .binary _ a b => do
    let a ← simplifyNode a
    let b ← simplifyNode b
    simplifyOver e [a, b]
  | .assoc _ args => do
    simplifyOver e (← simplifyNodes args)
  | .conditional _ c a b => do
    let c ← simplifyNode c
    let a ← simplifyNode a
    let b ← simplifyNode b
    simplifyOver e [c, a, b]
  | .tabulated _ _ a => do
    let a ← simplifyNode a
    simplifyOver e [a]
  | .solver ⟨body, _, low, high, precision, _⟩ => do
    let body ← simplifyNode body
    let low ← simplifyNode low
    let high ← simplifyNode high
    let precision ← simplifyNode precision
    simplifyOver e [body, low, high, precision]

/-- The simplified nodes of a list. -/
def simplifyNodes : List (Formula α) → Pass α (List (Formula α))
  | [] => pure []
  | e :: es => do
    let e ← simplifyNode e
    return e :: (← simplifyNodes es)

end

/-- The simplified formula. -/
def simplify (e : Formula α) : Fresh (Formula α) := do
  return (← (simplifyNode e).run ∅).1

end Formula

end FormulaGraph
