import FormulaGraph.Formula.Rendering
import Std.Data.HashMap

/-!
# Sharing equal parts

Parts of a graph with the same signature are replaced by one node.  The graph
is walked from the root down and from left to right, and the first node with a
signature stands for all that follow.  The table of nodes met so far can be
kept from one root to the next, so that several roots share their parts.

A solver is left as it is: its body speaks of its own variable.
-/

namespace FormulaGraph

/-- The node that stands for each signature. -/
abbrev Representatives (α : Type) := Std.HashMap String (Formula α)

/-- A walk that shares nodes. -/
abbrev Sharing (α : Type) := StateT (Representatives α) Fresh

namespace Formula

variable {α : Type}

/-- The operation of `e` over other children, as it stands; `e` itself if these
are the children it has. -/
def shareOver (e : Formula α) (children : List (Formula α)) : Fresh (Formula α) :=
  if sameAll e.children children then pure e
  else
    match e.shape.withChildren? children with
    | some shape => new shape
    | none => pure e

variable [Scalar α] [ScalarText α]

/-- The node that stands for a signature, or the one found now, which stands
for it from now on. -/
def represent (key : String) (find : Sharing α (Formula α)) : Sharing α (Formula α) := do
  match (← get)[key]? with
  | some e => return e
  | none =>
    let e ← find
    modify fun table => table.insert key e
    return e

mutual

/-- The shared form of a formula. -/
def shareNode : Formula α → Sharing α (Formula α)
  | node id shape =>
    represent (signature (node id shape)) (shareShape (node id shape) shape)

/-- The shared form of `e`, given its shape. -/
def shareShape (e : Formula α) : Shape α (Formula α) → Sharing α (Formula α)
  | .const _ | .var _ | .solver _ => pure e
  | .unary _ a => do
    let a ← shareNode a
    shareOver e [a]
  | .binary _ a b => do
    let a ← shareNode a
    let b ← shareNode b
    shareOver e [a, b]
  | .assoc _ args => do
    shareOver e (← shareNodes args)
  | .conditional _ c a b => do
    let c ← shareNode c
    let a ← shareNode a
    let b ← shareNode b
    shareOver e [c, a, b]
  | .tabulated _ _ a => do
    let a ← shareNode a
    shareOver e [a]

/-- The shared forms of several formulas, from left to right. -/
def shareNodes : List (Formula α) → Sharing α (List (Formula α))
  | [] => pure []
  | e :: es => do
    let e ← shareNode e
    return e :: (← shareNodes es)

end

/-- The formula with equal parts shared, and with parts shared that earlier
roots have in common with it. -/
def shareWith (table : Representatives α) (e : Formula α) :
    Fresh (Formula α × Representatives α) :=
  (shareNode e).run table

/-- The formula with equal parts shared. -/
def share (e : Formula α) : Fresh (Formula α) := do
  return (← shareWith ∅ e).1

end Formula

end FormulaGraph
