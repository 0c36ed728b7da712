import FormulaGraph.Formula.Rendering
import Std.Data.HashSet

/-!
# Walking a graph

A walk visits the nodes below a formula in the order in which they are first
met from left to right, parents before children, and each of them once.  What
counts as "the same node again" is decided by a key: with node identities as
keys the walk lists the distinct nodes, with signatures the structurally
distinct parts.

Nothing below a node met again is visited again.  Every step takes one formula
off the pending list and puts only its children in its place, so the pending
formulas get smaller in total and the walk ends.
-/

namespace FormulaGraph

namespace Formula

variable {α : Type}

mutual

/-- Number of nodes of the tree the graph unfolds to. -/
def treeSize : Formula α → Nat
  | node _ (.const _) => 1
  | node _ (.var _) => 1
  | node _ (.unary _ a) => 1 + treeSize a
  | node _ (.binary _ a b) => 1 + (treeSize a + treeSize b)
  | node _ (.assoc _ args) => 1 + treeSizes args
  | node _ (.conditional _ c a b) => 1 + (treeSize c + treeSize a + treeSize b)
  | node _ (.tabulated _ _ a) => 1 + treeSize a
  | node _ (.solver ⟨body, _, low, high, precision, _⟩) =>
    1 + (treeSize body + treeSize low + treeSize high + treeSize precision)

def treeSizes : List (Formula α) → Nat
  | [] => 0
  | e :: es => treeSize e + treeSizes es

end

theorem treeSizes_append (as bs : List (Formula α)) :
    treeSizes (as ++ bs) = treeSizes as + treeSizes bs := by
  induction as with
  | nil => simp [treeSizes]
  | cons a as ih => simp [treeSizes, ih, Nat.add_assoc]

/-- A tree is one node larger than its children together. -/
theorem treeSize_eq (e : Formula α) : treeSize e = 1 + treeSizes e.children := by
  obtain ⟨id, shape⟩ := e
  cases shape <;>
    simp [treeSize, treeSizes, children, Formula.shape, Shape.children, Solver.children,
      Nat.add_assoc]

/-- The walk through the pending formulas, skipping those whose key was met. -/
def walk {κ : Type} [BEq κ] [Hashable κ] (key : Formula α → κ) (met : Std.HashSet κ) :
    List (Formula α) → List (Formula α)
  | [] => []
  | e :: pending =>
    if met.contains (key e) then walk key met pending
    else e :: walk key (met.insert (key e)) (e.children ++ pending)
termination_by pending => treeSizes pending
decreasing_by
  · have := treeSize_eq e
    simp only [treeSizes]
    omega
  · have := treeSize_eq e
    simp only [treeSizes, treeSizes_append]
    omega

/-- The distinct nodes of the graph, in the order they are first met. -/
def nodes (e : Formula α) : List (Formula α) := walk Formula.id ∅ [e]

/-- Number of distinct nodes. -/
def nodeCount (e : Formula α) : Nat := e.nodes.length

/-- The variables of the graph, in the order they are first met. -/
def vars (e : Formula α) : List Variable := e.nodes.filterMap asVariable

/-- Number of structurally distinct parts. -/
def distinctParts [Scalar α] [ScalarText α] (e : Formula α) : Nat :=
  (walk signature ∅ [e]).length

end Formula

end FormulaGraph
