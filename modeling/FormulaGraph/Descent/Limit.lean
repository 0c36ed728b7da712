import FormulaGraph.Session

/-!
# Limits on variables

A limit keeps a variable on one side of a number.
-/

namespace FormulaGraph

/-- The side of a limit a variable may not cross to. -/
inductive Side where
  /-- The variable may not exceed the limit. -/
  | above
  /-- The variable may not fall below the limit. -/
  | below
deriving DecidableEq, Repr

/-- A bound on the value of a variable. -/
structure Limit (α : Type) where
  bounded : Variable
  value : α
  side : Side

namespace Side

variable {α : Type} [Scalar α]

/-- The direction in which a variable crosses the limit. -/
def sign : Side → α
  | above => 1
  | below => -1

/-- The side with the given sign. -/
def ofSign? (s : α) : Option Side :=
  if s == 1 then some above else if s == -1 then some below else none

end Side

namespace Limit

variable {α : Type} [Scalar α]

/-- A limit on a formula that is a variable, the side given by its sign. -/
def ofFormula (e : Formula α) (value sign : α) : Except (Fault α) (Limit α) := do
  let bounded ← e.toVariable .limitedVariable
  match Side.ofSign? sign with
  | some side => return ⟨bounded, value, side⟩
  | none => throw .limitSign

/-- Whether a variable at `current` would be past the limit after moving by
`move`. -/
def exceeded (l : Limit α) (current move : α) : Bool :=
  Scalar.less 0 ((current + move - l.value) * l.side.sign)

/-- The move that takes a variable from `current` to the limit. -/
def distance (l : Limit α) (current : α) : α := l.value - current

end Limit

end FormulaGraph
