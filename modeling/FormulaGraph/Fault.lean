import FormulaGraph.Formula.Rendering

/-!
# What can go wrong

Every way in which a call can be refused, by its cause, and the wording of each
in one place.
-/

namespace FormulaGraph

/-- A number of rows and a number of columns. -/
structure Extent where
  rows : Nat
  columns : Nat
deriving DecidableEq, Repr

namespace Extent

/-- The extent as it is written in messages. -/
def text (e : Extent) : String := toString e.rows ++ "x" ++ toString e.columns

end Extent

/-- Why a call was refused. -/
inductive Fault (α : Type) where
  /-- A value was read from or written to something else than a variable. -/
  | expectedVariable (found : Formula α)
  | derivativeVariable (found : Formula α)
  | boundVariable (found : Formula α)
  | limitedVariable (found : Formula α)
  | searchVariables
  | limitSign
  /-- An operation was rebuilt over the wrong number of children. -/
  | childCount (expected got : Nat)
  /-- A leaf was rebuilt. -/
  | leaf
  | table (defect : Table.Defect α)
  | raggedRows
  | elementOutOfRange
  | minorOutOfRange
  | shapeMismatch (left right : Extent)
  | notAVector (extent : Extent)
  /-- A component of a point of variables is none. -/
  | componentVariable (found : Formula α)
  | notSquare (extent : Extent)
  | singularMatrix
  | derivativeCount
  | logLevel
  | unknownLogLevel (name : String)
  | absoluteStep
  | relativeStep
  | tolerance
  | objectiveMissing

namespace Fault

variable {α : Type} [Scalar α] [ScalarText α]

/-- What the fault is reported as. -/
def message : Fault α → String
  | expectedVariable e => "expected a Variable, got " ++ e.display
  | derivativeVariable e =>
    "derivative can be taken only with respect to a Variable, got " ++ e.display
  | boundVariable e => "implicit solver needs a Variable to bind, got " ++ e.display
  | limitedVariable e => "only a Variable can be limited, got " ++ e.display
  | searchVariables => "gradient search variables must be Variable nodes"
  | limitSign => "sign of a limitation must be +1 or -1"
  | childCount expected got =>
    "expected " ++ toString expected ++ " children, got " ++ toString got
  | leaf => "leaf"
  | table .tooFewPoints => "a tabulated function needs at least 2 points"
  | table (.stepNotPositive step) =>
    "grid step must be positive, got " ++ ScalarText.text step
  | raggedRows => "All rows must have the same length"
  | elementOutOfRange => "index out of bounds"
  | minorOutOfRange => "Index out of bounds"
  | shapeMismatch left right =>
    "Trying to multiply matrices of invalid sizes: " ++ left.text ++ " by " ++ right.text
  | notAVector extent => "Trying to convert a " ++ extent.text ++ " matrix to a 3D point"
  | componentVariable e => "Expected a Variable, got " ++ e.display
  | notSquare extent => "Matrix must be square, got " ++ extent.text
  | singularMatrix => "Matrix is singular"
  | derivativeCount => "one derivative per variable expected"
  | logLevel => "loglevel must be debug, info, warn, error, off or none"
  | unknownLogLevel name =>
    "loglevel must be debug, info, warn, error, off or none, got " ++ name
  | absoluteStep => "absolute step must be positive"
  | relativeStep => "relative step must be non-negative"
  | tolerance => "tolerance must be positive"
  | objectiveMissing => "objective is not set, call set_problem first"

end Fault

end FormulaGraph
