import FormulaGraph.Scalar

/-!
# Tabulated functions

A function given by its values on a uniform grid.  Between two grid points it
is the line through them; beyond the grid it goes on along the outermost line.
-/

namespace FormulaGraph

/-- A function of one argument known at `min`, `min + step`, ….  There are at
least two points, so that every argument has a segment to be read from. -/
structure Table (α ε : Type) where
  name : String
  values : Array α
  /-- Argument of the first value. -/
  min : α
  /-- Distance between arguments of neighbouring values. -/
  step : α
  /-- The derivative with respect to the argument, where it is known. -/
  derivative : Option ε
  two_le_size : 2 ≤ values.size

namespace Table

variable {α ε : Type}

/-- Why values do not make a table. -/
inductive Defect (α : Type) where
  | tooFewPoints
  | stepNotPositive (step : α)

variable [Scalar α]

/-- The table of the given values, unless there are fewer than two of them or
the step is not positive. -/
def ofValues (name : String) (values : Array α) (min step : α) (derivative : Option ε) :
    Except (Defect α) (Table α ε) :=
  if h : 2 ≤ values.size then
    if Scalar.less 0 step then .ok ⟨name, values, min, step, derivative, h⟩
    else .error (.stepNotPositive step)
  else .error .tooFewPoints

variable (t : Table α ε)

/-- Argument of the last value. -/
def max : α := t.min + t.step * Scalar.ofNat (t.values.size - 1)

/-- Where an argument lies on the grid, in steps from the first point; an
undefined place counts as the first point. -/
def position (argument : α) : α :=
  let p := (argument - t.min) / t.step
  if Scalar.isNaN p then 0 else p

/-- The segment a place on the grid is read from, by its left end. -/
def segment (position : α) : Nat :=
  if Scalar.atMost position 0 then 0
  else Nat.min (Scalar.floorNat position) (t.values.size - 2)

/-- Both ends of a segment are points of the table. -/
theorem segment_lt (p : α) : t.segment p + 1 < t.values.size := by
  have h := t.two_le_size
  have hm : Nat.min (Scalar.floorNat p) (t.values.size - 2) ≤ t.values.size - 2 :=
    Nat.min_le_right _ _
  unfold segment
  split <;> omega

/-- Value at an argument. -/
def interpolate (argument : α) : α :=
  let p := t.position argument
  let i := t.segment p
  let coeff := p - Scalar.ofNat i
  have h : i + 1 < t.values.size := t.segment_lt p
  t.values[i] * (1 - coeff) + t.values[i + 1] * coeff

/-- Slope at the `i`-th point, estimated from its neighbours; at the ends from
the one neighbour there is. -/
def slope (i : Nat) (h : i < t.values.size) : α :=
  have two := t.two_le_size
  if hi : i = 0 then (t.values[1] - t.values[0]) / t.step
  else if hl : i + 1 < t.values.size then
    (t.values[i + 1] - t.values[i - 1]) / (Scalar.two * t.step)
  else (t.values[i] - t.values[i - 1]) / t.step

/-- The derivative as a table on the same grid. -/
def finiteDifference : Table α ε where
  name := t.name ++ "'"
  values := Array.ofFn fun i : Fin t.values.size => t.slope i i.isLt
  min := t.min
  step := t.step
  derivative := none
  two_le_size := by simpa using t.two_le_size

end Table

end FormulaGraph
