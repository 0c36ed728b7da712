import FormulaGraph.Formula.Basic
import FormulaGraph.BracketSearch

/-!
# The value of a formula

The value of a formula under given values of the variables, computed from the
tree alone: nothing is remembered and nothing is written.  A solver searches
in the values changed at its own variable, which is therefore bound in its
body and nowhere else.

This is what a formula means.  The evaluation that runs (`Formula.evaluateIn`)
computes the same numbers from stored ones where it can.
-/

namespace FormulaGraph

/-- Values of the variables, by identity. -/
abbrev Valuation (α : Type) := NodeId → α

/-- The valuation changed at one variable. -/
def Valuation.set {α : Type} (ρ : Valuation α) (v : NodeId) (x : α) : Valuation α :=
  fun w => if w = v then x else ρ w

namespace Formula

variable {α : Type} [Scalar α]

mutual

/-- The value of a formula. -/
def value (ρ : Valuation α) : Formula α → α
  | node _ (.const v) => v
  | node id (.var _) => ρ id
  | node _ (.unary op a) => op.apply (value ρ a)
  | node _ (.binary op a b) => op.apply (value ρ a) (value ρ b)
  | node _ (.assoc op args) => op.apply (values ρ args)
  | node _ (.conditional op c a b) =>
    if op.selectsFirst (value ρ c) then value ρ a else value ρ b
  | node _ (.tabulated _ t a) => t.interpolate (value ρ a)
  | node _ (.solver ⟨body, bound, low, high, precision, guard⟩) =>
    (Id.run <| BracketSearch.run (value ρ low) (value ρ high) (value ρ precision)
      (fun x => pure (guardHolds (ρ.set bound.id x) x guard &&
        Scalar.less (value (ρ.set bound.id x) body) 0))
      (fun x => pure (value (ρ.set bound.id x) body))).root

/-- The values of several formulas. -/
def values (ρ : Valuation α) : List (Formula α) → List α
  | [] => []
  | e :: es => value ρ e :: values ρ es

/-- Whether a guard, if there is one, admits the trial value `x`. -/
def guardHolds (ρ : Valuation α) (x : α) : Option (NodeId × Guard α (Formula α)) → Bool
  | none => true
  | some (_, .custom holds) => holds x
  | some (_, .positive e) => Scalar.less 0 (value ρ e)

end

theorem values_eq_map (ρ : Valuation α) (es : List (Formula α)) :
    values ρ es = es.map (value ρ) := by
  induction es with
  | nil => rfl
  | cons e es ih => rw [values, ih, List.map_cons]

end Formula

end FormulaGraph
