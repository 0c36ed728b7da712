import FormulaGraph.Formula.Recollection
import FormulaGraph.Formula.Replacement

/-!
# Derivatives

The derivative of a formula with respect to a variable is a formula, built by
the rules of calculus from the derivatives of its children through the simple
constructors, so that vanishing terms vanish while it is built.

Derivatives are remembered for every node and variable (`Recollection`), so that
a shared part is differentiated once, and asking again gives the same node.
What a rule still needs is held while it takes further derivatives, and what it
no longer needs may be forgotten and built anew.
-/

namespace FormulaGraph

/-- Computations that build formulas and remember derivatives. -/
abbrev Differentiation (α : Type) := StateT (Recollection α) Fresh

/-- Computes with one more formula held. -/
def Differentiation.holding {α β : Type} (e : Formula α) (x : Differentiation α β) :
    Differentiation α β := do
  let held := (← get).held
  modify fun r => { r with held := e :: held }
  let b ← x
  modify fun r => { r with held }
  return b

namespace Shape

variable {α ε : Type}

/-- Whether the derivative of such a node is made from the node itself. -/
def recursInDerivative : Shape α ε → Bool
  | unary .exp _ | unary .sqrt _ | assoc .hypot _ | solver _ => true
  | _ => false

end Shape

namespace Formula

open Differentiation (holding)

variable {α : Type} [Scalar α]

/-- The derivative of an operation `e` on one argument `a` with derivative
`d`. -/
def unaryDerivative (e : Formula α) (op : UnaryOp) (a d : Formula α) :
    Fresh (Formula α) := do
  if d.isConstantValue 0 then
    return zero
  else
    match op with
    | .negate => negate d
    | .square => product [← constant Scalar.two, a, d]
    | .sqrt => divide (← product [← constant Scalar.half, d]) e
    | .exp => product [e, d]
    | .log => divide d a
    | .sin => product [← unary .cos a, d]
    | .cos => negate (← product [← unary .sin a, d])
    | .atan => divide d (← add (← square a) (← constant 1))
    | .acos => negate (← divide d (← unary .sqrt (← subtract (← constant 1) (← square a))))
    | .cosineIntegral => divide (← product [← unary .cos a, d]) a
    | .sineIntegral => divide (← product [← unary .sin a, d]) a

/-- The derivative of an operation on two arguments `a` and `b` with
derivatives `da` and `db`. -/
def binaryDerivative (op : BinaryOp) (a b da db : Formula α) : Fresh (Formula α) := do
  match op with
  | .subtract => subtract da db
  | .divide =>
    divide (← subtract (← product [da, b]) (← product [a, db])) (← square b)
  | .atan2 =>
    divide (← subtract (← product [b, da]) (← product [a, db]))
      (← sum [← square a, ← square b])
  | .max => conditional .ifPositive (← subtract a b) da db
  | .min => conditional .ifPositive (← subtract a b) db da

/-- What an argument `e` with derivative `d` contributes to the derivative of an
operation on several arguments, `before` and `after` being the others. -/
def derivativeTerm (op : AssocOp) (before : List (Formula α)) (e : Formula α)
    (after : List (Formula α)) (d : Formula α) : Fresh (Formula α) :=
  match op with
  | .add => pure d
  | .multiply =>
    if d.isConstantValue 0 then pure zero else product (before ++ d :: after)
  | .hypot => product [e, d]

/-- The derivative of a sum, product or length `e`, given what its arguments
contribute. -/
def assocDerivative (e : Formula α) (op : AssocOp) (terms : List (Formula α)) :
    Fresh (Formula α) := do
  match op with
  | .add | .multiply => sum terms
  | .hypot => divide (← sum terms) e

/-- The derivative of a table as a formula of its argument: the one supplied
with it, or a table of differences. -/
def tableDerivative (t : Table α (Formula α)) (arg : Formula α) : Fresh (Formula α) :=
  match t.derivative with
  | some d => pure d
  | none => tabulated t.finiteDifference arg

/-- The derivative of a tabulated function of `a`, which has derivative `d`. -/
def tabulatedDerivative (t : Table α (Formula α)) (a d : Formula α) :
    Fresh (Formula α) := do
  if d.isConstantValue 0 then
    return zero
  else
    product [← tableDerivative t a, d]

/-- The derivative of a solver node `e` for a variable other than its own: the
slope of the root along the level line of the body, read at the root. -/
def rootSlope (e : Formula α) (bound : NodeId) (byVariable byBound : Formula α) :
    Fresh (Formula α) := do
  (← negate (← divide byVariable byBound)).substitute [(bound, e)]

/-- The derivative remembered for a node, or the one built now, which is
remembered from now on. -/
def recollect (e : Formula α) (x : NodeId) (build : Differentiation α (Formula α)) :
    Differentiation α (Formula α) := do
  match ← modifyGet (Recollection.remembered? e.id x) with
  | some d => return d
  | none =>
    let d ← build
    modify fun r =>
      if e.shape.recursInDerivative then r.keepWhileInUse e.id x d else r.keep e.id x d
    return d

mutual

/-- The derivative of a formula with respect to the variable `x`. -/
def derivative (x : NodeId) : Formula α → Differentiation α (Formula α)
  | node _ (.const _) => pure zero
  | node id (.var _) => pure (if id = x then one else zero)
  | node id shape =>
    recollect (node id shape) x (shapeDerivative x (node id shape) shape)

/-- The derivative of the node `e`, given its shape. -/
def shapeDerivative (x : NodeId) (e : Formula α) :
    Shape α (Formula α) → Differentiation α (Formula α)
  | .const _ => pure zero
  | .var _ => pure (if e.id = x then one else zero)
  | .unary op a => do
    let d ← derivative x a
    unaryDerivative e op a d
  | .binary op a b => do
    let da ← derivative x a
    let db ← holding da (derivative x b)
    binaryDerivative op a b da db
  | .assoc op args => do
    assocDerivative e op (← derivativeTerms x op [] args)
  | .conditional op c a b => do
    let da ← derivative x a
    let db ← holding da (derivative x b)
    conditional op c da db
  | .tabulated _ t a => do
    let d ← derivative x a
    tabulatedDerivative t a d
  | .solver ⟨body, bound, _, _, _, _⟩ => do
    if bound.id = x then
      return zero
    else
      let byVariable ← derivative x body
      if byVariable.isConstantValue 0 then
        return zero
      else
        let byBound ← holding byVariable (derivative bound.id body)
        rootSlope e bound.id byVariable byBound

/-- What the arguments of an operation contribute to its derivative, after the
arguments `before`. -/
def derivativeTerms (x : NodeId) (op : AssocOp) (before : List (Formula α)) :
    List (Formula α) → Differentiation α (List (Formula α))
  | [] => pure []
  | e :: es => do
    let d ← derivative x e
    let term ← derivativeTerm op before e es d
    let terms ← holding term (derivativeTerms x op (before ++ [e]) es)
    return term :: terms

end

/-- The derivative with respect to the variable `x`, taken with the formula held.
It is held itself from then on. -/
def differentiate (e : Formula α) (x : NodeId) : Differentiation α (Formula α) := do
  let next ← (get : Fresh NodeId)
  modify fun r => r.startAt next
  let d ← holding e (derivative x e)
  modify fun r => { r with held := d :: r.held }
  return d

end Formula

end FormulaGraph
