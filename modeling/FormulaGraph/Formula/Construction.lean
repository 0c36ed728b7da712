import FormulaGraph.Formula.Value

/-!
# Building formulas that are already simple

A shape over simple formulas is turned into a simple formula by looking at its
root only.  The rules are:

1. an operation on constants is the constant it evaluates to;
2. sums, products and lengths nested in one of their own kind are flattened,
   and their constants are combined into one: last in a sum or a length, first
   in a product;
3. `x - 0 = x`, `0 - x = -x`, `-(-x) = x`, `log (e ^ x) = x`, `e ^ log x = x`,
   `hypot (a, b) ^ 2 = a ^ 2 + b ^ 2`; a quotient with a zero on either side is
   zero, and one by a constant is a product with its reciprocal;
4. a conditional on a constant is the branch it selects.

`rootRule` finds the rule that applies to a shape, if one does, and `ofShape`
builds the node accordingly; a shape to which no rule applies becomes a node as
it stands.  No rule looks below the children of the root, except that
flattening goes as deep as the nesting does.
-/

namespace FormulaGraph

namespace AssocOp

variable {α : Type} [Scalar α]

/-- The one constant several constants amount to. -/
def combine : AssocOp → List α → α
  | add, vs => Scalar.sum vs
  | multiply, vs => Scalar.product vs
  | hypot, vs => Scalar.hypot vs

/-- Whether a constant among other arguments changes nothing. -/
def isNeutral : AssocOp → α → Bool
  | add, v => v == 0
  | multiply, v => v == 1
  | hypot, v => v == 0

/-- Whether one constant among other arguments may stay as it is, supposing
that it stands in its place. -/
def admits : AssocOp → α → Bool
  | add, v => !(v == 0)
  | multiply, v => !(v == 1) && !(v == 0)
  | hypot, v => Scalar.less 0 v || Scalar.isNaN v

end AssocOp

namespace Formula

variable {α : Type} [Scalar α]

/-- The value of a shape all of whose children are constants.  A solver is
never folded, since its body is searched, not evaluated. -/
def foldConstants (shape : Shape α (Formula α)) : Option α :=
  match shape with
  | .const _ | .var _ | .solver _ => none
  | _ =>
    if shape.children.all isConstant then some (value (fun _ => Scalar.nan) (node 0 shape))
    else none

/-- The node built for a shape, given the rule for shapes that are not
constant. -/
def build (shape : Shape α (Formula α)) (rule : Option (Fresh (Formula α))) :
    Fresh (Formula α) :=
  match foldConstants shape with
  | some v => constant v
  | none => rule.getD (new shape)

/-! ## Sums, products and lengths -/

/-- Whether the node is the operation `op`. -/
def isAssoc (op : AssocOp) : Formula α → Bool
  | node _ (.assoc inner _) => inner == op
  | _ => false

mutual

/-- The arguments of `op` that a formula contributes: its own, flattened, if
it is the same operation, and otherwise itself. -/
def argumentsOf (op : AssocOp) : Formula α → List (Formula α)
  | e@(node _ (.assoc inner args)) => if inner == op then argumentsOfAll op args else [e]
  | e => [e]

/-- The arguments of `op` that several formulas contribute. -/
def argumentsOfAll (op : AssocOp) : List (Formula α) → List (Formula α)
  | [] => []
  | e :: es => argumentsOf op e ++ argumentsOfAll op es

end

/-- The place of a constant among the arguments: first in a product, last in a
sum or a length. -/
def constantPlace? (op : AssocOp) (args : List (Formula α)) : Option (Formula α) :=
  match op with
  | .multiply => args.head?
  | .add | .hypot => args.getLast?

/-- Whether the arguments of `op` need no flattening: at most one constant, in
its place and not neutral, something besides constants, no argument of the same
kind, and no sum or product of a single argument. -/
def isCanonical (op : AssocOp) (args : List (Formula α)) : Bool :=
  !args.all isConstant && (op == .hypot || 2 ≤ args.length) && !args.any (isAssoc op) &&
    match args.filterMap asConstant with
    | [] => true
    | [v] => (constantPlace? op args).any isConstant && op.admits v
    | _ => false

/-- Adds a constant to the arguments at its place, unless it is neutral. -/
def addConstant (op : AssocOp) (v : α) (terms : List (Formula α)) :
    Fresh (List (Formula α)) := do
  if op.isNeutral v then
    return terms
  else
    let c ← constant v
    match op with
    | .multiply => return c :: terms
    | .add | .hypot => return terms ++ [c]

/-- The flat operation: constants combined, neutral ones dropped, a sum or
product of one argument replaced by it, a product with a zero by zero. -/
def flatten (op : AssocOp) (args : List (Formula α)) : Fresh (Formula α) := do
  let flat := argumentsOfAll op args
  let constants := flat.filterMap asConstant
  let terms := flat.filter fun e => !e.isConstant
  if op == .multiply && constants.any (· == 0) then
    return zero
  else if terms.isEmpty then
    constant (op.combine constants)
  else
    let terms ← addConstant op (op.combine constants) terms
    match op, terms with
    | .add, [e] | .multiply, [e] => return e
    | _, terms => new (.assoc op terms)

def assocRule (op : AssocOp) (args : List (Formula α)) : Option (Fresh (Formula α)) :=
  if isCanonical op args then none else some (flatten op args)

/-- The node for a sum, a product or a length. -/
def assoc (op : AssocOp) (args : List (Formula α)) : Fresh (Formula α) :=
  build (.assoc op args) (assocRule op args)

def sum (args : List (Formula α)) : Fresh (Formula α) := assoc .add args

def product (args : List (Formula α)) : Fresh (Formula α) := assoc .multiply args

/-- The square root of the sum of squares. -/
def hypot (args : List (Formula α)) : Fresh (Formula α) := assoc .hypot args

/-! ## One argument -/

mutual

/-- The square of a formula: that of a length is the sum of the squares of its
components, which may be lengths themselves. -/
def square : Formula α → Fresh (Formula α)
  | node _ (.const v) => constant (v * v)
  | node _ (.assoc .hypot args) => do sum (← squares args)
  | e => new (.unary .square e)

/-- The squares of several formulas. -/
def squares : List (Formula α) → Fresh (List (Formula α))
  | [] => pure []
  | e :: es => do
    let s ← square e
    return s :: (← squares es)

end

def unaryRule (op : UnaryOp) (a : Formula α) : Option (Fresh (Formula α)) :=
  match op, a.shape with
  | .log, .unary .exp inner => some (pure inner)
  | .exp, .unary .log inner => some (pure inner)
  | .negate, .unary .negate inner => some (pure inner)
  | .square, .assoc .hypot _ => some (square a)
  | _, _ => none

/-- The node for an operation on one argument. -/
def unary (op : UnaryOp) (a : Formula α) : Fresh (Formula α) :=
  build (.unary op a) (unaryRule op a)

def negate (a : Formula α) : Fresh (Formula α) := unary .negate a

/-! ## Two arguments -/

def binaryRule (op : BinaryOp) (a b : Formula α) : Option (Fresh (Formula α)) :=
  match op with
  | .subtract =>
    if b.isConstantValue 0 then some (pure a)
    else if a.isConstantValue 0 then some (negate b)
    else none
  | .divide =>
    if a.isConstantValue 0 || b.isConstantValue 0 then some (pure zero)
    else b.asConstant.map fun divisor => do
      let reciprocal ← constant (1 / divisor)
      product [a, reciprocal]
  | .atan2 | .max | .min => none

/-- The node for an operation on two arguments. -/
def binary (op : BinaryOp) (a b : Formula α) : Fresh (Formula α) :=
  build (.binary op a b) (binaryRule op a b)

def add (a b : Formula α) : Fresh (Formula α) := sum [a, b]

def subtract (a b : Formula α) : Fresh (Formula α) := binary .subtract a b

def multiply (a b : Formula α) : Fresh (Formula α) := product [a, b]

/-- Division in which a zero on either side gives zero. -/
def divide (a b : Formula α) : Fresh (Formula α) := binary .divide a b

/-! ## All shapes -/

/-- The rule for a shape over simple formulas, `none` when it is simple. -/
def rootRule (shape : Shape α (Formula α)) : Option (Fresh (Formula α)) :=
  match foldConstants shape with
  | some v => some (constant v)
  | none =>
    match shape with
    | .const _ | .var _ | .tabulated .. | .solver _ => none
    | .unary op a => unaryRule op a
    | .binary op a b => binaryRule op a b
    | .assoc op args => assocRule op args
    | .conditional op c a b =>
      c.asConstant.map fun v => pure (if op.selectsFirst v then a else b)

/-- The simple node for a shape over simple formulas. -/
def ofShape (shape : Shape α (Formula α)) : Fresh (Formula α) :=
  (rootRule shape).getD (new shape)

def conditional (op : ConditionalOp) (c a b : Formula α) : Fresh (Formula α) :=
  ofShape (.conditional op c a b)

/-- A tabulated function of a formula.  The node has the table to itself. -/
def tabulated (table : Table α (Formula α)) (arg : Formula α) : Fresh (Formula α) := do
  ofShape (.tabulated (← Fresh.identity) table arg)

/-- The node that searches for a root of `body`; a guard gets an identity of
its own. -/
def solve (body : Formula α) (bound : Variable) (low high precision : Formula α)
    (guard : Option (Guard α (Formula α))) : Fresh (Formula α) := do
  let guard ← guard.mapM fun g => return (← Fresh.identity, g)
  ofShape (.solver { body, bound, low, high, precision, guard })

/-- The same operation as `e` over other children, rebuilt as a simple node; `e`
itself where it has no such children. -/
def rebuild (e : Formula α) (children : List (Formula α)) : Fresh (Formula α) :=
  match e.shape.withChildren? children with
  | some shape => ofShape shape
  | none => pure e

end Formula

end FormulaGraph
