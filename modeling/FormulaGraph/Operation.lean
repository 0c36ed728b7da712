import FormulaGraph.Scalar

/-!
# The operations of formulas

The operations come in four families by the number of their arguments: one,
two in a fixed order, any number, and the conditionals of three.  For each
there is its value on numbers, the word it is written with, and its place
among the rendering priorities.
-/

namespace FormulaGraph

/-- How tightly a rendered formula holds together, from loosest to tightest.
A part is put in parentheses unless it holds together more tightly than the
place it stands in. -/
inductive Priority where
  | add
  | multiply
  | function
  | single
deriving DecidableEq, Repr

namespace Priority

/-- How tightly an operation binds. -/
def rank : Priority → Nat
  | add => 0
  | multiply => 1
  | function => 2
  | single => 3

/-- Whether a part of priority `own` needs parentheses in a place of priority
`place`. -/
def encloses (place own : Priority) : Bool := own.rank ≤ place.rank

end Priority

/-- Operations on one argument. -/
inductive UnaryOp where
  | negate
  | square
  | sqrt
  | exp
  | log
  | sin
  | cos
  | atan
  | acos
  | cosineIntegral
  | sineIntegral
deriving DecidableEq, Repr

/-- Operations on two arguments. -/
inductive BinaryOp where
  | subtract
  | divide
  | atan2
  | max
  | min
deriving DecidableEq, Repr

/-- Operations on any number of arguments. -/
inductive AssocOp where
  | add
  | multiply
  | hypot
deriving DecidableEq, Repr

/-- Choices between two branches by a condition. -/
inductive ConditionalOp where
  /-- The first branch when the condition is zero. -/
  | coalesce
  /-- The first branch when the condition is positive. -/
  | ifPositive
deriving DecidableEq, Repr

variable {α : Type} [Scalar α]

namespace UnaryOp

/-- What the operation makes of a number. -/
def apply : UnaryOp → α → α
  | negate, v => -v
  | square, v => v * v
  | sqrt, v => Scalar.sqrt v
  | exp, v => Scalar.exp v
  | log, v => Scalar.log v
  | sin, v => Scalar.sin v
  | cos, v => Scalar.cos v
  | atan, v => Scalar.atan v
  | acos, v => Scalar.acos v
  | cosineIntegral, v => Scalar.cosineIntegral v
  | sineIntegral, v => Scalar.sineIntegral v

/-- The name under which the function is written. -/
def name : UnaryOp → String
  | negate => "neg"
  | square => "sqr"
  | sqrt => "sqrt"
  | exp => "exp"
  | log => "log"
  | sin => "sin"
  | cos => "cos"
  | atan => "atan"
  | acos => "acos"
  | cosineIntegral => "Ci"
  | sineIntegral => "Si"

/-- How tightly the written form binds. -/
def priority : UnaryOp → Priority
  | negate => .add
  | _ => .function

end UnaryOp

namespace BinaryOp

/-- What the operation makes of two numbers; quotients are safe. -/
def apply : BinaryOp → α → α → α
  | subtract, a, b => a - b
  | divide, a, b => Scalar.safeDiv a b
  | atan2, a, b => Scalar.atan2 a b
  | max, a, b => Scalar.larger a b
  | min, a, b => Scalar.smaller a b

/-- The sign between the operands, or the name of the function. -/
def name : BinaryOp → String
  | subtract => "-"
  | divide => "/"
  | atan2 => "atan2"
  | max => "max"
  | min => "min"

/-- How tightly the written form binds. -/
def priority : BinaryOp → Priority
  | subtract => .add
  | divide => .multiply
  | _ => .function

end BinaryOp

namespace AssocOp

/-- Value on all arguments.  A product stops counting at its first zero. -/
def apply : AssocOp → List α → α
  | add, vs => Scalar.sum vs
  | multiply, vs => Scalar.productUntilZero 1 vs
  | hypot, vs => Scalar.hypot vs

/-- How tightly the written form binds. -/
def priority : AssocOp → Priority
  | add => .add
  | multiply => .multiply
  | hypot => .function

end AssocOp

namespace ConditionalOp

/-- Whether the first alternative is selected. -/
def selectsFirst : ConditionalOp → α → Bool
  | coalesce, c => c == 0
  | ifPositive, c => Scalar.less 0 c

/-- The sign that relates zero to the condition when rendered. -/
def relation : ConditionalOp → String
  | coalesce => "="
  | ifPositive => "<"

end ConditionalOp

end FormulaGraph
