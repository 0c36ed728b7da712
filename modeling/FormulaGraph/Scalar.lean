/-!
# The arithmetic a formula is read over

A formula is built, simplified, differentiated and solved without ever
looking inside its numbers.  Everything it needs of them is listed here: the
four operations, a handful of real functions, the comparisons (which may all
be false, as they are against an undefined value), and the choices that keep
partial functions total.

One instance is the machine's binary numbers (`Scalar.Binary64`).  A theorem
that holds for every instance holds bit for bit on the machine; a theorem
about real numbers is stated at an instance that adds one undefined value.
-/

namespace FormulaGraph

/-- Numbers, with comparisons that answer `true` or `false` for every pair
and one value `nan` standing for "undefined". -/
class Scalar (α : Type) extends Zero α, One α, Add α, Sub α, Mul α, Div α, Neg α, BEq α where
  /-- The undefined value. -/
  nan : α
  isNaN : α → Bool
  /-- Strict order; false when a side is undefined. -/
  less : α → α → Bool
  /-- Weak order; false when a side is undefined. -/
  atMost : α → α → Bool
  abs : α → α
  sqrt : α → α
  exp : α → α
  ln : α → α
  sin : α → α
  cos : α → α
  atan : α → α
  acos : α → α
  /-- `atan2 y x` is the angle of the point `(x, y)`. -/
  atan2 : α → α → α
  cosineIntegral : α → α
  sineIntegral : α → α
  ofNat : Nat → α
  /-- The greatest natural number not above a positive number, as far as
  word-sized naturals reach; zero for the undefined value. -/
  floorNat : α → Nat
  /-- A number of halvings after which a bracket can be halved no further, or
  is no wider than the third argument. -/
  halvings : α → α → α → Nat

namespace Scalar

variable {α : Type} [Scalar α]

def two : α := ofNat 2

def half : α := 1 / two

/-- The zero that leaves every number unchanged when added to it. -/
def negativeZero : α := -0

/-- The greater of two numbers; an undefined side gives way to the other. -/
def larger (a b : α) : α :=
  if less a b then b else if isNaN a then b else a

/-- The smaller of two numbers; an undefined side gives way to the other. -/
def smaller (a b : α) : α :=
  if less b a then b else if isNaN a then b else a

/-- Natural logarithm, undefined unless its argument is positive. -/
def log (v : α) : α :=
  if isNaN v || atMost v 0 then nan else ln v

/-- Division in which a zero on either side gives zero. -/
def safeDiv (a b : α) : α :=
  if a == 0 || b == 0 then 0 else a / b

/-- Sum from left to right, starting from the neutral zero. -/
def sum (vs : List α) : α :=
  vs.foldl (· + ·) negativeZero

/-- Product from left to right that stops at the first zero it reaches, so
that whatever follows a zero does not count. -/
def productUntilZero (acc : α) : List α → α
  | [] => acc
  | v :: vs =>
    let next := acc * v
    if next == 0 then next else productUntilZero next vs

/-- Product of all numbers from left to right. -/
def product (vs : List α) : α :=
  vs.foldl (· * ·) 1

/-- Euclidean length of a vector. -/
def hypot (vs : List α) : α :=
  sqrt (sum (vs.map fun v => v * v))

end Scalar

/-- Numbers that can be written down as text. -/
class ScalarText (α : Type) where
  text : α → String

end FormulaGraph
