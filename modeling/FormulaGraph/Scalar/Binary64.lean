import FormulaGraph.Scalar
import FormulaGraph.CosineIntegral
import FormulaGraph.Decimal.Positional

/-!
# Formulas over 64-bit binary numbers

The instance the library runs on.  Halving a bracket of binary numbers ends
because there are finitely many of them between its ends: `rank` numbers them
in increasing order, and the difference of two ranks bounds the halvings.
-/

namespace FormulaGraph

namespace Binary64

/-- Position of a number in increasing order, the two zeros sharing one. -/
def rank (x : Float) : Int :=
  let n := x.toBits.toNat
  if n < Nat.pow 2 63 then n else -((n - Nat.pow 2 63 : Nat) : Int)

/-- Halvings a bracket allows: one for each number inside it, and one that
may meet an undefined midpoint. -/
def halvings (lo hi : Float) : Nat :=
  (rank hi - rank lo).toNat + 1

end Binary64

/-- The machine's arithmetic, with the functions of its library. -/
instance : Scalar Float where
  zero := 0.0
  one := 1.0
  nan := 0.0 / 0.0
  isNaN := Float.isNaN
  less a b := decide (a < b)
  atMost a b := decide (a ≤ b)
  abs := Float.abs
  sqrt := Float.sqrt
  exp := Float.exp
  ln := Float.log
  sin := Float.sin
  cos := Float.cos
  atan := Float.atan
  acos := Float.acos
  atan2 := Float.atan2
  cosineIntegral := CosineIntegral.cosineIntegral
  sineIntegral := CosineIntegral.sineIntegral
  ofNat := Nat.toFloat
  floorNat x := x.toUInt64.toNat
  halvings lo hi _ := Binary64.halvings lo hi

/-- Numbers are written in full, with the fewest digits that read back. -/
instance : ScalarText Float where
  text := Decimal.textOfFloat

end FormulaGraph
