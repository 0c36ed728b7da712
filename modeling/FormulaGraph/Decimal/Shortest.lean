/-!
# The shortest decimal that reads back

A binary number stands for an interval of reals: those that round to it.  Of
the decimals in that interval we want one with the fewest significant digits,
and of these the one nearest to the number itself.

The number is given exactly, as `m · 2^q`, together with the width of its
interval below.  On the grid of multiples of `10^k` only the two neighbours of
the number matter: if any grid point lies in the interval, one of the two
does.  So the grids are tried from coarse to fine, and the first that has a
neighbour inside wins.  All comparisons are between natural numbers, after
both sides have been multiplied by the same powers of two and ten.
-/

namespace FormulaGraph.Decimal

/-- A positive number `m · 2^q`.  The reals that round to it reach up by half
a unit of `m`, and down by half a unit, or by a quarter where the numbers
below are twice as dense; the two ends belong to it when `m` is even. -/
structure Binary where
  m : Nat
  q : Int
  denseBelow : Bool

/-- The decimal `digits · 10^exponent`. -/
structure Digits where
  digits : Nat
  exponent : Int
deriving DecidableEq

/-- A binary number and a decimal grid on one natural scale: multiples of
`grid` are the grid points, `value` is the number, `low` and `high` are the
ends of its interval, which belong to it when `closed`. -/
structure Scaled where
  grid : Nat
  low : Nat
  value : Nat
  high : Nat
  closed : Bool

/-- Puts the number and the grid of multiples of `10^k` on one scale. -/
def Binary.scaled (b : Binary) (k : Int) : Scaled :=
  -- quarter units of `m`, so that both ends are whole
  let q := b.q - 2
  let grid := Nat.pow 10 k.toNat * Nat.pow 2 (-q).toNat
  let unit := Nat.pow 2 q.toNat * Nat.pow 10 (-k).toNat
  { grid
    low := (4 * b.m - if b.denseBelow then 1 else 2) * unit
    value := 4 * b.m * unit
    high := (4 * b.m + 2) * unit
    closed := b.m % 2 == 0 }

/-- Whether the point rounds to the number. -/
def Scaled.contains (s : Scaled) (point : Nat) : Bool :=
  if s.closed then s.low ≤ point && point ≤ s.high
  else s.low < point && point < s.high

/-- The grid neighbour that rounds to the number, the nearer one if both do,
the upper one if both are equally near. -/
def Scaled.neighbour? (s : Scaled) : Option Nat :=
  let below := s.value / s.grid
  let above := below + 1
  let belowIn := s.contains (below * s.grid)
  let aboveIn := s.contains (above * s.grid)
  if belowIn && aboveIn then
    if s.value - below * s.grid < above * s.grid - s.value then some below else some above
  else if belowIn then some below
  else if aboveIn then some above
  else none

/-- Drops zeros at the end of the digits. -/
def Digits.trim : Nat → Digits → Digits
  | 0, d => d
  | n + 1, d =>
    if d.digits % 10 == 0 then Digits.trim n ⟨d.digits / 10, d.exponent + 1⟩ else d

/-- Tries the grids `10^k`, `10^(k-1)`, … in turn. -/
def Binary.search (b : Binary) : Nat → Int → Digits
  | 0, k => ⟨(b.scaled k).value / (b.scaled k).grid, k⟩
  | n + 1, k =>
    match (b.scaled k).neighbour? with
    | some d => if d == 0 then b.search n (k - 1) else Digits.trim 20 ⟨d, k⟩
    | none => b.search n (k - 1)

/-- Number of decimal digits. -/
def digitCount (n : Nat) : Nat := (Nat.toDigits 10 n).length

/-- An exponent at which the grid is at least as coarse as the number is
large. -/
def Binary.coarse (b : Binary) : Int :=
  let num := b.m * Nat.pow 2 b.q.toNat
  let den := Nat.pow 2 (-b.q).toNat
  if den ≤ num then digitCount (num / den)
  else 2 - (digitCount (den / num) : Int)

/-- The shortest decimal that reads back as the number. -/
def Binary.shortest (b : Binary) : Digits :=
  b.search 20 b.coarse

end FormulaGraph.Decimal
