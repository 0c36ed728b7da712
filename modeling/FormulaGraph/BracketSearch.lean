import FormulaGraph.Scalar

/-!
# Bracket search

Looks for the point where a condition on numbers switches from false to true.

1. If the condition holds at the lower bound already, there is no answer.
2. While it fails at the upper bound, the bracket moves up to start there and
   its upper bound doubles, a limited number of times.
3. The bracket is halved until it is no wider than the precision, or until its
   midpoint is one of its ends.
4. One secant step through the values of a function at the two ends, kept
   inside the bracket, gives the answer.

The condition and the function may have effects: both are asked in a monad,
and the order in which they are asked is the one above.
-/

namespace FormulaGraph

/-- How many times the upper bound may be doubled before the search gives up. -/
def maxDoublings : Nat := 10

/-- What a search found and how much work it took; `root` is undefined when no
bracket was found. -/
structure SearchResult (α : Type) where
  root : α
  doublings : Nat
  bisections : Nat

/-- Two numbers between which the condition switches. -/
structure Bracket (α : Type) where
  low : α
  high : α

namespace BracketSearch

variable {α : Type} [Scalar α] {m : Type → Type} [Monad m]

/-- Moves the bracket up until the condition holds at its upper bound, asking
at most `left` times.  The number of moves made is returned with it. -/
def expand (past : α → m Bool) : (left : Nat) → Bracket α → (doublings : Nat) →
    m (Option (Bracket α) × Nat)
  | 0, _, doublings => pure (none, doublings)
  | left + 1, b, doublings => do
    if ← past b.high then
      return (some b, doublings)
    else
      expand past left ⟨b.high, b.high * Scalar.two⟩ (doublings + 1)

/-- Halves the bracket at most `left` times. -/
def bisect (past : α → m Bool) (precision : α) : (left : Nat) → Bracket α →
    (bisections : Nat) → m (Bracket α × Nat)
  | 0, b, bisections => pure (b, bisections)
  | left + 1, b, bisections => do
    if Scalar.less precision (b.high - b.low) then
      let mid := (b.low + b.high) / Scalar.two
      -- a bracket of two neighbouring numbers has no midpoint of its own
      if Scalar.atMost mid b.low || Scalar.atMost b.high mid then
        return (b, bisections)
      else if ← past mid then
        bisect past precision left ⟨b.low, mid⟩ (bisections + 1)
      else
        bisect past precision left ⟨mid, b.high⟩ (bisections + 1)
    else
      return (b, bisections)

/-- Where the line through the two end values crosses zero, kept inside the
bracket; the midpoint when the end values are equal. -/
def secant (b : Bracket α) (atLow atHigh : α) : α :=
  if atLow == atHigh then (b.low + b.high) / Scalar.two
  else
    let crossing := b.low - (b.high - b.low) * atLow / (atHigh - atLow)
    Scalar.larger b.low (Scalar.smaller b.high crossing)

/-- The search between `low` and `high`, with its work counters. -/
def run (low high precision : α) (past : α → m Bool) (value : α → m α) :
    m (SearchResult α) := do
  if ← past low then
    return ⟨Scalar.nan, 0, 0⟩
  else
    match ← expand past maxDoublings ⟨low, high⟩ 0 with
    | (none, doublings) => return ⟨Scalar.nan, doublings, 0⟩
    | (some b, doublings) =>
      let (b, bisections) ← bisect past precision (Scalar.halvings b.low b.high precision) b 0
      let atLow ← value b.low
      let atHigh ← value b.high
      return ⟨secant b atLow atHigh, doublings, bisections⟩

end BracketSearch

end FormulaGraph
