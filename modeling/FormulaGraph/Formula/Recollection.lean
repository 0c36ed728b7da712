import FormulaGraph.Formula.Basic
import Std.Data.HashMap
import Std.Data.HashSet

/-!
# Remembered derivatives

Derivatives are remembered for every node and variable, so that asking again
gives the same node.  Most are **kept** with the node they were taken of, for as
long as there is that node.  A derivative that is made from the node itself, as
those of exponentials, roots, lengths and solvers are, is **transient**: it is
remembered only while something in use refers to it.

In use is what can be reached from the formulas that are held, by going from a
node to what it refers to (its children, the variable of a solver, the formula
of a guard, the derivative of a table) and to the derivatives kept with it.

A kept derivative may lead back to its own node.  The derivative of a root `r`
is a quotient `q` over `r`; the derivative of `q` is kept with `q`, and it
refers to the derivative of `r`, which is `q` again.  From then on `q` and its
derivative hold each other, whatever else is held: such a *knot* stays in use
for good, and so does all that it leads to.

A knot is tied at the moment a derivative is kept, so that is where knots are
looked for.  A derivative built out of what its node refers to, and out of
derivatives built in the same go, leads only where the node leads; a new knot
takes a transient derivative from before, and the search is left out while none
has been recalled.
-/

namespace FormulaGraph

/-- Where a search along references has been: the nodes met, and the
derivatives kept with them, which are still ahead. -/
structure Trail (α : Type) where
  met : Std.HashSet NodeId
  ahead : List (Formula α)

namespace Formula

variable {α : Type}

mutual

/-- Whether the references below a formula lead to the node `goal`.  Nodes met
before are passed over, and what is kept with a node met now is put ahead. -/
def leadsTo (keptWith : NodeId → List (Formula α)) (goal : NodeId) :
    Formula α → StateM (Trail α) Bool
  | node id shape => do
    if id = goal then
      return true
    else if ← modifyGet fun trail =>
        let (known, met) := trail.met.containsThenInsert id
        (known, ⟨met, if known then trail.ahead else keptWith id ++ trail.ahead⟩) then
      return false
    else
      shapeLeadsTo keptWith goal shape

def shapeLeadsTo (keptWith : NodeId → List (Formula α)) (goal : NodeId) :
    Shape α (Formula α) → StateM (Trail α) Bool
  | .const _ | .var _ => pure false
  | .unary _ a => leadsTo keptWith goal a
  | .binary _ a b => leadsTo keptWith goal a <||> leadsTo keptWith goal b
  | .assoc _ args => anyLeadsTo keptWith goal args
  | .conditional _ c a b =>
    leadsTo keptWith goal c <||> leadsTo keptWith goal a <||> leadsTo keptWith goal b
  | .tabulated _ ⟨_, _, _, _, derivative, _⟩ a =>
    optionLeadsTo keptWith goal derivative <||> leadsTo keptWith goal a
  | .solver ⟨body, bound, low, high, precision, guard⟩ =>
    pure (bound.id = goal) <||> leadsTo keptWith goal body <||> leadsTo keptWith goal low <||>
      leadsTo keptWith goal high <||> leadsTo keptWith goal precision <||>
      guardLeadsTo keptWith goal guard

/-- Whether one of several formulas leads to the node. -/
def anyLeadsTo (keptWith : NodeId → List (Formula α)) (goal : NodeId) :
    List (Formula α) → StateM (Trail α) Bool
  | [] => pure false
  | e :: es => leadsTo keptWith goal e <||> anyLeadsTo keptWith goal es

def optionLeadsTo (keptWith : NodeId → List (Formula α)) (goal : NodeId) :
    Option (Formula α) → StateM (Trail α) Bool
  | none => pure false
  | some e => leadsTo keptWith goal e

def guardLeadsTo (keptWith : NodeId → List (Formula α)) (goal : NodeId) :
    Option (NodeId × Guard α (Formula α)) → StateM (Trail α) Bool
  | some (_, .positive e) => leadsTo keptWith goal e
  | _ => pure false

end

end Formula

/-- Remembered derivatives, and what decides which of them are in use. -/
structure Recollection (α : Type) where
  /-- The derivatives kept with a node, by variable. -/
  kept : Std.HashMap NodeId (List (NodeId × Formula α))
  /-- The derivatives remembered while in use, by node and variable. -/
  transient : Std.HashMap (NodeId × NodeId) (Formula α)
  held : List (Formula α)
  /-- Kept derivatives that lead back to their nodes. -/
  knots : List (Formula α)
  /-- The first identity free when the last derivative asked for was begun. -/
  since : NodeId
  /-- Whether a transient derivative from before then was recalled. -/
  recalledEarlier : Bool

namespace Recollection

variable {α : Type}

def empty : Recollection α := ⟨∅, ∅, [], [], 0, false⟩

/-- The derivatives kept with a node, by variable. -/
def keptWith (r : Recollection α) (id : NodeId) : List (NodeId × Formula α) :=
  r.kept.getD id []

/-- Goes on to what is ahead until the goal is met, nothing is ahead or `rounds`
have passed. -/
def searchAhead (r : Recollection α) (goal : NodeId) :
    (rounds : Nat) → StateM (Trail α) Bool
  | 0 => pure false
  | rounds + 1 => do
    let ahead := (← get).ahead
    if ahead.isEmpty then
      return false
    else
      modify fun trail => { trail with ahead := [] }
      Formula.anyLeadsTo (fun id => (r.keptWith id).map (·.2)) goal ahead <||>
        searchAhead r goal rounds

/-- Whether some of the given formulas lead to the node `goal`.  Every round
after the first begins with a node, met for the first time, that has something
kept with it. -/
def reaches (r : Recollection α) (start : List (Formula α)) (goal : NodeId) : Bool :=
  ((r.searchAhead goal (r.kept.size + 1)).run ⟨∅, start⟩).1

/-- Whether a node is in use.  The shared zero and one always are. -/
def isInUse (r : Recollection α) (id : NodeId) : Bool :=
  id < Formula.firstFree || r.reaches (r.held ++ r.knots) id

/-- Begins to take a derivative, when `next` is the first free identity. -/
def startAt (r : Recollection α) (next : NodeId) : Recollection α :=
  { r with since := next, recalledEarlier := false }

/-- The derivative of a node with respect to the variable `x`, if it is
remembered still. -/
def remembered? (id x : NodeId) : StateM (Recollection α) (Option (Formula α)) := fun r =>
  match (r.keptWith id).lookup x, r.transient[(id, x)]? with
  | some d, _ => (some d, r)
  | none, some d =>
    if r.isInUse d.id then
      (some d, { r with recalledEarlier := r.recalledEarlier || d.id < r.since })
    else
      (none, r)
  | none, none => (none, r)

/-- Keeps a derivative with its node. -/
def keep (r : Recollection α) (id x : NodeId) (d : Formula α) : Recollection α :=
  let r := { r with kept := r.kept.insert id ((x, d) :: r.keptWith id) }
  if r.recalledEarlier && r.reaches [d] id then { r with knots := d :: r.knots } else r

/-- Remembers a derivative while it is in use. -/
def keepWhileInUse (r : Recollection α) (id x : NodeId) (d : Formula α) : Recollection α :=
  { r with transient := r.transient.insert (id, x) d }

end Recollection

end FormulaGraph
