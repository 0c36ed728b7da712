import FormulaGraph.Formula.Basic
import Std.Data.HashMap

/-!
# The store: values of variables and computed values

Every node has one slot for its last computed value, together with the
generation it was computed for.  A generation is one pass of evaluation: all
values with its number belong together, and drawing a new number makes every
slot out of date at once, without touching any of them.

Generation numbers start at one and are never drawn twice.  Number zero is the
pass that trusts no slot.
-/

namespace FormulaGraph

/-- The number of an evaluation pass. -/
abbrev Generation := Nat

/-- The last computed value of a node, the pass it was computed in, and how
often the node was computed. -/
structure Slot (α : Type) where
  generation : Generation
  value : α
  recomputations : Nat

namespace Slot

variable {α : Type}

/-- A slot never filled. -/
def empty [Scalar α] : Slot α := ⟨0, 0, 0⟩

/-- Whether the slot can be read in a pass. -/
def holds (s : Slot α) (g : Generation) : Bool := s.generation == g && g != 0

/-- The slot after a computation in a pass. -/
def fill (s : Slot α) (g : Generation) (value : α) : Slot α :=
  ⟨g, value, s.recomputations + 1⟩

/-- The value for a pass, computed only if the slot cannot be read, and the
slot afterwards. -/
def getOrCompute (s : Slot α) (g : Generation) (compute : Unit → α) : α × Slot α :=
  if s.holds g then (s.value, s)
  else
    let s := s.fill g (compute ())
    (s.value, s)

end Slot

/-- Values of the variables and slots of the nodes, and the number of the last
pass begun. -/
structure Store (α : Type) where
  generation : Generation
  values : Std.HashMap NodeId α
  slots : Std.HashMap NodeId (Slot α)

namespace Store

variable {α : Type} [Scalar α]

def empty : Store α := ⟨0, ∅, ∅⟩

/-- The value of a variable; zero as long as it was given none. -/
def read (s : Store α) (v : NodeId) : α := s.values.getD v 0

def write (s : Store α) (v : NodeId) (x : α) : Store α :=
  { s with values := s.values.insert v x }

/-- The slot of a node; empty as long as it was not computed. -/
def slot (s : Store α) (id : NodeId) : Slot α := s.slots.getD id Slot.empty

/-- Puts a value computed in a pass into the slot of a node. -/
def fill (s : Store α) (id : NodeId) (g : Generation) (value : α) : Store α :=
  { s with slots := s.slots.insert id ((s.slot id).fill g value) }

end Store

/-- Computations on a store. -/
abbrev Evaluation (α : Type) := StateM (Store α)

namespace Evaluation

variable {α : Type} [Scalar α]

/-- Begins a pass. -/
def nextGeneration : Evaluation α Generation :=
  modifyGet fun s => (s.generation + 1, { s with generation := s.generation + 1 })

def read (v : NodeId) : Evaluation α α := do
  return (← get).read v

def write (v : NodeId) (x : α) : Evaluation α Unit :=
  modify fun s => s.write v x

end Evaluation

end FormulaGraph
