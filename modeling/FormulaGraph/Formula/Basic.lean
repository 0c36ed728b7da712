import FormulaGraph.Operation
import FormulaGraph.Table

/-!
# Formulas as shared graphs

A formula is a node with an identity and a shape, and a shape refers to other
formulas.  Nodes never change, so a graph with shared parts is the same value
as the tree it unfolds to, in which shared parts carry equal identities:
**the identity of a node is its number, not its place**.  Two formulas are the
same node when their numbers agree, and every pass that should treat a shared
part once keeps a table keyed by these numbers.

Whatever may change over time (the values of variables, computed values,
labels, remembered derivatives) is kept elsewhere, under the identity of the
node it belongs to.
-/

namespace FormulaGraph

/-- The number that makes a node this node and no other. -/
abbrev NodeId := Nat

/-- A variable: its identity and the name it is shown with.  Its value is kept
in a `Store`, so that different variables may share a name. -/
structure Variable where
  id : NodeId
  name : String
deriving DecidableEq, Repr

/-- An extra condition on the trial values of a solver: any test of the value itself,
or one that evaluates a formula. -/
inductive Guard (α ε : Type) where
  | custom (holds : α → Bool)
  /-- The formula is positive at the trial value. -/
  | positive (formula : ε)

namespace Guard

variable {α ε : Type}

/-- Only values above the limit are admitted. -/
def above [Scalar α] (limit : α) : Guard α ε := custom (Scalar.less limit)

/-- Only values from the limit on are admitted. -/
def atLeast [Scalar α] (limit : α) : Guard α ε := custom (Scalar.atMost limit)

/-- Only values below the limit are admitted. -/
def below [Scalar α] (limit : α) : Guard α ε := custom fun x => Scalar.less x limit

/-- All values are admitted, or none. -/
def always (answer : Bool) : Guard α ε := custom fun _ => answer

end Guard

/-- The value of `bound`, searched upwards from the bracket between `low` and
`high`, at which `body` turns negative.  Trial values must also satisfy the
guard, if there is one; the guard carries an identity of its own. -/
structure Solver (α ε : Type) where
  body : ε
  bound : Variable
  low : ε
  high : ε
  precision : ε
  guard : Option (NodeId × Guard α ε)

/-- What a node is, apart from its identity: a leaf, or an operation over the
formulas it refers to.  A table carries an identity, kept by all nodes that
share it. -/
inductive Shape (α ε : Type) where
  | const (value : α)
  | var (name : String)
  | unary (op : UnaryOp) (arg : ε)
  | binary (op : BinaryOp) (left right : ε)
  | assoc (op : AssocOp) (args : List ε)
  | conditional (op : ConditionalOp) (condition first second : ε)
  | tabulated (mark : NodeId) (table : Table α ε) (arg : ε)
  | solver (solver : Solver α ε)

/-- A formula: a node with its identity. -/
inductive Formula (α : Type) where
  | node (id : NodeId) (shape : Shape α (Formula α))

namespace Solver

variable {α ε : Type}

/-- The formulas a solver is computed from.  The bound variable is not among
them: it is written by the search, not read from outside. -/
def children (s : Solver α ε) : List ε := [s.body, s.low, s.high, s.precision]

end Solver

namespace Shape

variable {α ε : Type}

/-- The formulas a node of this shape is computed from, in order. -/
def children : Shape α ε → List ε
  | const _ | var _ => []
  | unary _ a => [a]
  | binary _ a b => [a, b]
  | assoc _ args => args
  | conditional _ c a b => [c, a, b]
  | tabulated _ _ a => [a]
  | solver s => s.children

/-- The same shape over other children; none for a leaf, and none when the
number of children does not fit. -/
def withChildren? : Shape α ε → List ε → Option (Shape α ε)
  | unary op _, [a] => some (unary op a)
  | binary op _ _, [a, b] => some (binary op a b)
  | assoc op _, args => some (assoc op args)
  | conditional op _ _ _, [c, a, b] => some (conditional op c a b)
  | tabulated mark t _, [a] => some (tabulated mark t a)
  | solver s, [body, low, high, precision] =>
    some (solver { s with body, low, high, precision })
  | _, _ => none

def priority [Scalar α] : Shape α ε → Priority
  | const v => if Scalar.atMost 0 v then .single else .add
  | var _ => .single
  | unary op _ => op.priority
  | binary op _ _ => op.priority
  | assoc op _ => op.priority
  | conditional .. | tabulated .. | solver _ => .function

end Shape

/-- Computations that draw unused identities, smallest first. -/
abbrev Fresh := StateM NodeId

/-- An identity not used before. -/
def Fresh.identity : Fresh NodeId := fun next => (next, next + 1)

namespace Formula

variable {α : Type}

def id : Formula α → NodeId
  | node id _ => id

def shape : Formula α → Shape α (Formula α)
  | node _ shape => shape

def children (e : Formula α) : List (Formula α) := e.shape.children

def priority [Scalar α] (e : Formula α) : Priority := e.shape.priority

/-- Whether two formulas are one node. -/
def same (a b : Formula α) : Bool := a.id == b.id

/-- Whether two lists hold the same nodes in the same places. -/
def sameAll : List (Formula α) → List (Formula α) → Bool
  | [], [] => true
  | a :: as, b :: bs => a.same b && sameAll as bs
  | _, _ => false

def asConstant : Formula α → Option α
  | node _ (.const v) => some v
  | _ => none

def isConstant (e : Formula α) : Bool := e.asConstant.isSome

/-- Whether the formula is a constant equal to `v`, as numbers compare. -/
def isConstantValue [Scalar α] (e : Formula α) (v : α) : Bool :=
  match e.asConstant with
  | some c => c == v
  | none => false

def asVariable : Formula α → Option Variable
  | node id (.var name) => some ⟨id, name⟩
  | _ => none

def isVariable (e : Formula α) : Bool := e.asVariable.isSome

/-- A new node, of the given shape as it stands. -/
def new (shape : Shape α (Formula α)) : Fresh (Formula α) := do
  return node (← Fresh.identity) shape

def constant (v : α) : Fresh (Formula α) := new (.const v)

/-- The zero shared by all formulas. -/
def zero [Scalar α] : Formula α := node 0 (.const 0)

/-- The one shared by all formulas. -/
def one [Scalar α] : Formula α := node 1 (.const 1)

/-- The first identity that is free: zero and one have the ones before. -/
def firstFree : NodeId := 2

end Formula

/-- The leaf that stands for a variable in formulas. -/
def Variable.formula {α : Type} (v : Variable) : Formula α := .node v.id (.var v.name)

end FormulaGraph
