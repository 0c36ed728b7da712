import FormulaGraph.Fault
import FormulaGraph.Formula.Evaluation
import FormulaGraph.Formula.Derivative
import FormulaGraph.Formula.Sharing
import FormulaGraph.Text.Blank

/-!
# Working with formulas

A session holds everything that changes while formulas are built and used: the
identities given out, the store of values, the labels of nodes and the
remembered derivatives.  An action may change the session and may be refused;
what it changed before it was refused stays changed.

The computations that need only a part of the session are used as actions
without further ado.
-/

namespace FormulaGraph

/-- What changes while formulas are built and used. -/
structure Session (α : Type) where
  nextId : NodeId
  store : Store α
  labels : Std.HashMap NodeId String
  recollection : Recollection α

namespace Session

variable {α : Type}

def start : Session α := ⟨Formula.firstFree, Store.empty, ∅, Recollection.empty⟩

/-- The labels as they are now. -/
def labelling (s : Session α) : Labels := fun id => s.labels[id]?

end Session

/-- What can be done in a session. -/
abbrev Action (α : Type) := ExceptT (Fault α) (StateM (Session α))

variable {α : Type}

instance : MonadLift Fresh (StateM (Session α)) where
  monadLift x := fun s =>
    let (a, nextId) := x s.nextId
    (a, { s with nextId })

instance : MonadLift (Evaluation α) (StateM (Session α)) where
  monadLift x := fun s =>
    let (a, store) := x s.store
    (a, { s with store })

instance : MonadLift (Differentiation α) (StateM (Session α)) where
  monadLift x := fun s =>
    let ((a, recollection), nextId) := x s.recollection s.nextId
    (a, { s with recollection, nextId })

instance : MonadLift (Except (Fault α)) (Action α) where
  monadLift x := ExceptT.mk (pure x)

namespace Session

/-- Tells what is held from now on.  A derivative taken later is held as well,
until this is told anew. -/
def hold (held : List (Formula α)) : Action α Unit :=
  modify fun s => { s with recollection := { s.recollection with held } }

/-- Acts, and at the end holds what was held before, also when the action is
refused. -/
def briefly {β : Type} (x : Action α β) : Action α β := ExceptT.mk do
  let held := (← get).recollection.held
  let result ← x.run
  modify fun s => { s with recollection := { s.recollection with held } }
  return result

end Session

namespace Variable

/-- The value of a variable. -/
def get [Scalar α] (v : Variable) : Action α α :=
  (Evaluation.read v.id : Evaluation α α)

/-- Gives a variable a value. -/
def set [Scalar α] (v : Variable) (x : α) : Action α Unit :=
  (Evaluation.write v.id x : Evaluation α Unit)

end Variable

namespace Formula

/-- The variable a formula is, or the given fault. -/
def toVariable (fault : Formula α → Fault α) (e : Formula α) : Except (Fault α) Variable :=
  match e.asVariable with
  | some v => .ok v
  | none => .error (fault e)

/-- The value of a formula that is a variable. -/
def getValue [Scalar α] (e : Formula α) : Action α α := do
  (← e.toVariable .expectedVariable).get

/-- Gives a formula that is a variable a value. -/
def setValue [Scalar α] (e : Formula α) (x : α) : Action α Unit := do
  (← e.toVariable .expectedVariable).set x

/-- The label of a node. -/
def label (e : Formula α) : Action α (Option String) := do
  return (← get).labels[e.id]?

/-- Gives a node a label, or takes it away.  The shared zero and one appear in
unrelated formulas and stay without. -/
def setLabel (e : Formula α) (text : Option String) : Action α Unit :=
  if e.id < firstFree then pure ()
  else
    modify fun s =>
      match text with
      | some t => { s with labels := s.labels.insert e.id t }
      | none => { s with labels := s.labels.erase e.id }

/-- The derivative with respect to a formula that is a variable. -/
def derivativeBy [Scalar α] (e x : Formula α) : Action α (Formula α) := do
  let v ← x.toVariable .derivativeVariable
  e.differentiate v.id

/-- The derivatives with respect to several variables. -/
def gradient [Scalar α] (e : Formula α) (xs : List (Formula α)) :
    Action α (List (Formula α)) :=
  xs.mapM e.derivativeBy

/-- The solver node that binds a formula that is a variable. -/
def solveFor [Scalar α] (body bound low high precision : Formula α)
    (guard : Option (Guard α (Formula α))) : Action α (Formula α) := do
  let v ← bound.toVariable .boundVariable
  solve body v low high precision guard

/-- The same operation over other children, as it stands. -/
def withChildren (e : Formula α) (children : List (Formula α)) : Action α (Formula α) := do
  match e.shape with
  | .const _ | .var _ => throw .leaf
  | shape =>
    match shape.withChildren? children with
    | some shape => new shape
    | none => throw (.childCount shape.children.length children.length)

/-- The formula with all but the excluded variables frozen at their values of
now. -/
def freezeNow [Scalar α] (excluded : List NodeId) (e : Formula α) : Action α (Formula α) := do
  let store := (← get).store
  e.freeze store.read excluded

/-- Compares the derivative with central differences at the given points.
Answers the greatest difference and whether it is below the tolerance; the
variable gets its value back.  The comparison ends at the first point where the
difference is undefined. -/
def compareWithDifferences [Scalar α] (e : Formula α) (x : Variable) (points : List α)
    (step tolerance : α) : Action α (α × Bool) := Session.briefly do
  let derivative ← e.differentiate x.id
  let saved ← x.get
  let worst ← compareFrom derivative points 0
  x.set saved
  return (worst, Scalar.less worst tolerance)
where
  /-- The greatest difference over the points, starting from `worst`. -/
  compareFrom (derivative : Formula α) (points : List α) (worst : α) : Action α α := do
    match points with
    | [] => return worst
    | p :: points =>
      x.set (p + step)
      let forward ← e.evaluate
      x.set (p - step)
      let backward ← e.evaluate
      x.set p
      let exact ← derivative.evaluate
      let numeric := (forward - backward) / (Scalar.two * step)
      let difference := Scalar.abs (exact - numeric)
      if Scalar.isNaN difference then
        return Scalar.nan
      else
        compareFrom derivative points (Scalar.larger worst difference)

end Formula

namespace Session

/-- A new variable holding a value. -/
def newVariable [Scalar α] (name : String) (value : α) : Action α (Formula α) := do
  let e ← Formula.new (.var name)
  e.setValue value
  return e

/-- New variables for the names in a comma-separated list, all holding zero. -/
def newVariables [Scalar α] (names : String) : Action α (List (Formula α)) :=
  (Text.commaSeparated names).mapM fun name => newVariable name 0

/-- A table, unless its values make none. -/
def newTable [Scalar α] (name : String) (values : Array α) (min step : α)
    (derivative : Option (Formula α)) : Action α (Table α (Formula α)) :=
  match Table.ofValues name values min step derivative with
  | .ok t => pure t
  | .error defect => throw (.table defect)

end Session

end FormulaGraph
