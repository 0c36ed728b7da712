import FormulaGraph.Session

/-!
# Points with formulas for coordinates

Points of the plane and of space, with the operations of vectors.  Evaluating a
point evaluates its coordinates in one pass, in order, so that what they share
is computed once.
-/

namespace FormulaGraph

/-- A point of the plane. -/
structure Point2 (ε : Type) where
  x : ε
  y : ε

/-- A point of space. -/
structure Point3 (ε : Type) where
  x : ε
  y : ε
  z : ε

namespace Point2

variable {ε δ : Type}

def toList (p : Point2 ε) : List ε := [p.x, p.y]

/-- Applies `f` to each coordinate, in order. -/
def mapM {m : Type → Type} [Monad m] (f : ε → m δ) (p : Point2 ε) : m (Point2 δ) := do
  let x ← f p.x
  let y ← f p.y
  return ⟨x, y⟩

/-- Combines two points coordinate by coordinate. -/
def zipM {m : Type → Type} [Monad m] (f : ε → ε → m δ) (p q : Point2 ε) :
    m (Point2 δ) := do
  let x ← f p.x q.x
  let y ← f p.y q.y
  return ⟨x, y⟩

variable {α : Type} [Scalar α]

def length (p : Point2 (Formula α)) : Fresh (Formula α) := Formula.hypot p.toList

def add (p q : Point2 (Formula α)) : Fresh (Point2 (Formula α)) := p.zipM Formula.add q

def sub (p q : Point2 (Formula α)) : Fresh (Point2 (Formula α)) := p.zipM Formula.subtract q

def evaluateIn (g : Generation) (p : Point2 (Formula α)) : Evaluation α (Point2 α) :=
  p.mapM (Formula.evaluateIn g)

end Point2

namespace Point3

variable {ε δ : Type}

def toList (p : Point3 ε) : List ε := [p.x, p.y, p.z]

def map (f : ε → δ) (p : Point3 ε) : Point3 δ := ⟨f p.x, f p.y, f p.z⟩

/-- Applies `f` to each coordinate, in order. -/
def mapM {m : Type → Type} [Monad m] (f : ε → m δ) (p : Point3 ε) : m (Point3 δ) := do
  let x ← f p.x
  let y ← f p.y
  let z ← f p.z
  return ⟨x, y, z⟩

/-- Combines two points coordinate by coordinate. -/
def zipM {m : Type → Type} [Monad m] (f : ε → ε → m δ) (p q : Point3 ε) :
    m (Point3 δ) := do
  let x ← f p.x q.x
  let y ← f p.y q.y
  let z ← f p.z q.z
  return ⟨x, y, z⟩

variable {α : Type} [Scalar α]

def squareLength (p : Point3 (Formula α)) : Fresh (Formula α) := do
  Formula.sum (← Formula.squares p.toList)

def length (p : Point3 (Formula α)) : Fresh (Formula α) := Formula.hypot p.toList

def add (p q : Point3 (Formula α)) : Fresh (Point3 (Formula α)) := p.zipM Formula.add q

def sub (p q : Point3 (Formula α)) : Fresh (Point3 (Formula α)) := p.zipM Formula.subtract q

def neg (p : Point3 (Formula α)) : Fresh (Point3 (Formula α)) := p.mapM Formula.negate

/-- `p * k`, the factor last in each coordinate. -/
def mul (p : Point3 (Formula α)) (k : Formula α) : Fresh (Point3 (Formula α)) :=
  p.mapM fun c => Formula.multiply c k

/-- `k * p`, the factor first in each coordinate. -/
def scale (k : Formula α) (p : Point3 (Formula α)) : Fresh (Point3 (Formula α)) :=
  p.mapM fun c => Formula.multiply k c

def div (p : Point3 (Formula α)) (k : Formula α) : Fresh (Point3 (Formula α)) :=
  p.mapM fun c => Formula.divide c k

/-- The point divided by its length; a zero vector stays zero. -/
def normal (p : Point3 (Formula α)) : Fresh (Point3 (Formula α)) := do
  p.div (← p.length)

/-- The first point where the condition is zero, the second elsewhere. -/
def coalesce (c : Formula α) (p q : Point3 (Formula α)) : Fresh (Point3 (Formula α)) :=
  p.zipM (Formula.conditional .coalesce c) q

/-- The scalar product. -/
def dot (p q : Point3 (Formula α)) : Fresh (Formula α) := do
  let products ← p.zipM Formula.multiply q
  Formula.sum products.toList

/-- The difference of two products. -/
def minor (a b c d : Formula α) : Fresh (Formula α) := do
  let ab ← Formula.multiply a b
  let cd ← Formula.multiply c d
  Formula.subtract ab cd

/-- The vector product. -/
def cross (p q : Point3 (Formula α)) : Fresh (Point3 (Formula α)) := do
  let x ← minor p.y q.z p.z q.y
  let y ← minor p.z q.x p.x q.z
  let z ← minor p.x q.y p.y q.x
  return ⟨x, y, z⟩

/-- The part of a point along a normal and the part across it. -/
structure Projection (ε : Type) where
  vertical : Point3 ε
  horizontal : Point3 ε

/-- The point made of both parts. -/
def Projection.full (p : Projection (Formula α)) : Fresh (Point3 (Formula α)) :=
  p.vertical.add p.horizontal

/-- Splits a point along and across a normal of length one. -/
def project (p normal : Point3 (Formula α)) : Fresh (Projection (Formula α)) := do
  let vertical ← scale (← p.dot normal) normal
  let horizontal ← p.sub vertical
  return ⟨vertical, horizontal⟩

/-- The point turned about the axis `angle` by the length of `angle`, clockwise
as seen from the tip of the axis.  A zero vector turns nothing. -/
def rotate (p angle : Point3 (Formula α)) : Fresh (Point3 (Formula α)) := do
  let direction ← angle.normal
  let parts ← p.project direction
  let size ← angle.length
  let across ← parts.horizontal.mul (← Formula.unary .cos size)
  let still ← parts.vertical.add across
  let turned ← (← p.cross direction).mul (← Formula.unary .sin size)
  still.add turned

/-- A curve tabulated on a uniform grid of `arg`: one tabulated function for
each coordinate, named after it. -/
def tabulated (name : String) (arg : Formula α) (points : List (Point3 α)) (min step : α)
    (derivative : Option (Point3 (Formula α))) : Action α (Point3 (Formula α)) := do
  let x ← axis "X" (points.map (·.x)) (derivative.map (·.x))
  let y ← axis "Y" (points.map (·.y)) (derivative.map (·.y))
  let z ← axis "Z" (points.map (·.z)) (derivative.map (·.z))
  return ⟨x, y, z⟩
where
  axis (suffix : String) (values : List α) (derivative : Option (Formula α)) :
      Action α (Formula α) := do
    let table ← Session.newTable (name ++ suffix) values.toArray min step derivative
    Formula.tabulated table arg

/-- The point with equal parts shared, also between its coordinates. -/
def share [ScalarText α] (p : Point3 (Formula α)) : Fresh (Point3 (Formula α)) := do
  let (x, table) ← p.x.shareWith ∅
  let (y, table) ← p.y.shareWith table
  let (z, _) ← p.z.shareWith table
  return ⟨x, y, z⟩

/-- Labels the coordinates after the point. -/
def setLabel (p : Point3 (Formula α)) (name : String) : Action α Unit := do
  p.x.setLabel (some (name ++ ".X"))
  p.y.setLabel (some (name ++ ".Y"))
  p.z.setLabel (some (name ++ ".Z"))

def evaluateIn (g : Generation) (p : Point3 (Formula α)) : Evaluation α (Point3 α) :=
  p.mapM (Formula.evaluateIn g)

/-- The values of all coordinates in a pass of their own. -/
def evaluate (p : Point3 (Formula α)) : Evaluation α (Point3 α) := do
  p.evaluateIn (← Evaluation.nextGeneration)

end Point3

/-- A point whose coordinates are variables. -/
abbrev PointVariable := Point3 Variable

namespace PointVariable

variable {α : Type} [Scalar α]

def formulas (p : PointVariable) : Point3 (Formula α) := p.map Variable.formula

/-- New variables named by the point and the axes, holding the values. -/
def new (name : String) (axes : Point3 String) (values : Point3 α) :
    Action α PointVariable := do
  let x ← component axes.x values.x
  let y ← component axes.y values.y
  let z ← component axes.z values.z
  return ⟨x, y, z⟩
where
  component (axis : String) (value : α) : Action α Variable := do
    let e ← Session.newVariable (name ++ axis) value
    e.toVariable .expectedVariable

/-- The usual names of the axes. -/
def usualAxes : Point3 String := ⟨"x", "y", "z"⟩

/-- Moves the variables to the given values. -/
def update (p : PointVariable) (values : Point3 α) : Action α Unit := do
  p.x.set values.x
  p.y.set values.y
  p.z.set values.z

/-- The values of the variables. -/
def values (p : PointVariable) : Action α (Point3 α) := p.mapM Variable.get

/-- The variables a point consists of, if each coordinate is one. -/
def ofPoint (p : Point3 (Formula α)) : Except (Fault α) PointVariable :=
  p.mapM (Formula.toVariable .componentVariable)

end PointVariable

end FormulaGraph
