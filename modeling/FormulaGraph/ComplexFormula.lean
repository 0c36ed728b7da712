import FormulaGraph.Session

/-!
# Complex numbers with formulas for components

The quantities of the polar form are labelled after the number they belong to,
so that they can be recognised when rendered.
-/

namespace FormulaGraph

/-- A complex number. -/
structure ComplexFormula (ε : Type) where
  re : ε
  im : ε

namespace ComplexFormula

variable {ε δ : Type}

def toList (z : ComplexFormula ε) : List ε := [z.re, z.im]

/-- Applies `f` to both components, the real one first. -/
def mapM {m : Type → Type} [Monad m] (f : ε → m δ) (z : ComplexFormula ε) :
    m (ComplexFormula δ) := do
  let re ← f z.re
  let im ← f z.im
  return ⟨re, im⟩

/-- Combines two numbers component by component. -/
def zipM {m : Type → Type} [Monad m] (f : ε → ε → m δ) (z w : ComplexFormula ε) :
    m (ComplexFormula δ) := do
  let re ← f z.re w.re
  let im ← f z.im w.im
  return ⟨re, im⟩

variable {α : Type} [Scalar α]

def ofReal (re : Formula α) : ComplexFormula (Formula α) := ⟨re, .zero⟩

def squareLength (z : ComplexFormula (Formula α)) : Fresh (Formula α) := do
  Formula.sum (← Formula.squares z.toList)

def add (z w : ComplexFormula (Formula α)) : Fresh (ComplexFormula (Formula α)) :=
  z.zipM Formula.add w

def sub (z w : ComplexFormula (Formula α)) : Fresh (ComplexFormula (Formula α)) :=
  z.zipM Formula.subtract w

def neg (z : ComplexFormula (Formula α)) : Fresh (ComplexFormula (Formula α)) :=
  z.mapM Formula.negate

def conjugate (z : ComplexFormula (Formula α)) : Fresh (ComplexFormula (Formula α)) := do
  return ⟨z.re, ← Formula.negate z.im⟩

/-- `(a + bi)(c + di) = (ac - bd) + (ad + bc)i`. -/
def mul (z w : ComplexFormula (Formula α)) : Fresh (ComplexFormula (Formula α)) := do
  let re ← Formula.subtract (← Formula.multiply z.re w.re) (← Formula.multiply z.im w.im)
  let im ← Formula.add (← Formula.multiply z.re w.im) (← Formula.multiply z.im w.re)
  return ⟨re, im⟩

/-- `z * k`, the real factor last. -/
def mulReal (z : ComplexFormula (Formula α)) (k : Formula α) :
    Fresh (ComplexFormula (Formula α)) :=
  z.mapM fun c => Formula.multiply c k

/-- `k * z`, the real factor first. -/
def scale (k : Formula α) (z : ComplexFormula (Formula α)) :
    Fresh (ComplexFormula (Formula α)) :=
  z.mapM fun c => Formula.multiply k c

def divReal (z : ComplexFormula (Formula α)) (k : Formula α) :
    Fresh (ComplexFormula (Formula α)) :=
  z.mapM fun c => Formula.divide c k

/-- `(a + bi) / (c + di) = ((ac + bd) + (bc - ad)i) / (c² + d²)`. -/
def div (z w : ComplexFormula (Formula α)) : Fresh (ComplexFormula (Formula α)) := do
  let denominator ← w.squareLength
  let re ← Formula.add (← Formula.multiply z.re w.re) (← Formula.multiply z.im w.im)
  let im ← Formula.subtract (← Formula.multiply z.im w.re) (← Formula.multiply z.re w.im)
  divReal ⟨re, im⟩ denominator

/-- `k / z`, the conjugate times `k / |z|²`. -/
def realDiv (k : Formula α) (z : ComplexFormula (Formula α)) :
    Fresh (ComplexFormula (Formula α)) := do
  (← z.conjugate).mulReal (← Formula.divide k (← z.squareLength))

/-- `e^z = e^re (cos im + i sin im)`. -/
def exp (z : ComplexFormula (Formula α)) : Fresh (ComplexFormula (Formula α)) := do
  let modulus ← Formula.unary .exp z.re
  let re ← Formula.multiply modulus (← Formula.unary .cos z.im)
  let im ← Formula.multiply modulus (← Formula.unary .sin z.im)
  return ⟨re, im⟩

/-- `Ci x + i Si x`, an antiderivative of `e^(ix)/x`. -/
def exponentialIntegral (x : Formula α) : Fresh (ComplexFormula (Formula α)) := do
  return ⟨← Formula.unary .cosineIntegral x, ← Formula.unary .sineIntegral x⟩

/-- The integral of `e^(ix)/x` from `x₁` to `x₂`. -/
def exponentialIntegralBetween (x₁ x₂ : Formula α) : Fresh (ComplexFormula (Formula α)) := do
  let upper ← exponentialIntegral x₂
  let lower ← exponentialIntegral x₁
  upper.sub lower

/-- The first number where the condition is zero, the second elsewhere. -/
def coalesce (c : Formula α) (z w : ComplexFormula (Formula α)) :
    Fresh (ComplexFormula (Formula α)) :=
  z.zipM (Formula.conditional .coalesce c) w

def evaluateIn (g : Generation) (z : ComplexFormula (Formula α)) :
    Evaluation α (ComplexFormula α) :=
  z.mapM (Formula.evaluateIn g)

/-- The values of both components in a pass of their own. -/
def evaluate (z : ComplexFormula (Formula α)) : Evaluation α (ComplexFormula α) := do
  z.evaluateIn (← Evaluation.nextGeneration)

/-! ## Labels -/

/-- Labels the components after the number. -/
def setLabel (z : ComplexFormula (Formula α)) (name : String) : Action α Unit := do
  z.re.setLabel (some ("Re(" ++ name ++ ")"))
  z.im.setLabel (some ("Im(" ++ name ++ ")"))

/-- The name in a label `Re(name)`; the closing parenthesis may be missing. -/
def nameInLabel? (label : String) : Option String :=
  match label.toList with
  | 'R' :: 'e' :: '(' :: rest =>
    some (String.ofList (if rest.getLast? = some ')' then rest.dropLast else rest))
  | _ => none

/-- The name of a number: the one its real component is labelled with, or else
the text of its components. -/
def name [ScalarText α] (z : ComplexFormula (Formula α)) : Action α String := do
  match (← z.re.label).bind nameInLabel? with
  | some name => return name
  | none => return z.re.display ++ "; " ++ z.im.display

variable [ScalarText α]

/-- The length, labelled `Len(name)`. -/
def length (z : ComplexFormula (Formula α)) : Action α (Formula α) := do
  let length ← Formula.hypot z.toList
  length.setLabel (some ("Len(" ++ (← z.name) ++ ")"))
  return length

/-- The angle to the real axis, labelled `Arg(name)`. -/
def arg (z : ComplexFormula (Formula α)) : Action α (Formula α) := do
  let arg ← Formula.binary .atan2 z.im z.re
  arg.setLabel (some ("Arg(" ++ (← z.name) ++ ")"))
  return arg

/-- The number divided by its length, labelled `Normal(name)`. -/
def normal (z : ComplexFormula (Formula α)) : Action α (ComplexFormula (Formula α)) := do
  let normal ← z.divReal (← z.length)
  normal.setLabel ("Normal(" ++ (← z.name) ++ ")")
  return normal

end ComplexFormula

end FormulaGraph
