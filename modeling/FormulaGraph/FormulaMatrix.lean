import FormulaGraph.Point

/-!
# Matrices of formulas

A matrix is a list of rows of one length.  A matrix without rows has no columns
either.

Most operations first lay out, as a matrix, what each element is to be built
from, and then build the elements row by row with `mapM`, which keeps the
layout.
-/

namespace FormulaGraph

namespace FormulaMatrix

/-- The length all rows should have: that of the first one. -/
def width {ε : Type} : List (List ε) → Nat
  | [] => 0
  | row :: _ => row.length

/-- Whether all rows have one length. -/
def Rectangular {ε : Type} (rows : List (List ε)) : Prop :=
  ∀ row ∈ rows, row.length = width rows

instance {ε : Type} (rows : List (List ε)) : Decidable (Rectangular rows) :=
  inferInstanceAs (Decidable (∀ row ∈ rows, row.length = width rows))

theorem Rectangular.of_length {ε : Type} {rows : List (List ε)} {n : Nat}
    (h : ∀ row ∈ rows, row.length = n) : Rectangular rows := by
  cases rows with
  | nil => intro row hrow; cases hrow
  | cons r rs =>
    intro row hrow
    rw [h row hrow, width, h r List.mem_cons_self]

end FormulaMatrix

/-- Rows of one length. -/
structure FormulaMatrix (ε : Type) where
  rows : List (List ε)
  rectangular : FormulaMatrix.Rectangular rows

/-- Two axes, the first of which is turned towards the second. -/
inductive Turn where
  | xToY
  | yToX
  | yToZ
  | zToY
  | xToZ
  | zToX
deriving DecidableEq, Repr

namespace FormulaMatrix

variable {ε δ : Type}

/-! ## Layout -/

def rowCount (m : FormulaMatrix ε) : Nat := m.rows.length

def columnCount (m : FormulaMatrix ε) : Nat := width m.rows

def extent (m : FormulaMatrix ε) : Extent := ⟨m.rowCount, m.columnCount⟩

def isSquare (m : FormulaMatrix ε) : Bool := m.rowCount == m.columnCount

theorem length_row (m : FormulaMatrix ε) {row : List ε} (h : row ∈ m.rows) :
    row.length = m.columnCount := m.rectangular row h

/-- The element in row `i` and column `j`. -/
def get? (m : FormulaMatrix ε) (i j : Nat) : Option ε := do
  let row ← m.rows[i]?
  row[j]?

/-- The element in a row and a column that exist. -/
def entry (m : FormulaMatrix ε) (i : Fin m.rowCount) (j : Fin m.columnCount) : ε :=
  (m.rows.get i).get (j.cast (m.length_row (List.get_mem m.rows i)).symm)

/-- The matrix with `r` rows and `c` columns and the given elements. -/
def ofFn (r c : Nat) (f : Fin r → Fin c → ε) : FormulaMatrix ε where
  rows := (List.finRange r).map fun i => (List.finRange c).map (f i)
  rectangular := Rectangular.of_length (n := c) (by simp)

def transpose (m : FormulaMatrix ε) : FormulaMatrix ε :=
  ofFn m.columnCount m.rowCount fun j i => m.entry i j

def columns (m : FormulaMatrix ε) : List (List ε) := m.transpose.rows

/-- The rows of `a` paired with the columns of `b`. -/
def crossings (a b : FormulaMatrix ε) : FormulaMatrix (List ε × List ε) where
  rows := a.rows.map fun row => b.columns.map fun column => (row, column)
  rectangular := Rectangular.of_length (n := b.columns.length) (by simp)

/-- The matrix without row `i` and column `j`. -/
def without (m : FormulaMatrix ε) (i j : Nat) : FormulaMatrix ε where
  rows := (m.rows.eraseIdx i).map (·.eraseIdx j)
  rectangular := by
    refine Rectangular.of_length (n := if j < m.columnCount then m.columnCount - 1
      else m.columnCount) fun row hrow => ?_
    obtain ⟨r, hr, rfl⟩ := List.mem_map.mp hrow
    rw [List.length_eraseIdx, m.length_row (List.mem_of_mem_eraseIdx hr)]

/-- The matrix with the element in row `i` and column `j` replaced. -/
def set (m : FormulaMatrix ε) (i j : Nat) (e : ε) : FormulaMatrix ε where
  rows := m.rows.modify i (·.set j e)
  rectangular := by
    refine Rectangular.of_length (n := m.columnCount) fun row hrow => ?_
    obtain ⟨k, hk, rfl⟩ := List.mem_iff_getElem.mp hrow
    rw [List.length_modify] at hk
    rw [List.getElem_modify]
    split
    · rw [List.length_set]
      exact m.length_row (List.getElem_mem hk)
    · exact m.length_row (List.getElem_mem hk)

/-! ## Building the elements -/

section

variable {m : Type → Type} [Monad m]

/-- Applies `f` to each element of a row; the result is as long as the row. -/
def mapRowM (f : ε → m δ) : (row : List ε) → m { out : List δ // out.length = row.length }
  | [] => pure ⟨[], rfl⟩
  | e :: es => do
    let d ← f e
    let ⟨ds, h⟩ ← mapRowM f es
    return ⟨d :: ds, by rw [List.length_cons, List.length_cons, h]⟩

/-- Applies `f` to each element of several rows of one length. -/
def mapRowsM (f : ε → m δ) {n : Nat} : (rows : List (List ε)) →
    (∀ row ∈ rows, row.length = n) → m { out : List (List δ) // ∀ row ∈ out, row.length = n }
  | [], _ => pure ⟨[], by simp⟩
  | row :: rows, h => do
    let ⟨d, hd⟩ ← mapRowM f row
    let ⟨ds, hds⟩ ← mapRowsM f rows fun r hr => h r (List.mem_cons_of_mem _ hr)
    return ⟨d :: ds, by
      intro r hr
      rcases List.mem_cons.mp hr with rfl | hr
      · rw [hd, h row List.mem_cons_self]
      · exact hds r hr⟩

/-- Applies `f` to each element, row by row. -/
def mapM (f : ε → m δ) (a : FormulaMatrix ε) : m (FormulaMatrix δ) := do
  let ⟨rows, h⟩ ← mapRowsM f a.rows fun _ hrow => a.length_row hrow
  return ⟨rows, Rectangular.of_length h⟩

end

/-! ## Matrices of formulas -/

section

variable {α : Type}

/-- The matrix of the given rows, unless they differ in length. -/
def ofRows (rows : List (List (Formula α))) :
    Except (Fault α) (FormulaMatrix (Formula α)) :=
  if h : Rectangular rows then .ok ⟨rows, h⟩ else .error .raggedRows

/-- The element in row `i` and column `j`. -/
def element (m : FormulaMatrix (Formula α)) (i j : Nat) : Except (Fault α) (Formula α) :=
  match m.get? i j with
  | some e => .ok e
  | none => .error .elementOutOfRange

/-- The matrix with one of its elements replaced. -/
def withElement (m : FormulaMatrix (Formula α)) (i j : Nat) (e : Formula α) :
    Except (Fault α) (FormulaMatrix (Formula α)) := do
  let _ ← m.element i j
  return m.set i j e

/-- A matrix of one row. -/
def ofRow (p : Point3 ε) : FormulaMatrix ε :=
  ⟨[p.toList], Rectangular.of_length (n := 3) (by simp [Point3.toList])⟩

/-- A matrix of one column. -/
def ofColumn (p : Point3 ε) : FormulaMatrix ε :=
  ⟨p.toList.map ([·]), Rectangular.of_length (n := 1) (by simp)⟩

/-- The point that a single row or a single column of three is. -/
def toPoint (m : FormulaMatrix (Formula α)) : Except (Fault α) (Point3 (Formula α)) :=
  match m.rows with
  | [[x], [y], [z]] => .ok ⟨x, y, z⟩
  | [[x, y, z]] => .ok ⟨x, y, z⟩
  | _ => .error (.notAVector m.extent)

/-- The matrix without row `i` and column `j`, where it has them. -/
def minor (m : FormulaMatrix (Formula α)) (i j : Nat) :
    Except (Fault α) (FormulaMatrix (Formula α)) :=
  if !m.isSquare then .error (.notSquare m.extent)
  else if i < m.rowCount && j < m.columnCount then .ok (m.without i j)
  else .error .minorOutOfRange

variable [Scalar α]

def zeros (r c : Nat) : FormulaMatrix (Formula α) := ofFn r c fun _ _ => .zero

def identity (n : Nat) : FormulaMatrix (Formula α) :=
  ofFn n n fun i j => if i = j then .one else .zero

/-- The matrix of constants with the given values. -/
def ofValues (values : FormulaMatrix α) : Fresh (FormulaMatrix (Formula α)) :=
  values.mapM Formula.constant

/-- The matrix of a turn with the given cosine, sine and negative sine. -/
def turning (turn : Turn) (cos sin minusSin : Formula α) : FormulaMatrix (Formula α) where
  rows :=
    match turn with
    | .xToY => [[cos, minusSin, .zero], [sin, cos, .zero], [.zero, .zero, .one]]
    | .yToX => [[cos, sin, .zero], [minusSin, cos, .zero], [.zero, .zero, .one]]
    | .yToZ => [[.one, .zero, .zero], [.zero, cos, minusSin], [.zero, sin, cos]]
    | .zToY => [[.one, .zero, .zero], [.zero, cos, sin], [.zero, minusSin, cos]]
    | .xToZ => [[cos, .zero, minusSin], [.zero, .one, .zero], [sin, .zero, cos]]
    | .zToX => [[cos, .zero, sin], [.zero, .one, .zero], [minusSin, .zero, cos]]
  rectangular := Rectangular.of_length (n := 3) (by cases turn <;> simp)

/-- The matrix that turns by an angle. -/
def rotation (turn : Turn) (angle : Formula α) : Fresh (FormulaMatrix (Formula α)) := do
  let cos ← Formula.unary .cos angle
  let sin ← Formula.unary .sin angle
  let minusSin ← Formula.negate sin
  return turning turn cos sin minusSin

/-- The sum of the products of a row with a column. -/
def rowByColumn (row column : List (Formula α)) : Fresh (Formula α) := do
  Formula.sum (← (row.zip column).mapM fun (a, b) => Formula.multiply a b)

/-- The matrix product, where the columns of the left are as many as the rows
of the right. -/
def mul (a b : FormulaMatrix (Formula α)) : Action α (FormulaMatrix (Formula α)) := do
  if a.columnCount = b.rowCount then
    (a.crossings b).mapM fun (row, column) => rowByColumn row column
  else
    throw (.shapeMismatch a.extent b.extent)

/-- The matrix times a point as a column. -/
def mulPoint (m : FormulaMatrix (Formula α)) (p : Point3 (Formula α)) :
    Action α (Point3 (Formula α)) := do
  (← m.mul (ofColumn p)).toPoint

/-- The determinant of `n` rows of length `n`, expanded along the first row:
each of its elements times the determinant of the rest without its column, with
alternating signs. -/
def expansion : Nat → List (List (Formula α)) → Fresh (Formula α)
  | 1, [e] :: _ => pure e
  | n + 1, row :: rest => do
    Formula.sum (← row.zipIdx.mapM fun (e, j) => do
      let term ← Formula.multiply e (← expansion n (rest.map (·.eraseIdx j)))
      if j % 2 = 0 then pure term else Formula.negate term)
  | _, _ => pure .one

/-- The determinant of a square matrix. -/
def determinant (m : FormulaMatrix (Formula α)) : Action α (Formula α) := do
  if m.isSquare then
    expansion m.rowCount m.rows
  else
    throw (.notSquare m.extent)

/-- The element of the adjugate in row `i` and column `j`: the determinant
without row `j` and column `i`, with the sign of the place. -/
def cofactor (m : FormulaMatrix (Formula α)) (i j : Nat) : Fresh (Formula α) := do
  let d ← expansion (m.rowCount - 1) (m.without j i).rows
  if (i + j) % 2 = 0 then pure d else Formula.negate d

/-- The adjugate divided by the determinant, unless that is the constant
zero. -/
def inverse (m : FormulaMatrix (Formula α)) : Action α (FormulaMatrix (Formula α)) := do
  let d ← m.determinant
  if d.isConstantValue 0 then
    throw .singularMatrix
  else
    let places := ofFn m.rowCount m.columnCount fun i j => (i.val, j.val)
    (places.mapM fun (i, j) => do Formula.divide (← m.cofactor i j) d : Fresh _)

/-- The values of all elements in one pass, column by column. -/
def evaluateIn (g : Generation) (m : FormulaMatrix (Formula α)) :
    Evaluation α (FormulaMatrix α) := do
  let columns ← m.transpose.mapM (Formula.evaluateIn g)
  return ofFn m.rowCount m.columnCount fun i j => (columns.get? j i).getD Scalar.nan

/-- The values of all elements in a pass of their own. -/
def evaluate (m : FormulaMatrix (Formula α)) : Evaluation α (FormulaMatrix α) := do
  m.evaluateIn (← Evaluation.nextGeneration)

end

end FormulaMatrix

end FormulaGraph
