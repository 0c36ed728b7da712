import FormulaGraph.Proofs.Denotations
import FormulaGraph.Proofs.LexicalScope
import FormulaGraph.Proofs.MatrixLayout
import FormulaGraph.Proofs.NeutralConstants
import Mathlib.Data.Matrix.Mul
import Mathlib.LinearAlgebra.Matrix.Notation

/-!
# What matrices of formulas denote

A matrix of formulas denotes a matrix of real numbers if each element denotes the number in its
place.  The product of two such matrices denotes the product of theirs (`product_denotes`): its
elements are sums over a row and a column, also where these are empty.

A matrix is evaluated in one pass.  As long as its elements keep to one scope, it evaluates to
the matrix that it denotes (`Denotes.evaluate`).
-/

namespace FormulaGraph

open PartialReal

namespace FormulaMatrix

open Formula

variable {r c k : Nat}

/-- The elements denote those of the matrix of numbers. -/
def Denotes (S : Set NodeId) (ρ : Valuation PartialReal) (A : Matrix (Fin r) (Fin c) ℝ)
    (L : Ledger PartialReal) (m : FormulaMatrix (Formula PartialReal)) : Prop :=
  Entrywise (fun i j e => e.Denotes S ρ (A i j) L) m

/-- The matrix with the given numbers as elements. -/
def ofMatrix (A : Matrix (Fin r) (Fin c) ℝ) : FormulaMatrix PartialReal :=
  ofFn r c fun i j => real (A i j)

/-- A matrix of real numbers is determined by its entries. -/
theorem ofMatrix_injective {A B : Matrix (Fin r) (Fin c) ℝ} (h : ofMatrix A = ofMatrix B) :
    A = B := by
  ext i j
  have hentry := congrArg (fun m => m.get? i j) h
  simpa [ofMatrix, get?_ofFn] using hentry

variable {S : Set NodeId} {ρ : Valuation PartialReal} {L L' : Ledger PartialReal}
  {A : Matrix (Fin r) (Fin k) ℝ} {B : Matrix (Fin k) (Fin c) ℝ}
  {a b m : FormulaMatrix (Formula PartialReal)}

/-- What a matrix denotes does not depend on what else has been built. -/
theorem Denotes.mono (h : m.Denotes S ρ A L) (hL : L.Extends L') : m.Denotes S ρ A L' :=
  h.imp fun _ _ _ he => he.mono hL

/-- The matrix of numbers that a matrix denotes if all its elements can be evaluated. -/
theorem exists_denotes {t : Store PartialReal} (ht : t.Reachable)
    (hm : ∀ i j, (m.entry i j).Evaluable L S t) :
    ∃ A : Matrix (Fin m.rowCount) (Fin m.columnCount) ℝ, m.Denotes S t.read A L :=
  ⟨fun i j => realValue t.read (m.entry i j), entrywise_of_entry fun i j => (hm i j).denotes ht⟩

/-- Rows and columns change places, unless there are no columns to become rows. -/
theorem Denotes.transpose (h : m.Denotes S ρ A L) (hk : 0 < k) :
    m.transpose.Denotes S ρ A.transpose L :=
  Entrywise.transpose h hk

/-! ## Products -/

/-- What relates indices to two lists relates them to the pairs. -/
theorem forall₂_zip {ι β γ : Type} {R : ι → β → Prop} {R' : ι → γ → Prop} {is : List ι}
    {bs : List β} {cs : List γ} (h : List.Forall₂ R is bs) (h' : List.Forall₂ R' is cs) :
    List.Forall₂ (fun i p => R i p.1 ∧ R' i p.2) is (bs.zip cs) := by
  induction h generalizing cs with
  | nil => exact .nil
  | cons hb _ ih =>
      obtain _ | ⟨hc, hcs⟩ := h'
      exact .cons ⟨hb, hc⟩ (ih hcs)

section Arithmetic

variable {L₀ : Ledger PartialReal} {P : ℝ → Ledger PartialReal → Formula PartialReal → Prop}

/-- A row by a column is built as the sum of the products. -/
theorem rowByColumn_builds (hP : Arithmetic L₀ P) (hL : L₀.Extends L) {x y : Fin k → ℝ}
    {row column : List (Formula PartialReal)}
    (hrow : List.Forall₂ (fun l e => P (x l) L e) (List.finRange k) row)
    (hcolumn : List.Forall₂ (fun l e => P (y l) L e) (List.finRange k) column) :
    Builds (rowByColumn row column) L (P (∑ l, x l * y l)) := by
  have hproducts : Builds ((row.zip column).mapM fun p => multiply p.1 p.2) L fun L' es =>
      List.Forall₂ (fun l e => P (x l * y l) L' e) (List.finRange k) es := by
    refine mapM_builds (K := fun l L' (p : Formula PartialReal × Formula PartialReal) =>
      P (x l) L' p.1 ∧ P (y l) L' p.2) ?_ (fun l => hP.lasting _) (forall₂_zip hrow hcolumn) ?_
    · exact fun l _ _ _ hL' h => ⟨hP.lasting _ hL' h.1, hP.lasting _ hL' h.2⟩
    · intro l p L' hL' h
      have hproduct := hP.assoc .multiply (hL.trans hL') (.cons h.1 (.cons h.2 .nil))
      rwa [AssocOp.amount, List.prod_pair] at hproduct
  rw [rowByColumn]
  refine .bind hproducts fun L' products hL' h => ?_
  have hsum := hP.assoc .add (hL.trans hL') (List.forall₂_map_left_iff.mpr h)
  rwa [AssocOp.amount, ← List.ofFn_eq_map, List.sum_ofFn] at hsum

/-- The elements of the product, built without asking for the extents. -/
def product {α : Type} [Scalar α] (a b : FormulaMatrix (Formula α)) :
    Fresh (FormulaMatrix (Formula α)) :=
  (a.crossings b).mapM fun pair => rowByColumn pair.1 pair.2

/-- The product of two matrices is built element by element. -/
theorem product_builds (hP : Arithmetic L₀ P) (hL : L₀.Extends L)
    (ha : Entrywise (fun i j => P (A i j) L) a) (hb : Entrywise (fun i j => P (B i j) L) b) :
    Builds (product a b) L fun L' => Entrywise fun i j => P ((A * B) i j) L' := by
  have hcrossings := Entrywise.crossings ha hb
  refine Entrywise.mapM_builds (K := fun i j L' (p : List (Formula PartialReal) × _) =>
      List.Forall₂ (fun l (e : Formula PartialReal) => P (A i l) L' e) (List.finRange k) p.1 ∧
      List.Forall₂ (fun l (e : Formula PartialReal) => P (B l j) L' e) (List.finRange k) p.2)
    ?_ (fun _ _ => hP.lasting _) hcrossings fun i j p L' hL' h =>
      rowByColumn_builds hP (hL.trans hL') h.1 h.2
  exact fun i j L₁ L₂ p hL h =>
    ⟨h.1.imp fun _ _ he => hP.lasting _ hL he, h.2.imp fun _ _ he => hP.lasting _ hL he⟩

end Arithmetic

/-- **The product denotes the product.** -/
theorem product_denotes (ha : a.Denotes S ρ A L) (hb : b.Denotes S ρ B L) :
    Builds (product a b) L (Denotes S ρ (A * B)) :=
  product_builds denotes_arithmetic (.refl L) ha hb

section Session

variable {α : Type} [Scalar α] {a b : FormulaMatrix (Formula α)}

/-- Matrices are multiplied if the columns of the left are as many as the rows of the right. -/
theorem mul_run (h : a.columnCount = b.rowCount) (s : Session α) :
    (a.mul b).run.run s = (.ok ((product a b).run s.nextId).1,
      { s with nextId := ((product a b).run s.nextId).2 }) := by
  rw [mul, if_pos h]
  refine mapM_acts (fun pair => ?_) _ s
  obtain ⟨row, column⟩ := pair
  exact .lift (rowByColumn row column)

/-- Matrices whose extents do not fit are refused, and nothing changes. -/
theorem mul_run_of_ne (h : a.columnCount ≠ b.rowCount) (s : Session α) :
    (a.mul b).run.run s = (.error (.shapeMismatch a.extent b.extent), s) := by
  rw [mul, if_neg h]
  rfl

/-- The product has the rows of the left and the columns of the right. -/
theorem product_extent (h : a.columnCount = b.rowCount) :
    Yields (product a b) fun m => m.extent = ⟨a.rowCount, b.columnCount⟩ :=
  (mapM_extent _ _).mono fun _ hm => hm.trans (extent_crossings h)

end Session

/-! ## Evaluating a matrix -/

/-- If the elements are answered by what `F` makes of them, so is the matrix. -/
theorem evaluateIn_answers {α : Type} [Scalar α] {K : (β : Type) → Evaluation α β → β → Prop}
    (hK : Answering K) {g : Generation} {F : Formula α → α} {m : FormulaMatrix (Formula α)}
    (hm : ∀ i j, K α (Formula.evaluateIn g (m.entry i j)) (F (m.entry i j))) :
    K _ (m.evaluateIn g) (ofFn m.rowCount m.columnCount fun i j => F (m.entry i j)) := by
  have hcolumns : K _ (m.transpose.mapM (Formula.evaluateIn g)) (m.transpose.map F) := by
    refine mapM_answering hK fun column hcolumn e he => ?_
    simp only [FormulaMatrix.transpose, ofFn, List.mem_map] at hcolumn
    obtain ⟨j, -, rfl⟩ := hcolumn
    obtain ⟨i, -, rfl⟩ := List.mem_map.mp he
    exact hm i j
  rw [evaluateIn]
  have hvalues : (ofFn m.rowCount m.columnCount fun i j =>
      ((m.transpose.map F).get? j i).getD Scalar.nan) =
      ofFn m.rowCount m.columnCount fun i j => F (m.entry i j) := by
    congr 1
    funext i j
    rw [FormulaMatrix.transpose, map_ofFn, get?_ofFn, Option.getD_some]
  rw [← hvalues]
  exact hK.bind hcolumns (hK.pure _)

/-- **A matrix that denotes one of numbers evaluates to it.** -/
theorem Denotes.evaluate {t : Store PartialReal} (hm : m.Denotes S t.read A L)
    (ht : t.Reachable) : (m.evaluate.run t).1 = ofMatrix A := by
  obtain rfl := Entrywise.rowCount_eq hm
  obtain rfl := Entrywise.columnCount_eq hm
  have hentry := fun i j => Entrywise.entry hm i j
  have hdelivers := evaluateIn_answers (F := value t.read) Delivers.answering fun i j =>
    Formula.evaluateIn_delivers (hentry i j).member.holds (hentry i j).member.known.listed
      (t.generation + 1) t.read
  refine (hdelivers _ (ht.issued.serves_next fun _ _ => rfl)).1.trans ?_
  simp only [(hentry _ _).value_eq]
  rfl

/-! ## A single element -/

/-- The matrix of one element. -/
def single {ε : Type} (e : ε) : FormulaMatrix ε :=
  ⟨[[e]], Rectangular.of_length (n := 1) (by simp)⟩

/-- A matrix with one element is evaluated as the element is. -/
theorem single_evaluate {α : Type} [Scalar α] (e : Formula α) (t : Store α) :
    ((single e).evaluate.run t).1 = single (e.evaluate.run t).1 := rfl

/-- A one by one matrix of real numbers is written with its number. -/
theorem ofMatrix_single (x : ℝ) : ofMatrix !![x] = single (real x) := rfl

/-- A product that is neither constant nor a sum is the only element of the matrix product. -/
theorem single_mul {x y e : Formula PartialReal} {n : NodeId} {s : Session PartialReal}
    (hproduct : (multiply x y).run s.nextId = (e, n)) (hconst : e.isConstant = false)
    (hassoc : e.isAssoc .add = false) :
    ((single x).mul (single y)).run.run s = (.ok (single e), { s with nextId := n }) := by
  have hsum : sum [e] = pure e := assoc_beside_neutral (by simp) hconst hassoc [] [] (by simp)
  have hrow : (rowByColumn [x] [y]).run s.nextId = (e, n) := by
    have hsteps : rowByColumn [x] [y] = (do sum [← multiply x y]) := rfl
    rw [hsteps, StateT.run_bind, hproduct]
    exact congrArg (fun c => StateT.run c n) hsum
  have hsteps : product (single x) (single y) = (do return single (← rowByColumn [x] [y])) := rfl
  rw [mul_run rfl, hsteps, StateT.run_bind, hrow]
  rfl

end FormulaMatrix

end FormulaGraph
