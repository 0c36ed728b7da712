import FormulaGraph.Proofs.LingeringRoots
import FormulaGraph.Proofs.MatrixValues

/-!
# The algebra of matrices of formulas

Matrices are multiplied if their extents fit, and the product has the extent that it should, also
where a matrix has no rows or no columns.  In exact arithmetic it evaluates to the product of what
the matrices evaluate to, so products associate, and the transpose of a product is that of the
transposes the other way around (`mul_evaluation`).
-/

namespace FormulaGraph

open PartialReal

namespace FormulaMatrix

open Formula

variable {r k c d : Nat} {S : Set NodeId} {ρ : Valuation PartialReal} {L : Ledger PartialReal}
  {A : Matrix (Fin r) (Fin k) ℝ} {B : Matrix (Fin k) (Fin c) ℝ} {C : Matrix (Fin c) (Fin d) ℝ}
  {a b e : FormulaMatrix (Formula PartialReal)}

theorem mul_makes (ha : a.Denotes S ρ A L) (hb : b.Denotes S ρ B L) :
    Makes (a.mul b) L (Denotes S ρ (A * B)) :=
  have hfit : a.columnCount = b.rowCount :=
    (Entrywise.columnCount_eq ha).trans (Entrywise.rowCount_eq hb).symm
  ActsAs.makes (mul_run hfit) (product_denotes ha hb)

/-- In the session the action makes, using up nothing but numbers, a matrix that in the store `t`
evaluates to `A`. -/
def EvaluatesTo (x : Action PartialReal (FormulaMatrix (Formula PartialReal)))
    (s : Session PartialReal) (t : Store PartialReal) (A : Matrix (Fin r) (Fin c) ℝ) : Prop :=
  ∃ m n, x.run.run s = (.ok m, { s with nextId := n }) ∧ (m.evaluate.run t).1 = ofMatrix A

theorem Makes.evaluatesTo {x : Action PartialReal (FormulaMatrix (Formula PartialReal))}
    {t : Store PartialReal} (hx : Makes x L (Denotes S t.read A)) (ht : t.Reachable)
    {s : Session PartialReal} (hs : s.nextId = L.next) : EvaluatesTo x s t A := by
  obtain ⟨L', m, -, hm, hrun⟩ := hx s hs
  exact ⟨m, L'.next, hrun, hm.evaluate ht⟩

/-- All elements of the matrix can be evaluated. -/
abbrev Evaluable (L : Ledger PartialReal) (S : Set NodeId) (t : Store PartialReal)
    (m : FormulaMatrix (Formula PartialReal)) : Prop :=
  ∀ i j, (m.entry i j).Evaluable L S t

theorem Evaluable.denotes {t : Store PartialReal} (h : a.Evaluable L S t) (ht : t.Reachable)
    (hextent : a.extent = ⟨r, k⟩) : ∃ A : Matrix (Fin r) (Fin k) ℝ, a.Denotes S t.read A L := by
  obtain rfl : a.rowCount = r := congrArg Extent.rows hextent
  obtain rfl : a.columnCount = k := congrArg Extent.columns hextent
  exact exists_denotes ht h

open Matrix in
/-- **Matrices are multiplied** exactly if the columns of the left are as many as the rows of the
right, and the product has the rows of the left and the columns of the right.  In exact arithmetic
and wherever nothing is undefined it evaluates to the product of what the matrices evaluate to, if
the elements are scoped in the same variables; so products associate, and of matrices that have
rows and columns the transpose of the product is the product of the transposes. -/
theorem mul_evaluation :
    (∀ (α : Type) [Scalar α] (s : Session α) (a b : FormulaMatrix (Formula α)),
      (a.columnCount = b.rowCount → ∃ m n, (a.mul b).run.run s = (.ok m, { s with nextId := n }) ∧
        m.extent = ⟨a.rowCount, b.columnCount⟩) ∧
      (a.columnCount ≠ b.rowCount →
        (a.mul b).run.run s = (.error (.shapeMismatch a.extent b.extent), s))) ∧
    ∀ (L : Ledger PartialReal) (S : Set NodeId) (s : Session PartialReal)
      (t : Store PartialReal) (r k c : Nat) (a b : FormulaMatrix (Formula PartialReal)),
      s.nextId = L.next → t.Reachable → a.extent = ⟨r, k⟩ → b.extent = ⟨k, c⟩ →
      a.Evaluable L S t → b.Evaluable L S t →
      ∃ (A : Matrix (Fin r) (Fin k) ℝ) (B : Matrix (Fin k) (Fin c) ℝ),
        (a.evaluate.run t).1 = ofMatrix A ∧ (b.evaluate.run t).1 = ofMatrix B ∧
        EvaluatesTo (a.mul b) s t (A * B) ∧
        (0 < r → 0 < c → EvaluatesTo (do return (← a.mul b).transpose) s t (Bᵀ * Aᵀ) ∧
          EvaluatesTo (b.transpose.mul a.transpose) s t (Bᵀ * Aᵀ)) ∧
        ∀ (d : Nat) (e : FormulaMatrix (Formula PartialReal)), e.extent = ⟨c, d⟩ →
          e.Evaluable L S t → ∃ C : Matrix (Fin c) (Fin d) ℝ,
            (e.evaluate.run t).1 = ofMatrix C ∧
            EvaluatesTo (do (← a.mul b).mul e) s t (A * B * C) ∧
            EvaluatesTo (do a.mul (← b.mul e)) s t (A * B * C) := by
  refine ⟨fun α _ s a b => ⟨fun hfit => ?_, fun hne => mul_run_of_ne hne s⟩, ?_⟩
  · exact ⟨_, _, mul_run hfit s, product_extent hfit _⟩
  · intro L S s t r k c a b hs ht ha hb hevala hevalb
    obtain ⟨A, hA⟩ := hevala.denotes ht ha
    obtain ⟨B, hB⟩ := hevalb.denotes ht hb
    have hAB := mul_makes hA hB
    refine ⟨A, B, hA.evaluate ht, hB.evaluate ht, hAB.evaluatesTo ht hs, ?_, ?_⟩
    · intro hr hc
      have hk : 0 < k := Nat.pos_of_ne_zero fun hnone => by
        have hrows : b.rowCount = 0 := (Entrywise.rowCount_eq hB).trans hnone
        have hcolumns : b.columnCount = c := Entrywise.columnCount_eq hB
        rw [columnCount_of_rowCount b hrows] at hcolumns
        exact hc.ne hcolumns
      have hleft : Makes (do return (← a.mul b).transpose) L (Denotes S t.read (Bᵀ * Aᵀ)) :=
        hAB.bind fun L₁ m hL₁ hm => .pure (Matrix.transpose_mul A B ▸ hm.transpose hc)
      have hright := mul_makes (hB.transpose hc) (hA.transpose hk)
      exact ⟨Makes.evaluatesTo hleft ht hs, Makes.evaluatesTo hright ht hs⟩
    · intro d e he hevale
      obtain ⟨C, hC⟩ := hevale.denotes ht he
      have hleft : Makes (do (← a.mul b).mul e) L (Denotes S t.read (A * B * C)) :=
        hAB.bind fun L₁ m hL₁ hm => mul_makes hm (hC.mono hL₁)
      have hright : Makes (do a.mul (← b.mul e)) L (Denotes S t.read (A * B * C)) :=
        Makes.bind (mul_makes hB hC) fun L₁ m hL₁ hm =>
          Matrix.mul_assoc A B C ▸ mul_makes (hA.mono hL₁) hm
      exact ⟨C, hC.evaluate ht, Makes.evaluatesTo hleft ht hs, Makes.evaluatesTo hright ht hs⟩

open Matrix in
/-- A row and a column that hold a variable. -/
theorem mul_evaluation_of_row_and_column :
    let x : Formula PartialReal := node 2 (.var "x")
    let a : FormulaMatrix (Formula PartialReal) :=
      ⟨[[x, one]], Rectangular.of_length (n := 2) (by simp)⟩
    let b : FormulaMatrix (Formula PartialReal) :=
      ⟨[[one], [x]], Rectangular.of_length (n := 1) (by simp)⟩
    let s : Session PartialReal := { Session.start with nextId := 3 }
    let t : Store PartialReal := Store.empty.write 2 (real 2)
    ((∃ m n, (a.mul b).run.run s = (.ok m, { s with nextId := n }) ∧ m.extent = ⟨1, 1⟩) ∧
      (a.mul a).run.run s = (.error (.shapeMismatch ⟨1, 2⟩ ⟨1, 2⟩), s)) ∧
    ∃ (A : Matrix (Fin 1) (Fin 2) ℝ) (B : Matrix (Fin 2) (Fin 1) ℝ),
      (a.evaluate.run t).1 = ofMatrix A ∧ (b.evaluate.run t).1 = ofMatrix B ∧
      EvaluatesTo (a.mul b) s t (A * B) ∧
      (EvaluatesTo (do return (← a.mul b).transpose) s t (Bᵀ * Aᵀ) ∧
        EvaluatesTo (b.transpose.mul a.transpose) s t (Bᵀ * Aᵀ)) ∧
      ∃ C : Matrix (Fin 1) (Fin 2) ℝ, (a.evaluate.run t).1 = ofMatrix C ∧
        EvaluatesTo (do (← a.mul b).mul a) s t (A * B * C) ∧
        EvaluatesTo (do a.mul (← b.mul a)) s t (A * B * C) := by
  intro x a b s t
  let L : Ledger PartialReal := Ledger.initial.add (.var "x")
  have hx : x.Evaluable L Set.univ t := evaluable_var
    (add_known (by simp [Shape.refs, Shape.children])) (Set.mem_univ 2)
    (show t.read 2 = real 2 by simp [t, Store.read_write, Valuation.set])
  have ha : a.Evaluable L Set.univ t := by
    intro i j
    fin_cases i
    fin_cases j
    · exact hx
    · exact one_evaluable t
  have hb : b.Evaluable L Set.univ t := by
    intro i j
    fin_cases j
    fin_cases i
    · exact one_evaluable t
    · exact hx
  obtain ⟨A, B, hA, hB, hproduct, htranspose, hassoc⟩ := mul_evaluation.2 L Set.univ s t 1 2 1 a b
    rfl (.write .empty 2 _) rfl rfl ha hb
  exact ⟨⟨(mul_evaluation.1 PartialReal s a b).1 rfl,
    (mul_evaluation.1 PartialReal s a a).2 (by decide)⟩, A, B, hA, hB, hproduct,
    htranspose (by decide) (by decide), hassoc 2 a rfl ha⟩

/-- The zero of `1 - t`, times `t`, which is three.  In the product the solver comes first, and
leaves one in `t`. -/
theorem mul_sees_root :
    let a := single UnitRoot.root
    let b := single UnitRoot.t
    let s : Session PartialReal := { Session.start with nextId := 6 }
    let t : Store PartialReal := Store.empty.write 2 (real 3)
    (UnitRoot.root.EvaluatesThroughout t ∧ UnitRoot.t.EvaluatesThroughout t) ∧
      (a.evaluate.run t).1 = ofMatrix !![1] ∧ (b.evaluate.run t).1 = ofMatrix !![3] ∧
      (∃ m n, (a.mul b).run.run s = (.ok m, { s with nextId := n }) ∧
        (m.evaluate.run t).1 = ofMatrix !![1]) ∧
      (!![1] * !![3] : Matrix (Fin 1) (Fin 1) ℝ) ≠ !![1] := by
  intro a b s t
  have ht : t.Reachable := .write .empty 2 _
  have hread : t.read 2 = real 3 := by simp [t, Store.read_write, Valuation.set]
  have hroot := UnitRoot.root_evaluable ht (Set.notMem_empty 2) hread
  have hlisted := UnitRoot.root_known.listed
  have hvalues : (UnitRoot.root.evaluate.run t).1 = real 1 ∧
      (UnitRoot.t.evaluate.run t).1 = real 3 :=
    ⟨(UnitRoot.after_root hlisted ht.issued).1, (evaluate_var 2 "t").trans hread⟩
  have hmul : (multiply UnitRoot.root UnitRoot.t).run 6 =
      (node 6 (.assoc .multiply [UnitRoot.root, UnitRoot.t]), 7) := rfl
  refine ⟨⟨hroot.defined, (UnitRoot.t_evaluable (Set.mem_univ 2) hread).defined⟩, ?_, ?_,
    ⟨_, _, single_mul hmul rfl rfl, ?_⟩, ?_⟩
  · rw [single_evaluate, hvalues.1, ofMatrix_single]
  · rw [single_evaluate, hvalues.2, ofMatrix_single]
  · have hafter : ∀ c ∈ [UnitRoot.t], c.FitsIn UnitRoot.ledger.directory (t.generation + 1) {2}
        fun _ => real 1 := by
      simpa using (UnitRoot.t_scoped (Set.mem_singleton 2)).fitsIn UnitRoot.t_known.listed
    have hproduct := UnitRoot.productIn_root hlisted ht.issued one_ne_zero hafter
    rw [single_evaluate, evaluate_product ht.issued, ofMatrix_single]
    refine congrArg single (hproduct.trans ?_)
    simp [UnitRoot.t, values, value, Scalar.productUntilZero]
  · simp

end FormulaMatrix

end FormulaGraph
