import FormulaGraph.Proofs.MatrixAlgebra
import Mathlib.LinearAlgebra.Matrix.NonsingularInverse

/-!
# Inverses of matrices of formulas

The inverse is built from determinants: each element is that of the matrix without a row and a
column, with the sign of the place, over the determinant of the whole.  Row and column change
places on the way, so what is built denotes the adjugate over the determinant
(`cofactor_denotes`), and this is the inverse.

Only a determinant that is the constant zero is found to be zero when the inverse is built; any
other may turn out to be zero later on, and its quotients are zero then.
-/

namespace FormulaGraph

open PartialReal

namespace FormulaMatrix

open Formula

section Session

variable {α : Type} [Scalar α] {m : FormulaMatrix (Formula α)}

section Entrywise

variable {r c : Nat} {R : Fin r → Fin c → Formula α → Prop}

/-- What relates entries relates the elements found in the list of the rows. -/
theorem Entrywise.elementAt (h : Entrywise R m) (i : Fin r) (j : Fin c) :
    R i j (elementAt m.rows i j) := by
  obtain rfl := h.rowCount_eq
  obtain rfl := h.columnCount_eq
  rw [elementAt_rows]
  exact h.entry i j

omit [Scalar α] in
/-- What holds of every element holds in every row. -/
theorem Entrywise.all {Q : Formula α → Prop} (h : Entrywise R m) (hQ : ∀ i j e, R i j e → Q e) :
    ∀ row ∈ m.rows, ∀ e ∈ row, Q e := by
  obtain rfl := h.rowCount_eq
  obtain rfl := h.columnCount_eq
  exact forall_of_entry fun i j => hQ i j _ (h.entry i j)

end Entrywise

/-- The elements of the inverse, given the determinant. -/
def quotients (m : FormulaMatrix (Formula α)) (d : Formula α) : Fresh (FormulaMatrix (Formula α)) :=
  (ofFn m.rowCount m.columnCount fun i j => (i.val, j.val)).mapM fun place => do
    divide (← m.cofactor place.1 place.2) d

/-- Matrices are inverted unless the determinant is the constant zero. -/
theorem inverse_run (h : m.rowCount = m.columnCount) {s : Session α} {d : Formula α} {n : NodeId}
    (hd : (expansion m.rowCount m.rows).run s.nextId = (d, n)) :
    m.inverse.run.run s =
      if d.isConstantValue 0 then (.error .singularMatrix, { s with nextId := n })
      else (.ok ((m.quotients d).run n).1, { s with nextId := ((m.quotients d).run n).2 }) := by
  rw [inverse, ExceptT.run_bind, StateT.run_bind, determinant_run h, hd]
  show StateT.run (ExceptT.run (if d.isConstantValue 0 = true then throw .singularMatrix else
    liftM (m.quotients d) : Action α _)) { s with nextId := n } = _
  split
  · rfl
  · rfl

end Session

/-! ## Cofactors -/

section Denotations

variable {S : Set NodeId} {ρ : Valuation PartialReal} {L : Ledger PartialReal} {n : Nat}
  {A : Matrix (Fin n) (Fin n) ℝ} {m : FormulaMatrix (Formula PartialReal)}

/-- The real matrix of a matrix that denotes one is that one. -/
theorem Denotes.realMatrix_eq (h : m.Denotes S ρ A L) : realMatrix ρ n m.rows = A := by
  ext i j
  exact realValue_eq (Entrywise.elementAt h i j).value_eq

/-- All elements are known, in scope and defined. -/
theorem Denotes.all (h : m.Denotes S ρ A L) :
    ∀ row ∈ m.rows, ∀ e ∈ row, e.Member (Scoped S) L ∧ e.Defined ρ :=
  Entrywise.all h fun _ _ _ he => ⟨he.member, he.defined⟩

/-- The expansion along the first column denotes the determinant. -/
theorem expansion_denotes {rows : List (List (Formula PartialReal))} (hcount : rows.length = n)
    (hlength : ∀ row ∈ rows, row.length = n)
    (hrows : ∀ row ∈ rows, ∀ e ∈ row, e.Member (Scoped S) L ∧ e.Defined ρ) :
    Builds (expansion n rows) L (Formula.Denotes S ρ (realMatrix ρ n rows).det) :=
  denotes_of_means
    (expansion_builds (scoped_admitsOperations S) fun row hrow e he => (hrows row hrow e he).1)
    (expansion_means hcount hlength fun row hrow e he => (hrows row hrow e he).2)

/-- What is left without a row and a column are the elements before and after them. -/
theorem elementAt_without {α : Type} [Scalar α] (m : FormulaMatrix (Formula α)) (i j k l : Nat) :
    elementAt (m.without i j).rows k l =
      elementAt m.rows (if k < i then k else k + 1) (if l < j then l else l + 1) := by
  have hcolumn := elementAt_eraseIdx [] (m.rows.eraseIdx i) k j l
  rw [without, hcolumn, elementAt, List.getElem?_cons_succ, List.getElem?_eraseIdx, elementAt]
  split <;> rfl

/-- Leaving out a row and a column leaves out those of the real matrix. -/
theorem realMatrix_without (i j : Fin (n + 1)) :
    realMatrix ρ n (m.without i j).rows =
      (realMatrix ρ (n + 1) m.rows).submatrix i.succAbove j.succAbove := by
  have hskip : ∀ (i : Fin (n + 1)) (k : Fin n),
      (i.succAbove k : ℕ) = if (k : ℕ) < i then (k : ℕ) else k + 1 := by
    intro i k
    rw [Fin.succAbove]
    split_ifs <;> simp_all [Fin.lt_def]
  ext k l
  rw [realMatrix, Matrix.of_apply, elementAt_without, ← hskip, ← hskip]
  rfl

/-- **The cofactors are the elements of the adjugate**, rows and columns having changed places. -/
theorem cofactor_denotes (h : m.Denotes S ρ A L) (i j : Fin n) :
    Builds (m.cofactor i j) L (Formula.Denotes S ρ (A.adjugate i j)) := by
  obtain ⟨n, rfl⟩ := Nat.exists_eq_succ_of_ne_zero i.pos.ne'
  have hcount : m.rows.length = n + 1 := Entrywise.rowCount_eq h
  have hwidth : ∀ row ∈ m.rows, row.length = n + 1 := fun row hrow =>
    (m.length_row hrow).trans (Entrywise.columnCount_eq h)
  have hwithout : Builds (expansion n (m.without j i).rows) L
      (Formula.Denotes S ρ (A.submatrix j.succAbove i.succAbove).det) := by
    rw [← h.realMatrix_eq, ← realMatrix_without]
    refine expansion_denotes ?_ ?_ (forall_eraseIdx (fun row hrow =>
      h.all row (List.mem_of_mem_eraseIdx hrow)) _)
    · rw [without, List.length_map, List.length_eraseIdx_of_lt (hcount ▸ j.isLt), hcount,
        Nat.add_sub_cancel]
    · intro row hrow
      obtain ⟨row', hrow', rfl⟩ := List.mem_map.mp hrow
      have hrow' := hwidth row' (List.mem_of_mem_eraseIdx hrow')
      rw [List.length_eraseIdx_of_lt (hrow' ▸ i.isLt), hrow', Nat.add_sub_cancel]
  rw [cofactor, rowCount, hcount, Matrix.adjugate_fin_succ_eq_det_submatrix, Nat.add_comm ↑j]
  refine .bind hwithout fun L' d _ hd => ?_
  split
  · next heven =>
      rw [(Nat.even_iff.mpr heven).neg_one_pow, one_mul]
      exact .pure hd
  · next hodd =>
      rw [(Nat.not_even_iff_odd.mp fun h => hodd (Nat.even_iff.mp h)).neg_one_pow, neg_one_mul]
      exact negate_denotes hd

/-! ## The inverse -/

/-- The determinant that a matrix is inverted with. -/
theorem determinant_denotes (h : m.Denotes S ρ A L) :
    Builds (expansion m.rowCount m.rows) L (Formula.Denotes S ρ A.det) := by
  rw [Entrywise.rowCount_eq h]
  have hdet := expansion_denotes (n := n) (Entrywise.rowCount_eq h) (fun row hrow =>
    (m.length_row hrow).trans (Entrywise.columnCount_eq h)) h.all
  rwa [h.realMatrix_eq] at hdet

/-- The cofactors divided by the determinant denote the inverse, zero determinants included. -/
theorem quotients_denotes {d : Formula PartialReal} (h : m.Denotes S ρ A L)
    (hd : d.Denotes S ρ A.det L) : Builds (m.quotients d) L (Denotes S ρ A⁻¹) := by
  have hplaces : Entrywise (fun i j place => place = (i.val, j.val))
      (ofFn n n fun i j => (i.val, j.val)) := entrywise_ofFn id fun _ _ => rfl
  rw [quotients, Entrywise.rowCount_eq h, Entrywise.columnCount_eq h]
  refine Entrywise.mapM_builds (K := fun i j _ place => place = (i.val, j.val))
    (fun _ _ _ _ _ _ h => h) (fun _ _ _ _ _ hL h => h.mono hL) hplaces fun i j place L' hL' hp => ?_
  subst hp
  refine .bind (cofactor_denotes (h.mono hL') i j) fun L'' e hL'' he => ?_
  have hquotient := divide_denotes he (hd.mono (hL'.trans hL''))
  have hinverse : A⁻¹ i j = A.adjugate i j / A.det := by
    rw [Matrix.inv_def, Ring.inverse_eq_inv', Matrix.smul_apply, smul_eq_mul, div_eq_inv_mul]
  rwa [hinverse]

/-- A matrix whose determinant is not zero is inverted. -/
theorem inverse_makes (h : m.Denotes S ρ A L) (hdet : A.det ≠ 0) :
    Makes m.inverse L (Denotes S ρ A⁻¹) := by
  intro s hs
  obtain ⟨L₁, hL₁, hnext, hd⟩ := determinant_denotes h
  obtain ⟨L₂, hL₂, hnext', hinverse⟩ := quotients_denotes (h.mono hL₁) hd
  rw [← hs] at hnext hd hnext' hinverse
  refine ⟨L₂, _, hL₁.trans hL₂, hinverse, ?_⟩
  have hsquare : m.rowCount = m.columnCount :=
    (Entrywise.rowCount_eq h).trans (Entrywise.columnCount_eq h).symm
  have hrun : (expansion m.rowCount m.rows).run s.nextId = (_, L₁.next) :=
    Prod.ext rfl hnext.symm
  have hnonzero : ¬ ((expansion m.rowCount m.rows).run s.nextId).1.isConstantValue 0 = true :=
    fun hzero => hdet (real.inj (hd.value_eq.symm.trans (isConstantValue_zero hzero)))
  rw [inverse_run hsquare hrun, hnext', if_neg hnonzero]

end Denotations

/-! ## Matrices of constants -/

/-- Where the determinant is a constant, it decides. -/
theorem inverse_of_constant {α : Type} [Scalar α] {m : FormulaMatrix (Formula α)}
    (h : m.rowCount = m.columnCount) {s : Session α} {d : Formula α} {v : α} {n : NodeId}
    (hd : (expansion m.rowCount m.rows).run s.nextId = (d, n)) (hv : d.asConstant = some v) :
    m.inverse.run.run s =
      if v == 0 then (.error .singularMatrix, { s with nextId := n })
      else (.ok ((m.quotients d).run n).1, { s with nextId := ((m.quotients d).run n).2 }) := by
  rw [inverse_run h hd, isConstantValue, hv]

/-- The determinant of numbers is folded to a number. -/
theorem determinant_of_numbers {n : Nat} {A : Matrix (Fin n) (Fin n) ℝ}
    {m : FormulaMatrix (Formula PartialReal)} (hm : Entrywise (fun i j e => e.IsNumber (A i j)) m) :
    Yields (expansion m.rowCount m.rows) (IsNumber A.det) := by
  have hvalues : realMatrix (fun _ => undefined) n m.rows = A := by
    ext i j
    exact realValue_eq ((hm.elementAt i j).value_eq _)
  have hdefined := hm.all (Q := Formula.Defined fun _ => undefined) fun i j e he =>
    (he.means _).defined_of_real
  have hmeans := expansion_means hm.rowCount_eq (fun row hrow =>
    (m.length_row hrow).trans hm.columnCount_eq) hdefined
  have hconst := expansion_isConstant (n := n) (hm.all fun i j e he => he.isConstant)
  rw [hm.rowCount_eq]
  intro k
  obtain ⟨v, hv⟩ := Option.isSome_iff_exists.mp (hconst k)
  have hvalue := (hmeans k).value_eq
  rw [value_of_asConstant hv, hvalues] at hvalue
  rw [IsNumber, hv, hvalue]

/-! ## The theorem -/

/-- **The inverse is the inverse**, in exact arithmetic and wherever nothing is undefined, if the
elements are scoped in the same variables and their determinant is not zero.  Of constants, the
inverse is refused exactly if the constant that their determinant is equals zero, which over the
reals is the determinant in the usual sense; and it is refused of all matrices that are not
square. -/
theorem inverse_evaluation :
    (∀ (L : Ledger PartialReal) (S : Set NodeId) (s : Session PartialReal)
      (t : Store PartialReal) (n : Nat) (m : FormulaMatrix (Formula PartialReal)),
      s.nextId = L.next → t.Reachable → m.extent = ⟨n, n⟩ → m.Evaluable L S t →
      ∀ A : Matrix (Fin n) (Fin n) ℝ, (m.evaluate.run t).1 = ofMatrix A → A.det ≠ 0 →
      ∃ inverse k, m.inverse.run.run s = (.ok inverse, { s with nextId := k }) ∧
        EvaluatesTo (m.mul inverse) { s with nextId := k } t (1 : Matrix (Fin n) (Fin n) ℝ) ∧
        EvaluatesTo (inverse.mul m) { s with nextId := k } t (1 : Matrix (Fin n) (Fin n) ℝ)) ∧
    (∀ (α : Type) [Scalar α] (s : Session α) (m : FormulaMatrix (Formula α)),
      m.rowCount = m.columnCount → (∀ i j, (m.entry i j).isConstant = true) →
      ∃ d v k, m.determinant.run.run s = (.ok d, { s with nextId := k }) ∧
        d.asConstant = some v ∧
        ((v == 0) = true →
          m.inverse.run.run s = (.error .singularMatrix, { s with nextId := k })) ∧
        ((v == 0) = false → ∃ inverse k,
          m.inverse.run.run s = (.ok inverse, { s with nextId := k }))) ∧
    (∀ (s : Session PartialReal) (n : Nat) (A : Matrix (Fin n) (Fin n) ℝ)
      (m : FormulaMatrix (Formula PartialReal)),
      Entrywise (fun i j e => e.asConstant = some (real (A i j))) m →
      ((∃ s', m.inverse.run.run s = (.error .singularMatrix, s')) ↔ A.det = 0)) ∧
    ∀ (α : Type) [Scalar α] (s : Session α) (m : FormulaMatrix (Formula α)),
      m.rowCount ≠ m.columnCount → m.inverse.run.run s = (.error (.notSquare m.extent), s) := by
  refine ⟨?_, ?_, ?_, ?_⟩
  · intro L S s t n m hs ht hextent heval A hvalue hdet
    obtain ⟨B, hA⟩ := heval.denotes ht hextent
    obtain rfl : B = A := ofMatrix_injective ((hA.evaluate ht).symm.trans hvalue)
    obtain ⟨L', inverse, hL', hinverse, hrun⟩ := inverse_makes hA hdet s hs
    have hleft := mul_makes (hA.mono hL') hinverse
    have hright := mul_makes hinverse (hA.mono hL')
    rw [Matrix.mul_nonsing_inv B hdet.isUnit] at hleft
    rw [Matrix.nonsing_inv_mul B hdet.isUnit] at hright
    exact ⟨inverse, L'.next, hrun, hleft.evaluatesTo ht rfl, hright.evaluatesTo ht rfl⟩
  · intro α _ s m hsquare hconst
    obtain ⟨v, hv⟩ := Option.isSome_iff_exists.mp
      (expansion_isConstant (n := m.rowCount) (forall_of_entry hconst) s.nextId)
    have hrun := inverse_of_constant hsquare rfl hv
    refine ⟨_, v, _, determinant_run hsquare s, hv, fun hzero => ?_, fun hnonzero => ?_⟩
    · rw [hrun, if_pos hzero]
      rfl
    · rw [hrun, if_neg (by simp [hnonzero])]
      exact ⟨_, _, rfl⟩
  · intro s n A m hm
    have hrun := inverse_of_constant (hm.rowCount_eq.trans hm.columnCount_eq.symm) rfl
      (determinant_of_numbers hm s.nextId)
    rw [hrun]
    by_cases hdet : A.det = 0
    · rw [hdet, if_pos (by simp)]
      exact ⟨fun _ => rfl, fun _ => ⟨_, rfl⟩⟩
    · rw [if_neg (by simpa using hdet)]
      refine ⟨?_, fun h => absurd h hdet⟩
      rintro ⟨s', h⟩
      cases h
  · intro α _ s m hne
    have hsquare : m.isSquare = false := by simpa [isSquare] using hne
    rw [inverse, determinant, ExceptT.run_bind, StateT.run_bind, if_neg (by simp [hsquare])]
    rfl

/-- A matrix of variables, one of zeros and one of ones over the whole numbers and the reals, and
a row. -/
theorem inverse_evaluation_of_symmetric :
    let x : Formula PartialReal := node 2 (.var "x")
    let y : Formula PartialReal := node 3 (.var "y")
    let m : FormulaMatrix (Formula PartialReal) :=
      ⟨[[x, y], [y, x]], Rectangular.of_length (n := 2) (by simp)⟩
    let s : Session PartialReal := { Session.start with nextId := 4 }
    let t : Store PartialReal := (Store.empty.write 2 (real 2)).write 3 (real 1)
    let row : FormulaMatrix (Formula PartialReal) :=
      ⟨[[x, y]], Rectangular.of_length (n := 2) (by simp)⟩
    (∃ inverse k, m.inverse.run.run s = (.ok inverse, { s with nextId := k }) ∧
      EvaluatesTo (m.mul inverse) { s with nextId := k } t (1 : Matrix (Fin 2) (Fin 2) ℝ) ∧
      EvaluatesTo (inverse.mul m) { s with nextId := k } t (1 : Matrix (Fin 2) (Fin 2) ℝ)) ∧
    (∃ s', (zeros 1 1 : FormulaMatrix (Formula Int)).inverse.run.run Session.start =
      (.error .singularMatrix, s')) ∧
    ((∃ s', (identity 2 : FormulaMatrix (Formula PartialReal)).inverse.run.run s =
      (.error .singularMatrix, s')) ↔ (1 : Matrix (Fin 2) (Fin 2) ℝ).det = 0) ∧
    row.inverse.run.run s = (.error (.notSquare ⟨1, 2⟩), s) := by
  intro x y m s t row
  have ht : t.Reachable := .write (.write .empty 2 _) 3 _
  have hreadX : t.read 2 = real 2 := by simp [t, Store.read_write, Valuation.set]
  have hreadY : t.read 3 = real 1 := by simp [t, Store.read_write, Valuation.set]
  obtain ⟨hx, hy⟩ := evaluable_variables "x" "y" hreadX hreadY
  have heval : m.Evaluable (.ofNodes [x, y]) Set.univ t := by
    intro i j
    fin_cases i <;> fin_cases j <;> first | exact hx | exact hy
  have hvalue : (m.evaluate.run t).1 = ofMatrix !![2, 1; 1, 2] := by
    obtain ⟨A, hA⟩ := heval.denotes ht (r := 2) (k := 2) rfl
    have hentry : ∀ i j : Fin 2, value t.read (elementAt m.rows i j) = real (A i j) := fun i j =>
      (Entrywise.elementAt hA i j).value_eq
    have hA' : A = !![2, 1; 1, 2] := by
      ext i j
      have hij := hentry i j
      fin_cases i <;> fin_cases j <;>
        simpa [elementAt, m, x, y, value, hreadX, hreadY] using hij.symm
    rw [hA.evaluate ht, hA']
  have hdet : (!![2, 1; 1, 2] : Matrix (Fin 2) (Fin 2) ℝ).det ≠ 0 := by
    rw [Matrix.det_fin_two]
    norm_num
  refine ⟨inverse_evaluation.1 _ Set.univ s t 2 m rfl ht rfl heval _ hvalue hdet, ?_, ?_, ?_⟩
  · obtain ⟨d, v, k, hd, hv, hsingular, -⟩ := inverse_evaluation.2.1 Int Session.start (zeros 1 1)
      rfl (by
        intro i j
        fin_cases i
        fin_cases j
        rfl)
    obtain rfl : zero = d := Except.ok.inj (congrArg Prod.fst hd)
    obtain rfl := Option.some.inj hv
    exact ⟨_, hsingular rfl⟩
  · refine inverse_evaluation.2.2.1 s 2 1 (identity 2) (entrywise_ofFn id fun i j => ?_)
    fin_cases i <;> fin_cases j <;> rfl
  · exact inverse_evaluation.2.2.2 PartialReal s row (by decide)

/-- The only element is `t` times the zero of `1 - t`, three times one.  The matrix times its
inverse is a product of `t`, the solver and the quotient, where `t` is one once the quotient is
computed. -/
theorem inverse_sees_root :
    let e : Formula PartialReal := node 6 (.assoc .multiply [UnitRoot.t, UnitRoot.root])
    let m := single e
    let s : Session PartialReal := { Session.start with nextId := 7 }
    let t : Store PartialReal := Store.empty.write 2 (real 3)
    e.EvaluatesThroughout t ∧ (m.evaluate.run t).1 = ofMatrix !![3] ∧
      (!![3] : Matrix (Fin 1) (Fin 1) ℝ).det ≠ 0 ∧
      ∃ inverse p i k, m.inverse.run.run s = (.ok inverse, { s with nextId := i }) ∧
        (m.mul inverse).run.run { s with nextId := i } = (.ok p, { s with nextId := k }) ∧
        (p.evaluate.run t).1 = ofMatrix !![3] ∧ (!![3] : Matrix (Fin 1) (Fin 1) ℝ) ≠ 1 := by
  intro e m s t
  let inverse : Formula PartialReal := node 7 (.binary .divide one e)
  let L : Ledger PartialReal := (UnitRoot.ledger.add e.shape).add inverse.shape
  have hL : UnitRoot.ledger.Extends L := (Ledger.extends_add _ _).trans (Ledger.extends_add _ _)
  have ht : t.Reachable := .write .empty 2 _
  have hread : t.read 2 = real 3 := by simp [t, Store.read_write, Valuation.set]
  have hroot : UnitRoot.root.ListedIn L.directory := (UnitRoot.root_known.mono hL).listed
  have hadded : e.KnownTo (UnitRoot.ledger.add e.shape) := add_known (by
    simpa [e, shape, Shape.refs, Shape.children] using
      And.intro UnitRoot.t_known UnitRoot.root_known)
  have he : e.KnownTo L := hadded.mono (Ledger.extends_add _ _)
  have hinverse : inverse.KnownTo L := add_known (by
    simpa [inverse, shape, Shape.refs, Shape.children] using And.intro (one_known _) hadded)
  have hthree : (e.evaluate.run t).1 = real 3 := by
    rw [UnitRoot.evaluate_variable_ahead (x := 3) hroot ht.issued hread (by norm_num) (by simp)]
    simp [values, Scalar.productUntilZero]
  -- After the solver, the quotient finds one in the variable, and so its divisor is one.
  have hquotient : ∀ g, inverse.FitsIn L.directory g {2} fun _ => real 1 := by
    intro g
    have ht : UnitRoot.t.FitsIn L.directory g {2} fun _ => real 1 :=
      (UnitRoot.t_scoped (Set.mem_singleton 2)).fitsIn (UnitRoot.t_known.mono hL).listed
    have hone : (one : Formula PartialReal).FitsIn L.directory g {2} fun _ => real 1 :=
      ((scoped_admitsOperations _).const _ _).fitsIn (one_known L).listed
    have he : e.FitsIn L.directory g {2} fun _ => real 1 := .operation he.listed trivial (by
      simpa [Shape.children] using And.intro ht (UnitRoot.root_fitsIn hroot g rfl))
    exact .operation hinverse.listed trivial (by simpa [Shape.children] using And.intro hone he)
  have hdivide : divide one e = new (.binary .divide one e) := one_divide rfl
  have hflat : multiply e inverse =
      new (.assoc .multiply [UnitRoot.t, UnitRoot.root, inverse]) :=
    multiply_product_whole ⟨rfl, rfl, rfl⟩ ⟨rfl, rfl, rfl⟩ ⟨rfl, rfl, rfl⟩
  refine ⟨?_, ?_, ?_, single inverse, single (node 8 (.assoc .multiply
    [UnitRoot.t, UnitRoot.root, inverse])), 8, 9, ?_, ?_, ?_, ?_⟩
  · refine .node ?_ ?_
    · rw [hthree]
      simp
    · have hroot := UnitRoot.root_evaluable ht (Set.notMem_empty 2) hread
      have hvariable := UnitRoot.t_evaluable (Set.mem_univ 2) hread
      simpa [e, Shape.children] using And.intro hvariable.defined hroot.defined
  · rw [single_evaluate, hthree, ofMatrix_single]
  · simp
  · have hquotients : (m.quotients e).run 7 = (single inverse, 8) := by
      have hsteps : m.quotients e = (do return single (← divide one e)) := rfl
      rw [hsteps, hdivide]
      rfl
    rw [inverse_run (d := e) (n := 7) rfl rfl, hquotients]
    rfl
  · refine single_mul ?_ rfl rfl
    rw [hflat]
    rfl
  · rw [single_evaluate, ofMatrix_single,
      UnitRoot.evaluate_variable_ahead (x := 3) hroot ht.issued hread (by norm_num)
        (by simpa using hquotient _)]
    have hone : value (fun _ => real 1) inverse = real 1 := by
      have hroot := UnitRoot.value_root fun _ => real 1
      simp [inverse, e, UnitRoot.t, one, value, values, hroot, BinaryOp.apply, AssocOp.apply,
        Scalar.productUntilZero, safeDiv_real]
    simp [values, hone, Scalar.productUntilZero]
  · intro h
    have hentry := congrFun (congrFun h 0) 0
    norm_num at hentry

end FormulaMatrix

end FormulaGraph
