import FormulaGraph.FormulaMatrix
import FormulaGraph.Proofs.NeutralConstants
import FormulaGraph.Proofs.SubstitutedValue
import FormulaGraph.Proofs.WholeNumbers
import Mathlib.LinearAlgebra.Matrix.Determinant.Basic

/-!
# Determinants of matrices of formulas

The determinant is expanded along the first row, and what is left of the other rows without a
column is laid out anew for each of its elements.  Read as numbers, this is the expansion of a
determinant in the usual sense (`det_cons`), and the rules of construction keep the value of
every product, sign and sum on the way (`expansion_means`).

So the determinant evaluates to the determinant of the values of the elements
(`determinant_evaluation`), as long as the solvers among them keep to themselves: a determinant
is evaluated in one pass, and an element that reads the variable of a solver sees the root if it
comes after it (`determinant_sees_root`).
-/

namespace FormulaGraph

namespace FormulaMatrix

open Formula

variable {α : Type} [Scalar α]

/-! ## The expansion -/

/-- The term for the element in column `j` of the first row: the element times the determinant
of the other rows without that column, with the sign of the place. -/
def expansionTerm (n : Nat) (rest : List (List (Formula α))) (place : Formula α × Nat) :
    Fresh (Formula α) := do
  let term ← multiply place.1 (← expansion n (rest.map (·.eraseIdx place.2)))
  if place.2 % 2 = 0 then pure term else negate term

theorem expansion_zero (rows : List (List (Formula α))) : expansion 0 rows = pure one := by
  unfold expansion
  rfl

theorem expansion_nil (n : Nat) : expansion n ([] : List (List (Formula α))) = pure one := by
  unfold expansion
  cases n with
  | zero => rfl
  | succ n => cases n <;> rfl

/-- A single element is its own determinant; otherwise the terms of the first row are added. -/
theorem expansion_cons (n : Nat) (row : List (Formula α)) (rest : List (List (Formula α))) :
    (n = 0 ∧ ∃ e, row = [e] ∧ expansion (n + 1) (row :: rest) = pure e) ∨
      expansion (n + 1) (row :: rest) = row.zipIdx.mapM (expansionTerm n rest) >>= sum := by
  unfold expansion
  split
  · next hn hrows =>
      obtain ⟨rfl, rfl⟩ := List.cons.inj hrows
      exact .inl ⟨Nat.succ.inj hn, _, rfl, rfl⟩
  · next hn hrows =>
      obtain ⟨rfl, rfl⟩ := List.cons.inj hrows
      obtain rfl := Nat.succ.inj hn
      exact .inr rfl
  · next hnot => exact (hnot n row rest rfl rfl).elim

omit [Scalar α] in
theorem mem_of_mem_zipIdx {row : List (Formula α)} {place : Formula α × Nat}
    (h : place ∈ row.zipIdx) : place.1 ∈ row ∧ place.2 < row.length := by
  obtain ⟨e, j⟩ := place
  obtain ⟨-, hj, he⟩ := List.mem_zipIdx h
  rw [Nat.zero_add] at hj
  exact ⟨he ▸ List.getElem_mem _, hj⟩

omit [Scalar α] in
/-- What holds of all elements holds of those that are left without a column. -/
theorem forall_eraseIdx {rest : List (List (Formula α))} {Q : Formula α → Prop}
    (h : ∀ row ∈ rest, ∀ e ∈ row, Q e) (j : Nat) :
    ∀ row ∈ rest.map (·.eraseIdx j), ∀ e ∈ row, Q e := by
  intro row hrow e he
  obtain ⟨r, hr, rfl⟩ := List.mem_map.mp hrow
  exact h r hr e (List.mem_of_mem_eraseIdx he)

/-! ### What the expansion is made of -/

section Members

variable {A : Formula α → Prop} {L : Ledger α}

/-- A property that operations have exactly if their arguments do is handed on by the elements to
the determinant. -/
theorem expansion_builds (hA : AdmitsOperations A) {n : Nat} {rows : List (List (Formula α))}
    (hrows : ∀ row ∈ rows, ∀ e ∈ row, e.Member A L) :
    Builds (expansion n rows) L fun L' e => e.Member A L' := by
  induction n generalizing rows L with
  | zero =>
      rw [expansion_zero]
      exact .pure (one_member hA)
  | succ n ih =>
      cases rows with
      | nil =>
          rw [expansion_nil]
          exact .pure (one_member hA)
      | cons row rest =>
          obtain ⟨hrow, hrest⟩ := List.forall_mem_cons.mp hrows
          obtain ⟨-, e, rfl, hsingle⟩ | hterms := expansion_cons n row rest
          · rw [hsingle]
            exact .pure (hrow e List.mem_cons_self)
          rw [hterms]
          refine .bind (.mapM Member.lasting fun place hplace L' hL' => ?_) fun L' terms _ h =>
            assoc_builds hA .add h
          have he := (hrow place.1 (mem_of_mem_zipIdx hplace).1).mono hL'
          rw [expansionTerm]
          refine .bind (ih (forall_eraseIdx (fun r hr e he => (hrest r hr e he).mono hL') _))
            fun L₁ d hL₁ hd => ?_
          have hfactors : ∀ c ∈ [place.1, d], c.Member A L₁ :=
            List.forall_mem_cons.mpr ⟨he.mono hL₁, by simpa using hd⟩
          refine .bind (assoc_builds hA .multiply hfactors) fun L₂ term _ hterm => ?_
          split
          · exact .pure hterm
          · exact unary_builds hA .negate hterm

end Members

/-! ### Constants -/

/-- Operations on constants are constants. -/
theorem build_isConstant {shape : Shape α (Formula α)} {rule : Option (Fresh (Formula α))}
    (hshape : shape.IsOperation) (hleaf : ∀ v, shape ≠ .const v)
    (h : ∀ c ∈ shape.children, c.isConstant = true) :
    Yields (build shape rule) fun e => e.isConstant = true := by
  rw [build, foldConstants_of_isConstant hshape hleaf h]
  exact .new fun _ => rfl

/-- The determinant of constants is a constant. -/
theorem expansion_isConstant {n : Nat} {rows : List (List (Formula α))}
    (hrows : ∀ row ∈ rows, ∀ e ∈ row, e.isConstant = true) :
    Yields (expansion n rows) fun e => e.isConstant = true := by
  induction n generalizing rows with
  | zero =>
      rw [expansion_zero]
      exact .pure rfl
  | succ n ih =>
      cases rows with
      | nil =>
          rw [expansion_nil]
          exact .pure rfl
      | cons row rest =>
          obtain ⟨hrow, hrest⟩ := List.forall_mem_cons.mp hrows
          obtain ⟨-, e, rfl, hsingle⟩ | hterms := expansion_cons n row rest
          · rw [hsingle]
            exact .pure (hrow e List.mem_cons_self)
          rw [hterms]
          refine .bind (.mapM (R := fun _ e => e.isConstant = true) fun place hplace => ?_)
            fun terms h => build_isConstant trivial (by simp) (forall_of_forall₂ h fun _ _ h => h)
          have he := hrow place.1 (mem_of_mem_zipIdx hplace).1
          rw [expansionTerm]
          refine .bind (ih (forall_eraseIdx hrest _)) fun d hd => ?_
          refine .bind (build_isConstant trivial (by simp) (by simp [Shape.children, he, hd]))
            fun term hterm => ?_
          split
          · exact .pure hterm
          · exact build_isConstant trivial (by simp) (by simpa [Shape.children] using hterm)

/-! ### Values -/

section Values

open PartialReal

variable {ρ : Valuation PartialReal}

/-- The element in row `i` and column `j` of several rows; zero where there is none. -/
def elementAt (rows : List (List (Formula α))) (i j : Nat) : Formula α :=
  (rows[i]?.bind (·[j]?)).getD zero

/-- The real values of the elements of `n` rows. -/
noncomputable def realMatrix (ρ : Valuation PartialReal) (n : Nat)
    (rows : List (List (Formula PartialReal))) : Matrix (Fin n) (Fin n) ℝ :=
  Matrix.of fun i j => realValue ρ (elementAt rows i j)

/-- Below the first row, what is left without a column are the elements before and after it. -/
theorem elementAt_eraseIdx (row : List (Formula α)) (rest : List (List (Formula α)))
    (i j k : Nat) : elementAt (rest.map (·.eraseIdx j)) i k =
      elementAt (row :: rest) (i + 1) (if k < j then k else k + 1) := by
  rw [elementAt, elementAt, List.getElem?_map, List.getElem?_cons_succ]
  cases rest[i]? with
  | none => rfl
  | some r =>
      rw [Option.map_some, Option.bind_some, Option.bind_some, List.getElem?_eraseIdx]
      split <;> rfl

theorem realMatrix_eraseIdx (ρ : Valuation PartialReal) {n : Nat}
    (row : List (Formula PartialReal)) (rest : List (List (Formula PartialReal)))
    (j : Fin (n + 1)) :
    realMatrix ρ n (rest.map (·.eraseIdx j)) =
      (realMatrix ρ (n + 1) (row :: rest)).submatrix Fin.succ j.succAbove := by
  ext i k
  have hcolumn : (j.succAbove k : ℕ) = if (k : ℕ) < j then (k : ℕ) else k + 1 := by
    rw [Fin.succAbove]
    split_ifs <;> simp_all [Fin.lt_def]
  rw [realMatrix, Matrix.of_apply, elementAt_eraseIdx row, ← hcolumn]
  rfl

/-- Expansion along the first row. -/
theorem det_cons (ρ : Valuation PartialReal) {n : Nat} {row : List (Formula PartialReal)}
    (hrow : row.length = n + 1) (rest : List (List (Formula PartialReal))) :
    (realMatrix ρ (n + 1) (row :: rest)).det =
      (row.zipIdx.map fun place => (-1) ^ place.2 * realValue ρ place.1 *
        (realMatrix ρ n (rest.map (·.eraseIdx place.2))).det).sum := by
  have hterms : (row.zipIdx.map fun place => (-1) ^ place.2 * realValue ρ place.1 *
      (realMatrix ρ n (rest.map (·.eraseIdx place.2))).det) =
      List.ofFn fun j : Fin (n + 1) => (-1) ^ (j : ℕ) * realMatrix ρ (n + 1) (row :: rest) 0 j *
        ((realMatrix ρ (n + 1) (row :: rest)).submatrix Fin.succ j.succAbove).det := by
    refine List.ext_getElem (by simp [hrow]) fun j hj hj' => ?_
    have hlt : j < row.length := by simpa using hj
    have helement : realMatrix ρ (n + 1) (row :: rest) 0 ⟨j, hrow ▸ hlt⟩ = realValue ρ row[j] := by
      rw [realMatrix, Matrix.of_apply, elementAt]
      simp [hlt]
    simp only [List.getElem_map, List.getElem_zipIdx, List.getElem_ofFn, Nat.zero_add, helement,
      ← realMatrix_eraseIdx]
  rw [hterms, List.sum_ofFn, Matrix.det_succ_row_zero]

/-- A term means the element times the determinant of what is left, with the sign of the
place. -/
theorem expansionTerm_means {n : Nat} {rest : List (List (Formula PartialReal))}
    {place : Formula PartialReal × Nat} {x : ℝ} (he : place.1.Defined ρ)
    (hrest : Yields (expansion n (rest.map (·.eraseIdx place.2))) (Means ρ (real x))) :
    Yields (expansionTerm n rest place)
      (Means ρ (real ((-1) ^ place.2 * realValue ρ place.1 * x))) := by
  rw [expansionTerm]
  refine .bind hrest fun d hd => ?_
  have hfactors : ∀ c ∈ [place.1, d], c.Defined ρ := by simpa using ⟨he, hd.defined_of_real⟩
  have hamount : AssocOp.multiply.amount ([place.1, d].map (realValue ρ)) =
      realValue ρ place.1 * x := by
    rw [AssocOp.amount, List.map_cons, List.map_singleton, realValue_eq hd.value_eq, List.prod_pair]
  have hproduct := assoc_means .multiply hfactors
  rw [hamount] at hproduct
  refine .bind hproduct fun term hterm => ?_
  split
  · next heven =>
      rw [(Nat.even_iff.mpr heven).neg_one_pow, one_mul]
      exact .pure hterm
  · next hodd =>
      have hnegate := unary_means .negate hterm.defined_of_real
      rw [hterm.value_eq, UnaryOp.apply, neg_real] at hnegate
      rw [(Nat.not_even_iff_odd.mp fun h => hodd (Nat.even_iff.mp h)).neg_one_pow, mul_assoc,
        neg_one_mul]
      exact hnegate

theorem map_realValue {δ : Type} {g : δ → ℝ} {ds : List δ} {es : List (Formula PartialReal)}
    (h : List.Forall₂ (fun d e => Means ρ (real (g d)) e) ds es) :
    es.map (realValue ρ) = ds.map g := by
  induction h with
  | nil => rfl
  | cons hhead _ ih => rw [List.map_cons, List.map_cons, ih, realValue_eq hhead.value_eq]

/-- **The expansion of a square matrix means the determinant of the values.** -/
theorem expansion_means {n : Nat} {rows : List (List (Formula PartialReal))}
    (hcount : rows.length = n) (hlength : ∀ row ∈ rows, row.length = n)
    (hdefined : ∀ row ∈ rows, ∀ e ∈ row, e.Defined ρ) :
    Yields (expansion n rows) (Means ρ (real (realMatrix ρ n rows).det)) := by
  induction n generalizing rows with
  | zero =>
      rw [Matrix.det_fin_zero, expansion_zero]
      exact .pure one_means
  | succ n ih =>
      obtain ⟨row, rest, rfl⟩ := List.exists_cons_of_length_eq_add_one hcount
      obtain ⟨hrow, hrest⟩ := List.forall_mem_cons.mp hdefined
      obtain ⟨hwidth, hwidths⟩ := List.forall_mem_cons.mp hlength
      obtain ⟨rfl, e, rfl, hsingle⟩ | hterms := expansion_cons n row rest
      · have he := hrow e List.mem_cons_self
        rw [hsingle, Matrix.det_fin_one]
        show Yields _ (Means ρ (real (realValue ρ e)))
        rw [← he.value_eq]
        exact .pure he.means
      rw [hterms, det_cons ρ hwidth]
      refine .bind (.mapM (R := fun place => Means ρ (real ((-1) ^ place.2 *
        realValue ρ place.1 * (realMatrix ρ n (rest.map (·.eraseIdx place.2))).det)))
        fun place hplace => ?_) fun terms hmeans => ?_
      · obtain ⟨hmem, hj⟩ := mem_of_mem_zipIdx hplace
        refine expansionTerm_means (hrow place.1 hmem) (ih ?_ ?_ (forall_eraseIdx hrest _))
        · simpa using hcount
        · intro r hr
          obtain ⟨r', hr', rfl⟩ := List.mem_map.mp hr
          rw [List.length_eraseIdx_of_lt (by rw [hwidths r' hr']; omega), hwidths r' hr',
            Nat.add_sub_cancel]
      · have hsum := assoc_means .add (forall_of_forall₂ hmeans fun _ _ h => h.defined_of_real)
        rwa [AssocOp.amount, map_realValue hmeans] at hsum

end Values

/-! ## Determinants in a session -/

omit [Scalar α] in
/-- What holds of the element in every place holds of all elements. -/
theorem forall_of_entry {m : FormulaMatrix (Formula α)} {Q : Formula α → Prop}
    (h : ∀ i j, Q (m.entry i j)) : ∀ row ∈ m.rows, ∀ e ∈ row, Q e := by
  intro row hrow e he
  obtain ⟨i, rfl⟩ := List.mem_iff_get.mp hrow
  obtain ⟨j, rfl⟩ := List.mem_iff_get.mp he
  exact h i (j.cast (m.length_row hrow))

theorem elementAt_rows (m : FormulaMatrix (Formula α)) (i : Fin m.rowCount)
    (j : Fin m.columnCount) : elementAt m.rows i j = m.entry i j := by
  have hi : (i : ℕ) < m.rows.length := i.isLt
  have hj : (j : ℕ) < m.rows[(i : ℕ)].length := (m.length_row (List.getElem_mem hi)).symm ▸ j.isLt
  rw [elementAt, List.getElem?_eq_getElem hi, Option.bind_some, List.getElem?_eq_getElem hj]
  rfl

/-- The determinant of a square matrix is its expansion, and nothing but numbers is used up. -/
theorem determinant_run {m : FormulaMatrix (Formula α)} (h : m.rowCount = m.columnCount)
    (s : Session α) : m.determinant.run.run s =
      (.ok ((expansion m.rowCount m.rows).run s.nextId).1,
        { s with nextId := ((expansion m.rowCount m.rows).run s.nextId).2 }) := by
  have hsquare : m.isSquare = true := by rw [isSquare, h, beq_self_eq_true]
  rw [determinant, if_pos hsquare]
  rfl

end FormulaMatrix

namespace Formula

open PartialReal

/-- A product of one and another factor is that factor. -/
theorem product_with_one {e : Formula PartialReal} {args : List (Formula PartialReal)}
    (hargs : args = [one, e] ∨ args = [e, one]) (hconst : e.isConstant = false)
    (hassoc : e.isAssoc .multiply = false) : product args = pure e := by
  have hone : (one : Formula PartialReal).IsNumber 1 := rfl
  rcases hargs with rfl | rfl
  · exact assoc_beside_neutral (by simp) hconst hassoc [one] [] (by
      simpa using hone.neutral_multiply)
  · exact multiply_one hconst hassoc hone

end Formula

namespace FormulaMatrix

open Formula PartialReal

/-- **The determinant evaluates to the determinant of what its elements evaluate to**, the sum
over all permutations, wherever nothing is undefined and the elements are scoped in the same
variables, as they are if they hold no solver.  And the determinant of constants is a constant,
whatever the numbers are. -/
theorem determinant_evaluation :
    (∀ (L : Ledger PartialReal) (S : Set NodeId) (s : Session PartialReal)
      (m : FormulaMatrix (Formula PartialReal)) (hsquare : m.rowCount = m.columnCount)
      (a : Fin m.rowCount → Fin m.rowCount → ℝ),
      s.nextId = L.next → s.store.Reachable → (∀ i j, (m.entry i j).KnownTo L) →
      (∀ i j, (m.entry i j).Scoped S) → (∀ i j, (m.entry i j).EvaluatesThroughout s.store) →
      (∀ i j, ((m.entry i (j.cast hsquare)).evaluate.run s.store).1 = real (a i j)) →
      ∃ d n, m.determinant.run.run s = (.ok d, { s with nextId := n }) ∧
        (d.evaluate.run s.store).1 =
          real (∑ σ : Equiv.Perm (Fin m.rowCount), Equiv.Perm.sign σ • ∏ i, a (σ i) i)) ∧
    ∀ (α : Type) [Scalar α] (s : Session α) (m : FormulaMatrix (Formula α)),
      m.rowCount = m.columnCount → (∀ i j, (m.entry i j).isConstant = true) →
      ∃ d n, m.determinant.run.run s = (.ok d, { s with nextId := n }) ∧
        d.isConstant = true := by
  refine ⟨?_, ?_⟩
  · intro L S s m hsquare a hnext hs hknown hscoped hdefined helements
    refine ⟨_, _, determinant_run hsquare s, ?_⟩
    have hmember : ∀ row ∈ m.rows, ∀ e ∈ row, e.Member (Scoped S) L :=
      forall_of_entry fun i j => ⟨hknown i j, hscoped i j⟩
    have hvalues : realMatrix s.store.read m.rowCount m.rows = Matrix.of a := by
      ext i j
      have helement : elementAt m.rows i j = m.entry i (j.cast hsquare) :=
        elementAt_rows m i (j.cast hsquare)
      have hvalue := evaluate_scoped (hscoped i (j.cast hsquare)) (hknown _ _).listed hs
        fun _ _ => rfl
      show realValue s.store.read (elementAt m.rows i j) = a i j
      exact realValue_eq (by rw [helement, ← hvalue, helements])
    have hmeans := expansion_means (n := m.rowCount) (ρ := s.store.read) rfl
      (fun row hrow => (m.length_row hrow).trans hsquare.symm)
      (forall_of_entry fun i j =>
        (hdefined i j).defined_of_scoped hs (hscoped i j) (hknown i j).listed)
    obtain ⟨L', -, -, hd, hvalue⟩ :=
      (expansion_builds (scoped_admitsOperations S) hmember).and_yields hmeans
    rw [hnext, evaluate_scoped hd.holds hd.known.listed hs fun _ _ => rfl, hvalue.value_eq, hvalues,
      Matrix.det_apply]
    rfl
  · intro α _ s m hsquare hconst
    exact ⟨_, _, determinant_run hsquare s, expansion_isConstant (forall_of_entry hconst) _⟩

/-- Numbers and variables, and a matrix of constants over the whole numbers. -/
theorem determinant_evaluation_of_symmetric :
    let x : Formula PartialReal := node 2 (.var "x")
    let y : Formula PartialReal := node 3 (.var "y")
    let m : FormulaMatrix (Formula PartialReal) :=
      ⟨[[x, y], [y, x]], Rectangular.of_length (n := 2) (by simp)⟩
    let s : Session PartialReal :=
      { Session.start with nextId := 4, store := (Store.empty.write 2 (real 2)).write 3 (real 1) }
    let a : Fin 2 → Fin 2 → ℝ := ![![2, 1], ![1, 2]]
    let units : FormulaMatrix (Formula Int) := identity 2
    (∃ d n, m.determinant.run.run s = (.ok d, { s with nextId := n }) ∧
      (d.evaluate.run s.store).1 =
        real (∑ σ : Equiv.Perm (Fin 2), Equiv.Perm.sign σ • ∏ i, a (σ i) i)) ∧
      ∃ d n, units.determinant.run.run Session.start =
        (.ok d, { (Session.start : Session Int) with nextId := n }) ∧ d.isConstant = true := by
  intro x y m s a units
  have hknown : ∀ {e}, e ∈ [x, y] → e.KnownTo (.ofNodes [x, y]) :=
    ofNodes_known rfl (by simp [x, y, Shape.refs, Shape.children])
  have hs : s.store.Reachable := .write (.write .empty 2 _) 3 _
  have hreadX : s.store.read 2 = real 2 := by simp [s, Store.read_write, Valuation.set]
  have hreadY : s.store.read 3 = real 1 := by simp [s, Store.read_write, Valuation.set]
  have hleaf : ∀ {d : Formula PartialReal}, d = x ∨ d = y →
      d.KnownTo (.ofNodes [x, y]) ∧ d.Scoped Set.univ := by
    intro d hd
    refine ⟨hknown (by simpa using hd), ?_⟩
    obtain rfl | rfl := hd <;> simp [x, y, scoped_iff, Shape.passParts, Shape.children]
  have hvalueX : (x.evaluate.run s.store).1 = real 2 := by
    rw [evaluate_scoped (hleaf (.inl rfl)).2 (hleaf (.inl rfl)).1.listed hs fun _ _ => rfl]
    simp [x, value, hreadX]
  have hvalueY : (y.evaluate.run s.store).1 = real 1 := by
    rw [evaluate_scoped (hleaf (.inr rfl)).2 (hleaf (.inr rfl)).1.listed hs fun _ _ => rfl]
    simp [y, value, hreadY]
  have hentry : ∀ (i : Fin m.rowCount) (j : Fin m.columnCount),
      m.entry i j = x ∨ m.entry i j = y := by
    intro i j
    fin_cases i <;> fin_cases j <;> first | exact .inl rfl | exact .inr rfl
  refine ⟨determinant_evaluation.1 _ Set.univ s m rfl a rfl hs (fun i j => (hleaf (hentry i j)).1)
    (fun i j => (hleaf (hentry i j)).2) ?_ ?_, determinant_evaluation.2 Int _ units rfl ?_⟩
  · intro i j
    rcases hentry i j with h | h
    · rw [h]
      exact .node (hvalueX ▸ by simp) (by simp [Shape.children])
    · rw [h]
      exact .node (hvalueY ▸ by simp) (by simp [Shape.children])
  · intro i j
    fin_cases i <;> fin_cases j
    · exact hvalueX
    · exact hvalueY
    · exact hvalueY
    · exact hvalueX
  · intro i j
    fin_cases i <;> fin_cases j <;> rfl

/-- An element that reads the variable of a solver: on its own it evaluates to what the variable
holds, here three, but the determinant comes to it after the solver, which has left its root, one,
there. -/
theorem determinant_sees_root :
    let t : Formula PartialReal := node 2 (.var "t")
    let two : Formula PartialReal := node 3 (.const (real 2))
    let body : Formula PartialReal := node 4 (.binary .subtract one t)
    let q : Solver PartialReal (Formula PartialReal) :=
      { body, bound := ⟨2, "t"⟩, low := zero, high := two, precision := two, guard := none }
    let root : Formula PartialReal := node 5 (.solver q)
    let minusT : Formula PartialReal := node 6 (.unary .negate t)
    let m : FormulaMatrix (Formula PartialReal) :=
      ⟨[[one, minusT], [one, root]], Rectangular.of_length (n := 2) (by simp)⟩
    let s : Session PartialReal :=
      { Session.start with nextId := 7, store := Store.empty.write 2 (real 3) }
    let a : Fin 2 → Fin 2 → ℝ := ![![1, -3], ![1, 1]]
    (∀ i j : Fin 2, (m.entry i j).EvaluatesThroughout s.store ∧
      ((m.entry i j).evaluate.run s.store).1 = real (a i j)) ∧
      ∑ σ : Equiv.Perm (Fin 2), Equiv.Perm.sign σ • ∏ i, a (σ i) i = 4 ∧
      ∃ d n, m.determinant.run.run s = (.ok d, { s with nextId := n }) ∧
        d.EvaluatesThroughout s.store ∧ (d.evaluate.run s.store).1 = real 2 := by
  intro t two body q root minusT m s a
  have hknown : ∀ {e}, e ∈ [t, two, body, root, minusT] →
      e.KnownTo (.ofNodes [t, two, body, root, minusT]) :=
    ofNodes_known rfl (by
      simp [t, two, body, q, root, minusT, zero, one, Shape.refs, Shape.children, Solver.refs,
        Solver.children, Variable.formula])
  have hs : s.store.Reachable := .write .empty 2 _
  have hread : s.store.read 2 = real 3 := by simp [s, Store.read_write, Valuation.set]
  have hroot : (node 5 (.solver (unitSolver 4 3 ⟨2, "t"⟩))).ListedIn _ :=
    (hknown (e := root) (by simp)).listed
  have hminusT := (hknown (e := minusT) (by simp)).listed
  have hscopedMinusT : minusT.Scoped {2} := by
    simp [minusT, t, scoped_iff, Shape.passParts, Shape.children]
  have hrootAt : (root.evaluate.run s.store).1 = real 1 := evaluate_unitSolver hroot hs
  have hminusTAt : (minusT.evaluate.run s.store).1 = real (-3) := by
    rw [evaluate_scoped hscopedMinusT hminusT hs fun _ _ => rfl]
    simp [minusT, t, value, hread, UnaryOp.apply]
  have honeAt : (one.evaluate.run s.store).1 = real 1 := rfl
  have hthroughoutOne : one.EvaluatesThroughout s.store :=
    .node (honeAt ▸ by simp) (by simp [Shape.children])
  have hthroughoutRoot : root.EvaluatesThroughout s.store :=
    evaluatesThroughout_unitSolver hroot hs hread
  have hthroughoutMinusT : minusT.EvaluatesThroughout s.store := by
    rw [hscopedMinusT.evaluatesThroughout_iff hminusT hs]
    simp [minusT, t, forall_within_node, Shape.children, value, UnaryOp.apply, hread]
  have hthroughoutT : t.EvaluatesThroughout s.store := fun d hd =>
    hthroughoutMinusT d (.child List.mem_cons_self hd)
  have hexpansion : (expansion 2 [[one, minusT], [one, root]]).run 7 =
      (node 7 (.assoc .add [root, t]), 8) := by
    have hleft : multiply one root = pure root := product_with_one (.inl rfl) rfl rfl
    have hright : multiply minusT one = pure minusT := product_with_one (.inr rfl) rfl rfl
    have hnegate : negate minusT = pure t := rfl
    have hsum : sum [root, t] = new (.assoc .add [root, t]) := rfl
    simp [expansion, hleft, hright, hnegate, hsum]
    rfl
  have hresult : ((node 7 (.assoc .add [root, t])).evaluate.run s.store).1 = real 2 := by
    rw [evaluate_beside_solver (i := 5) (q := q) hs hrootAt rfl]
    simp [sum_eq]
    norm_num
  refine ⟨?_, ?_, ?_⟩
  · intro i j
    fin_cases i <;> fin_cases j
    · exact ⟨hthroughoutOne, honeAt⟩
    · exact ⟨hthroughoutMinusT, hminusTAt⟩
    · exact ⟨hthroughoutOne, honeAt⟩
    · exact ⟨hthroughoutRoot, hrootAt⟩
  · refine (Matrix.det_apply (Matrix.of a)).symm.trans ?_
    rw [Matrix.det_fin_two]
    norm_num [a]
  · refine ⟨node 7 (.assoc .add [root, t]), 8, ?_, ?_, hresult⟩
    · rw [determinant_run rfl]
      show (Except.ok ((expansion 2 [[one, minusT], [one, root]]).run 7).1,
        { s with nextId := ((expansion 2 [[one, minusT], [one, root]]).run 7).2 }) = _
      rw [hexpansion]
    · refine .node (hresult ▸ by simp) ?_
      simpa [Shape.children] using And.intro hthroughoutRoot hthroughoutT

end FormulaMatrix

end FormulaGraph
