import FormulaGraph.FormulaMatrix
import FormulaGraph.Proofs.Ledger
import FormulaGraph.Proofs.Sequencing

/-!
# The layout of matrices

A matrix is kept as a list of rows.  What holds of each element, depending on its place, is said
of all rows and columns at once (`Entrywise`), with the extent of the matrix, which its rows alone
do not tell where there are none.  It passes through the operations that lay out a matrix anew,
and to what is built or answered element by element (`Entrywise.mapM`).
-/

namespace FormulaGraph

namespace FormulaMatrix

variable {ε δ : Type} {r c k : Nat}

/-! ## Element by element -/

/-- The matrix has `r` rows and `c` columns, and each element is as its place asks. -/
structure Entrywise (R : Fin r → Fin c → ε → Prop) (m : FormulaMatrix ε) : Prop where
  extent : m.extent = ⟨r, c⟩
  rows : List.Forall₂ (fun i => List.Forall₂ (R i) (List.finRange c)) (List.finRange r) m.rows

variable {R : Fin r → Fin c → ε → Prop} {m : FormulaMatrix ε}

/-- There are as many rows as the layout says. -/
theorem Entrywise.rowCount_eq (h : Entrywise R m) : m.rowCount = r := congrArg Extent.rows h.extent

/-- There are as many columns as the layout says. -/
theorem Entrywise.columnCount_eq (h : Entrywise R m) : m.columnCount = c :=
  congrArg Extent.columns h.extent

/-- What follows of each element follows of the whole matrix. -/
theorem Entrywise.imp {R' : Fin r → Fin c → ε → Prop} (h : Entrywise R m)
    (hR : ∀ i j e, R i j e → R' i j e) : Entrywise R' m :=
  ⟨h.extent, h.rows.imp fun i _ hrow => hrow.imp (hR i)⟩

/-- What holds of the element in every place. -/
theorem entrywise_of_entry {R : Fin m.rowCount → Fin m.columnCount → ε → Prop}
    (h : ∀ i j, R i j (m.entry i j)) : Entrywise R m := by
  refine ⟨rfl, List.forall₂_iff_get.mpr ⟨List.length_finRange, fun i hi hi' => ?_⟩⟩
  have hwidth : (m.rows.get ⟨i, hi'⟩).length = m.columnCount :=
    m.length_row (List.get_mem m.rows _)
  refine List.forall₂_iff_get.mpr ⟨List.length_finRange.trans hwidth.symm, fun j hj hj' => ?_⟩
  rw [List.get_finRange, List.get_finRange]
  exact h ⟨i, hi'⟩ ⟨j, hwidth ▸ hj'⟩

/-- Each element is as its place asks. -/
theorem Entrywise.entry {R : Fin m.rowCount → Fin m.columnCount → ε → Prop} (h : Entrywise R m)
    (i : Fin m.rowCount) (j : Fin m.columnCount) : R i j (m.entry i j) := by
  have hi : i.val < m.rows.length := i.isLt
  have hj : j.val < (m.rows.get ⟨i, hi⟩).length :=
    (m.length_row (List.get_mem m.rows _)).symm ▸ j.isLt
  have hrow := h.rows.get (List.length_finRange.symm ▸ hi) hi
  have helement := hrow.get (List.length_finRange.symm ▸ j.isLt) hj
  rw [List.get_finRange, List.get_finRange] at helement
  exact helement

/-! ## Laid out anew -/

/-- A matrix made of a function has the extent it was given, provided that without rows there
are no columns. -/
theorem extent_ofFn (f : Fin r → Fin c → ε) (h : r = 0 → c = 0) : (ofFn r c f).extent = ⟨r, c⟩ := by
  have hrows : (ofFn r c f).rowCount = r := by simp [rowCount, ofFn]
  have hcolumns : (ofFn r c f).columnCount = c := by
    cases r with
    | zero => exact (h rfl).symm
    | succ r => simp [columnCount, ofFn, width, List.finRange_succ]
  rw [extent, hrows, hcolumns]

/-- A matrix laid out by a function has what the function gives as its elements. -/
theorem entrywise_ofFn {f : Fin r → Fin c → ε} (h : r = 0 → c = 0) (hf : ∀ i j, R i j (f i j)) :
    Entrywise R (ofFn r c f) := by
  refine ⟨extent_ofFn f h, ?_⟩
  simp only [ofFn, List.forall₂_map_right_iff, List.forall₂_same]
  exact fun i _ j _ => hf i j

/-- A matrix without rows has no columns. -/
theorem columnCount_of_rowCount (m : FormulaMatrix ε) (h : m.rowCount = 0) : m.columnCount = 0 := by
  rw [columnCount, List.length_eq_zero_iff.mp h, width]

/-- Rows and columns change places, unless there are no columns to become rows. -/
theorem Entrywise.transpose (h : Entrywise R m) (hc : 0 < c) :
    Entrywise (fun j i => R i j) m.transpose := by
  obtain rfl := h.rowCount_eq
  obtain rfl := h.columnCount_eq
  exact entrywise_ofFn (fun hzero => absurd hzero (Nat.ne_of_gt hc)) fun j i => h.entry i j

/-- The rows of the left paired with the columns of the right are laid out as the product is. -/
theorem extent_crossings {a b : FormulaMatrix ε} (h : a.columnCount = b.rowCount) :
    (a.crossings b).extent = ⟨a.rowCount, b.columnCount⟩ := by
  have hrows : (a.crossings b).rowCount = a.rowCount := by simp [rowCount, crossings]
  have hcolumns : (a.crossings b).columnCount = b.columnCount := by
    by_cases hnone : a.rowCount = 0
    · rw [columnCount_of_rowCount _ (hrows.trans hnone), columnCount_of_rowCount b]
      rw [← h, columnCount_of_rowCount a hnone]
    · obtain ⟨row, rest, hcons⟩ := List.exists_cons_of_ne_nil fun hnil : a.rows = [] =>
        hnone (by rw [rowCount, hnil]; rfl)
      simp [columnCount, crossings, hcons, width, columns, transpose, ofFn]
  rw [extent, hrows, hcolumns]

/-- At each crossing there are a row of the left and a column of the right. -/
theorem Entrywise.crossings {R : Fin r → Fin k → ε → Prop} {R' : Fin k → Fin c → ε → Prop}
    {a b : FormulaMatrix ε} (ha : Entrywise R a) (hb : Entrywise R' b) :
    Entrywise (fun i j pair => List.Forall₂ (R i) (List.finRange k) pair.1 ∧
      List.Forall₂ (fun l e => R' l j e) (List.finRange k) pair.2) (a.crossings b) := by
  obtain rfl := hb.rowCount_eq
  obtain rfl := hb.columnCount_eq
  have hcolumns : List.Forall₂ (fun j => List.Forall₂ (fun l e => R' l j e)
      (List.finRange b.rowCount)) (List.finRange b.columnCount) b.columns := by
    simp only [columns, FormulaMatrix.transpose, ofFn, List.forall₂_map_right_iff,
      List.forall₂_same]
    exact fun j _ i _ => hb.entry i j
  refine ⟨?_, ?_⟩
  · rw [extent_crossings ha.columnCount_eq, ha.rowCount_eq]
  · simp only [FormulaMatrix.crossings, List.forall₂_map_right_iff]
    exact ha.rows.imp fun i row hrow => hcolumns.imp fun j column hcolumn => ⟨hrow, hcolumn⟩

/-! ## Built element by element -/

section Building

variable {α : Type} [Scalar α] {L : Ledger α} {f : ε → Fresh δ}

/-- A row is built element by element, and what was built stays, for the property lasts. -/
theorem mapRowM_builds {ι : Type} {K : ι → Ledger α → ε → Prop} {P : ι → Ledger α → δ → Prop}
    (hK : ∀ i, Lasting (K i)) (hP : ∀ i, Lasting (P i)) {is : List ι} {row : List ε}
    (hrow : List.Forall₂ (fun i e => K i L e) is row)
    (hf : ∀ i e L', L.Extends L' → K i L' e → Builds (f e) L' (P i)) :
    Builds (mapRowM f row) L fun L' out => List.Forall₂ (fun i d => P i L' d) is out.1 := by
  induction is generalizing row L with
  | nil =>
      cases hrow
      exact .pure .nil
  | cons i is ih =>
      obtain _ | ⟨he, hrow⟩ := hrow
      refine .bind (hf i _ L (.refl L) he) fun L₁ d hL₁ hd => ?_
      refine .bind (ih (hrow.imp fun i e h => hK i hL₁ h) fun i e L' hL' =>
        hf i e L' (hL₁.trans hL')) fun L₂ ds hL₂ hds => ?_
      exact .pure (.cons (hP i hL₂ hd) hds)

/-- Rows are built one after another. -/
theorem mapRowsM_builds {ι κ : Type} {K : ι → κ → Ledger α → ε → Prop}
    {P : ι → κ → Ledger α → δ → Prop} (hK : ∀ i j, Lasting (K i j)) (hP : ∀ i j, Lasting (P i j))
    {is : List ι} {js : List κ} {n : Nat} {rows : List (List ε)}
    (hn : ∀ row ∈ rows, row.length = n)
    (hrows : List.Forall₂ (fun i => List.Forall₂ (fun j e => K i j L e) js) is rows)
    (hf : ∀ i j e L', L.Extends L' → K i j L' e → Builds (f e) L' (P i j)) :
    Builds (mapRowsM f rows hn) L fun L' out =>
      List.Forall₂ (fun i => List.Forall₂ (fun j d => P i j L' d) js) is out.1 := by
  induction is generalizing rows L with
  | nil =>
      cases hrows
      exact .pure .nil
  | cons i is ih =>
      obtain _ | ⟨hrow, hrows⟩ := hrows
      refine .bind (mapRowM_builds (hK i) (hP i) hrow (hf i)) fun L₁ d hL₁ hd => ?_
      refine .bind (ih _ (hrows.imp fun i _ h => h.imp fun j _ h => hK i j hL₁ h)
        fun i j e L' hL' => hf i j e L' (hL₁.trans hL')) fun L₂ ds hL₂ hds => ?_
      exact .pure (.cons (hd.imp fun j _ h => hP i j hL₂ h) hds)

omit [Scalar α] in
/-- There are as many rows afterwards as before. -/
theorem mapRowsM_length {n : Nat} (f : ε → Fresh δ) (rows : List (List ε))
    (hn : ∀ row ∈ rows, row.length = n) :
    Yields (mapRowsM f rows hn) fun out => out.1.length = rows.length := by
  induction rows with
  | nil => exact .pure rfl
  | cons row rows ih =>
      refine .bind (.any _) fun d _ => .bind (ih _) fun ds hds => .pure ?_
      rw [List.length_cons, List.length_cons, hds]

omit [Scalar α] in
/-- What is built element by element is laid out as before. -/
theorem mapM_extent (f : ε → Fresh δ) (m : FormulaMatrix ε) :
    Yields (m.mapM f) fun out => out.extent = m.extent := by
  rw [mapM]
  refine .bind (mapRowsM_length f m.rows _) fun out hlength => .pure ?_
  obtain ⟨rows, hwidth⟩ := out
  have hcolumns : width rows = m.columnCount := by
    cases rows with
    | nil => exact (columnCount_of_rowCount m hlength.symm).symm
    | cons row rest => exact hwidth row List.mem_cons_self
  exact congrArg₂ Extent.mk hlength hcolumns

/-- **What is built for each element stands in its place.** -/
theorem Entrywise.mapM_builds {K : Fin r → Fin c → Ledger α → ε → Prop}
    {P : Fin r → Fin c → Ledger α → δ → Prop} (hK : ∀ i j, Lasting (K i j))
    (hP : ∀ i j, Lasting (P i j)) {m : FormulaMatrix ε} (hm : Entrywise (fun i j => K i j L) m)
    (hf : ∀ i j e L', L.Extends L' → K i j L' e → Builds (f e) L' (P i j)) :
    Builds (m.mapM f) L fun L' => Entrywise fun i j => P i j L' := by
  have hrows := mapRowsM_builds hK hP (fun _ hrow => m.length_row hrow) hm.rows hf
  have helements : Builds (m.mapM f) L fun L' out => List.Forall₂
      (fun i => List.Forall₂ (fun j d => P i j L' d) (List.finRange c)) (List.finRange r)
        out.rows := by
    rw [mapM]
    exact hrows.bind fun L' out _ h => .pure h
  exact (helements.and_yields (mapM_extent f m)).mono fun L' out _ h =>
    ⟨h.2.trans hm.extent, h.1⟩

end Building

/-! ## Answered element by element -/

section Answering

variable {M : Type → Type} [Monad M] {K : (β : Type) → M β → β → Prop}
  {f : ε → M δ} {F : ε → δ}

/-- The matrix with each element replaced. -/
def map (F : ε → δ) (m : FormulaMatrix ε) : FormulaMatrix δ where
  rows := m.rows.map (·.map F)
  rectangular := Rectangular.of_length (n := m.columnCount) fun row hrow => by
    obtain ⟨r, hr, rfl⟩ := List.mem_map.mp hrow
    rw [List.length_map, m.length_row hr]

/-- Applying a function to a matrix made of a function composes the two. -/
theorem map_ofFn (F : ε → δ) (f : Fin r → Fin c → ε) :
    (ofFn r c f).map F = ofFn r c fun i j => F (f i j) := by
  simp [map, ofFn, Function.comp_def]

/-- The element at a place is what was put there. -/
theorem get?_ofFn (f : Fin r → Fin c → ε) (i : Fin r) (j : Fin c) :
    (ofFn r c f).get? i j = some (f i j) := by
  simp [get?, ofFn]

/-- If each element of a row is answered, so is the row. -/
theorem mapRowM_answering (hK : Answering K) {row : List ε} (h : ∀ e ∈ row, K δ (f e) (F e)) :
    K _ (mapRowM f row) ⟨row.map F, List.length_map F⟩ := by
  induction row with
  | nil => exact hK.pure _
  | cons e es ih =>
      obtain ⟨he, hes⟩ := List.forall_mem_cons.mp h
      exact hK.bind he (hK.bind (ih hes) (hK.pure _))

/-- If each row is answered, so are all rows. -/
theorem mapRowsM_answering (hK : Answering K) {n : Nat} {rows : List (List ε)}
    (hn : ∀ row ∈ rows, row.length = n) (h : ∀ row ∈ rows, ∀ e ∈ row, K δ (f e) (F e)) :
    K _ (mapRowsM f rows hn) ⟨rows.map (·.map F), fun row hrow => by
      obtain ⟨r, hr, rfl⟩ := List.mem_map.mp hrow
      rw [List.length_map, hn r hr]⟩ := by
  induction rows with
  | nil => exact hK.pure _
  | cons row rows ih =>
      obtain ⟨hrow, hrows⟩ := List.forall_mem_cons.mp h
      exact hK.bind (mapRowM_answering hK hrow) (hK.bind (ih _ hrows) (hK.pure _))

/-- Element by element the answers are those of the elements. -/
theorem mapM_answering (hK : Answering K) {m : FormulaMatrix ε}
    (h : ∀ row ∈ m.rows, ∀ e ∈ row, K δ (f e) (F e)) : K _ (m.mapM f) (m.map F) :=
  hK.bind (mapRowsM_answering hK _ h) (hK.pure _)

end Answering

/-! ## Built in a session -/

section Session

variable {α β γ : Type}

/-- In a session the action does what the computation does, and uses up nothing but numbers. -/
def ActsAs (x : Action α β) (y : Fresh β) : Prop :=
  ∀ s : Session α, x.run.run s =
    (.ok (y.run s.nextId).1, { s with nextId := (y.run s.nextId).2 })

/-- An action that only hands back a result builds nothing. -/
theorem ActsAs.pure (b : β) : ActsAs (α := α) (Pure.pure b) (Pure.pure b) := fun _ => rfl

/-- Building nodes is an action that cannot fail. -/
theorem ActsAs.lift (y : Fresh β) : ActsAs (α := α) (liftM y : Action α β) y := fun _ => rfl

/-- Actions that cannot fail may be put one after another. -/
theorem ActsAs.bind {x : Action α β} {y : Fresh β} {f : β → Action α γ} {g : β → Fresh γ}
    (hx : ActsAs x y) (hf : ∀ b, ActsAs (f b) (g b)) : ActsAs (x >>= f) (y >>= g) := by
  intro s
  have hstep : (x >>= f).run.run s = (f (y.run s.nextId).1).run.run
      { s with nextId := (y.run s.nextId).2 } := by
    rw [ExceptT.run_bind, StateT.run_bind, hx s]
    rfl
  exact hstep.trans (hf _ _)

/-- Building a row within an action is building a row. -/
theorem mapRowM_acts {f : ε → Action α δ} {g : ε → Fresh δ} (h : ∀ e, ActsAs (f e) (g e))
    (row : List ε) : ActsAs (mapRowM f row) (mapRowM g row) := by
  induction row with
  | nil => exact .pure _
  | cons e es ih => exact (h e).bind fun d => ih.bind fun ds => .pure _

/-- A traversal of all rows acts as its steps do. -/
theorem mapRowsM_acts {f : ε → Action α δ} {g : ε → Fresh δ} (h : ∀ e, ActsAs (f e) (g e))
    {n : Nat} (rows : List (List ε)) (hn : ∀ row ∈ rows, row.length = n) :
    ActsAs (mapRowsM f rows hn) (mapRowsM g rows hn) := by
  induction rows with
  | nil => exact .pure _
  | cons row rows ih => exact (mapRowM_acts h row).bind fun d => (ih _).bind fun ds => .pure _

/-- A traversal of a matrix acts as its steps do. -/
theorem mapM_acts {f : ε → Action α δ} {g : ε → Fresh δ} (h : ∀ e, ActsAs (f e) (g e))
    (m : FormulaMatrix ε) : ActsAs (m.mapM f) (m.mapM g) :=
  (mapRowsM_acts h _ _).bind fun _ => .pure _

/-- From a session whose numbers the ledger accounts for, the action is not refused, uses up
nothing but numbers, and makes what satisfies `P`. -/
def Makes [Scalar α] (x : Action α β) (L : Ledger α) (P : Ledger α → β → Prop) : Prop :=
  ∀ s : Session α, s.nextId = L.next →
    ∃ L' b, L.Extends L' ∧ P L' b ∧ x.run.run s = (.ok b, { s with nextId := L'.next })

section Makes

variable [Scalar α] {L : Ledger α} {P : Ledger α → β → Prop} {Q : Ledger α → γ → Prop}
  {x : Action α β}

/-- What builds a result makes it, without a fault. -/
theorem ActsAs.makes {y : Fresh β} (hx : ActsAs x y) (hy : Builds y L P) : Makes x L P := by
  intro s hs
  obtain ⟨L', hL', hnext, hP⟩ := hy
  exact ⟨L', _, hL', hP, by rw [hx s, hs, hnext]⟩

/-- Results made one after another are made together. -/
theorem Makes.bind {f : β → Action α γ} (hx : Makes x L P)
    (hf : ∀ L' b, L.Extends L' → P L' b → Makes (f b) L' Q) : Makes (x >>= f) L Q := by
  intro s hs
  obtain ⟨L₁, b, hL₁, hb, hrun⟩ := hx s hs
  obtain ⟨L₂, c, hL₂, hc, hrest⟩ := hf L₁ b hL₁ hb { s with nextId := L₁.next } rfl
  refine ⟨L₂, c, hL₁.trans hL₂, hc, ?_⟩
  rw [ExceptT.run_bind, StateT.run_bind, hrun]
  exact hrest

/-- A result that is there already needs nothing to be made. -/
theorem Makes.pure {b : β} (h : P L b) : Makes (Pure.pure b) L P :=
  fun s hs => ⟨L, b, .refl L, h, by rw [← hs]; rfl⟩

end Makes

end Session

end FormulaMatrix

end FormulaGraph
