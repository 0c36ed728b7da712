import FormulaGraph.Proofs.FormulasOver
import FormulaGraph.Proofs.MatrixAlgebra
import FormulaGraph.Proofs.PointValues

/-!
# Rotation matrices

The matrix that turns one axis towards another turns vectors about the third axis, one way or the
other (`Turn.matrix_mulVec`).  So a point may be turned by a matrix or about an angle vector: both
evaluate to the same (`rotation_evaluation`), if the angle and the coordinates are scoped alike.

A matrix of a turn and that of the turn back are made of nothing but the angle.  Their product
evaluates to the identity wherever the angle evaluates to a number, whatever is in it.
-/

namespace FormulaGraph

open PartialReal Matrix

namespace Turn

/-- The turn of the same plane the other way around. -/
def reverse : Turn → Turn
  | xToY => yToX
  | yToX => xToY
  | yToZ => zToY
  | zToY => yToZ
  | xToZ => zToX
  | zToX => xToZ

/-- The axis about which the turn is clockwise, as seen from its tip. -/
def axis : Turn → Fin 3 → ℝ
  | xToY => ![0, 0, -1]
  | yToX => ![0, 0, 1]
  | yToZ => ![-1, 0, 0]
  | zToY => ![1, 0, 0]
  | xToZ => ![0, 1, 0]
  | zToX => ![0, -1, 0]

/-- The matrix of the turn by an angle with the given cosine and sine. -/
def matrix (turn : Turn) (c s : ℝ) : Matrix (Fin 3) (Fin 3) ℝ :=
  match turn with
  | xToY => !![c, -s, 0; s, c, 0; 0, 0, 1]
  | yToX => !![c, s, 0; -s, c, 0; 0, 0, 1]
  | yToZ => !![1, 0, 0; 0, c, -s; 0, s, c]
  | zToY => !![1, 0, 0; 0, c, s; 0, -s, c]
  | xToZ => !![c, 0, -s; 0, 1, 0; s, 0, c]
  | zToX => !![c, 0, s; 0, 1, 0; -s, 0, c]

theorem axis_dot_self (turn : Turn) : turn.axis ⬝ᵥ turn.axis = 1 := by
  cases turn <;> simp [axis]

/-- **The matrix turns about the axis.** -/
theorem matrix_mulVec (turn : Turn) (θ : ℝ) (v : Fin 3 → ℝ) :
    turn.matrix (Real.cos θ) (Real.sin θ) *ᵥ v = turned (θ • turn.axis) v := by
  rw [turned_smul turn.axis_dot_self, spin, cross_apply]
  ext i
  rw [mulVec]
  simp only [vec3_dotProduct, Pi.add_apply, Pi.sub_apply, Pi.smul_apply, smul_eq_mul]
  cases turn <;> fin_cases i <;> simp [matrix, axis, add_comm]

/-- The matrices of opposite turns are inverse to each other. -/
theorem matrix_mul_reverse (turn : Turn) {c s : ℝ} (h : c * c + s * s = 1) :
    turn.matrix c s * turn.reverse.matrix c s = 1 := by
  have hswap : s * s + c * c = 1 := by rw [add_comm, h]
  have hcomm : s * c = c * s := mul_comm s c
  ext i j
  rw [mul_apply, Fin.sum_univ_three]
  cases turn <;> fin_cases i <;> fin_cases j <;> simp [matrix, reverse, h, hswap, hcomm]

end Turn

namespace FormulaMatrix

open Formula

theorem turning_entrywise {α : Type} [Scalar α] {P : ℝ → Formula α → Prop} {c s : ℝ}
    {cos sin minusSin : Formula α} (turn : Turn) (hcos : P c cos) (hsin : P s sin)
    (hminus : P (-s) minusSin) (hzero : P 0 zero) (hone : P 1 one) :
    Entrywise (fun i j => P (turn.matrix c s i j)) (turning turn cos sin minusSin) := by
  refine ⟨by cases turn <;> rfl, ?_⟩
  cases turn <;> simp [turning, Turn.matrix, List.finRange_succ, *]

section Denotations

variable {S : Set NodeId} {ρ : Valuation PartialReal} {L : Ledger PartialReal} {θ : ℝ}
  {v : Fin 3 → ℝ} {A : Matrix (Fin 3) (Fin 3) ℝ} {g : Formula PartialReal}
  {m : FormulaMatrix (Formula PartialReal)} {p : Point3 (Formula PartialReal)}

theorem rotation_denotes (turn : Turn) (hg : g.Denotes S ρ θ L) :
    Builds (rotation turn g) L (Denotes S ρ (turn.matrix (Real.cos θ) (Real.sin θ))) := by
  rw [rotation]
  refine .bind (unary_denotes .cos hg rfl) fun L₁ cos hL₁ hcos => ?_
  refine .bind (unary_denotes .sin (hg.mono hL₁) rfl) fun L₂ sin hL₂ hsin => ?_
  refine .bind (negate_denotes hsin) fun L₃ minusSin hL₃ hminus => .pure ?_
  exact turning_entrywise (P := fun x e => e.Denotes S ρ x L₃) turn
    (hcos.mono (hL₂.trans hL₃)) (hsin.mono hL₃) hminus zero_denotes one_denotes

theorem ofColumn_denotes (hp : p.Denotes S ρ v L) :
    (ofColumn p).Denotes S ρ (Matrix.of fun i (_ : Fin 1) => v i) L :=
  ⟨rfl, by simp [ofColumn, Point3.toList, List.finRange_succ, hp.x, hp.y, hp.z]⟩

/-- A matrix of one column of three is a point. -/
theorem toPoint_denotes {w : Fin 3 → ℝ}
    (hm : m.Denotes S ρ (Matrix.of fun i (_ : Fin 1) => w i) L) :
    ∃ q, m.toPoint = .ok q ∧ q.Denotes S ρ w L := by
  obtain ⟨rows, hrectangular⟩ := m
  have hrows : List.Forall₂ (fun i => List.Forall₂ (fun _ e => e.Denotes S ρ (w i) L) [(0 : Fin 1)])
      [0, 1, 2] rows := hm.rows
  obtain _ | ⟨_ | ⟨hx, ⟨⟩⟩, _ | ⟨_ | ⟨hy, ⟨⟩⟩, _ | ⟨_ | ⟨hz, ⟨⟩⟩, ⟨⟩⟩⟩⟩ := hrows
  exact ⟨_, rfl, hx, hy, hz⟩

theorem mulPoint_makes (hm : m.Denotes S ρ A L) (hp : p.Denotes S ρ v L) :
    Makes (m.mulPoint p) L (Point3.Denotes S ρ (A *ᵥ v)) := by
  have hcolumn : A * (Matrix.of fun i (_ : Fin 1) => v i) = Matrix.of fun i _ => (A *ᵥ v) i := rfl
  have hproduct := mul_makes hm (ofColumn_denotes hp)
  rw [hcolumn] at hproduct
  rw [mulPoint]
  refine hproduct.bind fun L' c _ hc => ?_
  obtain ⟨q, hq, hdenotes⟩ := toPoint_denotes hc
  rw [hq]
  exact .pure hdenotes

end Denotations

/-! ## Turning points -/

/-- In the session, the matrix of the turn by `g` times the point is a point, and in the store `t`
it evaluates to the same as the point turned about `a`. -/
def TurnsAlike (turn : Turn) (g : Formula PartialReal) (a p : Point3 (Formula PartialReal))
    (s : Session PartialReal) (t : Store PartialReal) : Prop :=
  ∃ v q n, (do (← rotation turn g).mulPoint p : Action PartialReal _).run.run s =
      (.ok q, { s with nextId := n }) ∧
    (q.evaluate.run t).1 = Point3.ofVector v ∧
    (((p.rotate a).run s.nextId).1.evaluate.run t).1 = Point3.ofVector v

theorem turnsAlike {S : Set NodeId} {L : Ledger PartialReal} {θ : ℝ} {v : Fin 3 → ℝ}
    {g : Formula PartialReal} {a p : Point3 (Formula PartialReal)} {s : Session PartialReal}
    {t : Store PartialReal} (turn : Turn) (hs : s.nextId = L.next) (ht : t.Reachable)
    (hp : p.Denotes S t.read v L) (hg : g.Denotes S t.read θ L)
    (ha : a.Denotes S t.read (θ • turn.axis) L) : TurnsAlike turn g a p s t := by
  have hmakes : Makes (do (← rotation turn g).mulPoint p) L
      (Point3.Denotes S t.read (turned (θ • turn.axis) v)) := by
    rw [← turn.matrix_mulVec]
    exact Makes.bind (ActsAs.makes (.lift _) (rotation_denotes turn hg)) fun L₁ m hL₁ hm =>
      mulPoint_makes hm (hp.mono hL₁)
  obtain ⟨L', q, -, hq, hrun⟩ := hmakes s hs
  refine ⟨_, q, L'.next, hrun, hq.evaluate ht, ?_⟩
  rw [hs]
  exact Point3.evaluate_of_builds ht (Point3.rotate_denotes hp ha)

/-! ## Turning there and back -/

section Over

variable {γ : Generation} {g : Formula PartialReal} {n : NodeId} {θ : ℝ} {v : PartialReal}
  {s₀ : Store PartialReal} {L : Ledger PartialReal} {r c : Nat} {A : Matrix (Fin r) (Fin c) ℝ}
  {m : FormulaMatrix (Formula PartialReal)}

theorem rotation_denotesOver (hg : Base γ g n (real θ) s₀) (hn : n ≤ L.next) (hknown : g.KnownTo L)
    (turn : Turn) : Builds (rotation turn g) L fun L' => Entrywise fun i j =>
      DenotesOver g n (real θ) (turn.matrix (Real.cos θ) (Real.sin θ) i j) L' := by
  have hcosRule : unaryRule .cos g = none := rfl
  have hsinRule : unaryRule .sin g = none := rfl
  rw [rotation]
  refine .bind (unary_denotesOver hg hn hknown (.inl rfl) hg.valueOver_self rfl (.inr hcosRule))
    fun L₁ cos hL₁ hcos => ?_
  have hn₁ := hn.trans hL₁.next_le
  refine .bind ((unary_denotesOver hg hn₁ (hknown.mono hL₁) (.inl rfl) hg.valueOver_self rfl
    (.inr hsinRule)).and_yields (unary_asIs (.inr hsinRule))) fun L₂ sin hL₂ hsin => ?_
  obtain ⟨hsin, hshape⟩ := hsin
  have hrule : sin.isConstant = true ∨ unaryRule .negate sin = none :=
    hshape.imp_right fun hshape => by simp [unaryRule, hshape]
  refine .bind (unary_denotesOver hg (hn₁.trans hL₂.next_le) hsin.known (.inr hsin.built)
    hsin.value_eq rfl hrule) fun L₃ minusSin hL₃ hminus => .pure ?_
  exact turning_entrywise (P := fun x => DenotesOver g n (real θ) x L₃) turn
    (hcos.mono (hL₂.trans hL₃)) (hsin.mono hL₃) hminus zero_denotesOver one_denotesOver

/-- A matrix over a formula evaluates to the numbers that the operations make of its value. -/
theorem evaluate_over {t : Store PartialReal} (ht : t.Issued)
    (hg : Base (t.generation + 1) g n v (Evaluation.nextGeneration.run t).2)
    (hm : Entrywise (fun i j => DenotesOver g n v (A i j) L) m) :
    (m.evaluate.run t).1 = ofMatrix A := by
  obtain rfl := hm.rowCount_eq
  obtain rfl := hm.columnCount_eq
  have hentry := fun i j => hm.entry i j
  have hanswers := evaluateIn_answers (F := valueOver g.id v) AnswersOver.answering fun i j =>
    evaluateIn_over hg (hentry i j).built (hentry i j).known.listed
  refine (hanswers _ (ready_next ht)).1.trans ?_
  simp only [(hentry _ _).value_eq]
  rfl

/-- The matrices of a turn and of the turn back are multiplied. -/
theorem there_and_back (hg : Base γ g n (real θ) s₀) (hn : n ≤ L.next) (hknown : g.KnownTo L)
    (turn : Turn) : Makes (do (← rotation turn g).mul (← rotation turn.reverse g)) L fun L' =>
      Entrywise fun i j => DenotesOver g n (real θ) ((1 : Matrix (Fin 3) (Fin 3) ℝ) i j) L' := by
  have hunit : Real.cos θ * Real.cos θ + Real.sin θ * Real.sin θ = 1 := by
    rw [← sq, ← sq, Real.cos_sq_add_sin_sq]
  rw [← turn.matrix_mul_reverse hunit]
  refine Makes.bind (ActsAs.makes (.lift _) (rotation_denotesOver hg hn hknown turn))
    fun L₁ a hL₁ ha => ?_
  have hn₁ := hn.trans hL₁.next_le
  refine Makes.bind (ActsAs.makes (.lift _)
    (rotation_denotesOver hg hn₁ (hknown.mono hL₁) turn.reverse)) fun L₂ b hL₂ hb => ?_
  have hfit : a.columnCount = b.rowCount := ha.columnCount_eq.trans hb.rowCount_eq.symm
  exact ActsAs.makes (mul_run hfit) (product_builds (denotesOver_arithmetic hg
    (hn₁.trans hL₂.next_le)) (.refl L₂) (ha.imp fun _ _ _ h => h.mono hL₂) hb)

end Over

/-- **Turning by a matrix is turning about an angle vector** along an axis, in exact arithmetic and
wherever nothing is undefined, if the angle and the coordinates are scoped in the same variables;
the angle may have either sign.  And wherever the angle evaluates to a number, the matrix of a turn
times the one of the turn back evaluates to the identity. -/
theorem rotation_evaluation :
    (∀ (L : Ledger PartialReal) (S : Set NodeId) (s : Session PartialReal)
      (t : Store PartialReal) (p : Point3 (Formula PartialReal)) (g : Formula PartialReal),
      s.nextId = L.next → t.Reachable → (∀ e ∈ p.toList, e.Evaluable L S t) →
      g.Evaluable L S t → TurnsAlike .yToX g ⟨zero, zero, g⟩ p s t ∧
        TurnsAlike .zToY g ⟨g, zero, zero⟩ p s t ∧ TurnsAlike .xToZ g ⟨zero, g, zero⟩ p s t) ∧
    ∀ (L : Ledger PartialReal) (s : Session PartialReal) (t : Store PartialReal)
      (g : Formula PartialReal) (θ : ℝ) (turn : Turn), s.nextId = L.next → t.Reachable →
      g.KnownTo L → (g.evaluate.run t).1 = real θ →
      EvaluatesTo (do (← rotation turn g).mul (← rotation turn.reverse g)) s t
        (1 : Matrix (Fin 3) (Fin 3) ℝ) := by
  refine ⟨?_, ?_⟩
  · intro L S s t p g hs ht hp hg
    obtain ⟨v, hv⟩ := Point3.exists_denotes ht hp
    have hg := hg.denotes ht
    have hzero : (zero : Formula PartialReal).Denotes S t.read 0 L := zero_denotes
    refine ⟨turnsAlike .yToX hs ht hv hg ⟨?_, ?_, ?_⟩,
      turnsAlike .zToY hs ht hv hg ⟨?_, ?_, ?_⟩, turnsAlike .xToZ hs ht hv hg ⟨?_, ?_, ?_⟩⟩ <;>
        simpa [Turn.axis]
  · intro L s t g θ turn hs ht hknown hθ
    obtain ⟨L', m, -, hm, hrun⟩ :=
      there_and_back (hknown.base hθ) (Nat.le_refl _) hknown turn s hs
    exact ⟨m, L'.next, hrun, evaluate_over ht.issued (hknown.base hθ) hm⟩

/-- A point with a variable coordinate, turned by a variable. -/
theorem rotation_evaluation_of_variables :
    let x : Formula PartialReal := node 2 (.var "x")
    let g : Formula PartialReal := node 3 (.var "g")
    let p : Point3 (Formula PartialReal) := ⟨x, one, zero⟩
    let s : Session PartialReal := { Session.start with nextId := 4 }
    let t : Store PartialReal := (Store.empty.write 2 (real 2)).write 3 (real (-1))
    (TurnsAlike .yToX g ⟨zero, zero, g⟩ p s t ∧ TurnsAlike .zToY g ⟨g, zero, zero⟩ p s t ∧
        TurnsAlike .xToZ g ⟨zero, g, zero⟩ p s t) ∧
      EvaluatesTo (do (← rotation .xToY g).mul (← rotation .yToX g)) s t
        (1 : Matrix (Fin 3) (Fin 3) ℝ) := by
  intro x g p s t
  have hreadX : t.read 2 = real 2 := by simp [t, Store.read_write, Valuation.set]
  have hread : t.read 3 = real (-1) := by simp [t, Store.read_write, Valuation.set]
  obtain ⟨hx, hg⟩ := evaluable_variables "x" "g" hreadX hread
  have ht : t.Reachable := .write (.write .empty 2 _) 3 _
  refine ⟨rotation_evaluation.1 _ Set.univ s t p g rfl ht ?_ hg,
    rotation_evaluation.2 _ s t g (-1) .xToY rfl ht hg.known ((evaluate_var 3 "g").trans hread)⟩
  simpa [p, Point3.toList] using ⟨hx, one_evaluable t, zero_evaluable t⟩

end FormulaMatrix

/-! ## Where the angle leaves a root -/

namespace Point3

open Formula

variable {e g z : Formula PartialReal} {n : Point3 (Formula PartialReal)}

theorem normal_third (hz : z.IsNumber 0) :
    Yields (normal ⟨z, z, g⟩) fun n => n.x.IsNumber 0 ∧ n.y.IsNumber 0 := by
  refine .bind (.any _) fun size _ => .bind (divide_zero hz) fun nx hx => ?_
  exact .bind (divide_zero hz) fun ny hy => .bind (.any _) fun nz _ => .pure ⟨hx, hy⟩

section First

variable (he : e.Whole) (hz : z.IsNumber 0) (hx : n.x.IsNumber 0)

include he hz hx

theorem dot_first : Yields (dot ⟨e, z, z⟩ n) (IsNumber 0) := by
  have hzip : Yields (zipM multiply ⟨e, z, z⟩ n) fun p => ∀ c ∈ p.toList, c.IsNumber 0 := by
    refine .bind (multiply_zero he.finiteConstant hx) fun a ha => ?_
    refine .bind (zero_multiply hz) fun b hb => .bind (zero_multiply hz) fun c hc => .pure ?_
    simpa [toList] using ⟨ha, hb, hc⟩
  exact .bind hzip fun products h => sum_of_zero h

/-- A point on the first axis has nothing along an axis across. -/
theorem project_first : Yields (project ⟨e, z, z⟩ n) fun parts =>
    parts.vertical.x.IsNumber 0 ∧ parts.horizontal.x = e := by
  refine .bind (dot_first he hz hx) fun d hd => ?_
  have hscale : Yields (scale d n) fun v => v.x.IsNumber 0 :=
    .bind (zero_multiply hd) fun a ha => .bind (.any _) fun b _ => .bind (.any _) fun c _ =>
      .pure ha
  refine .bind hscale fun v hv => ?_
  have hsub : Yields (sub ⟨e, z, z⟩ v) fun h => h.x = e :=
    .bind (.of_eq (subtract_zero he.not_constant hv)) fun a ha => .bind (.any _) fun b _ =>
      .bind (.any _) fun c _ => .pure ha
  exact .bind hsub fun h hh => .pure ⟨hv, hh⟩

end First

/-- Turned about the third axis, a point on the first has the cosine there, and no sine. -/
theorem rotate_first (he : e.Whole) (hz : z.IsNumber 0) (hg : g.isConstant = false)
    (hassoc : g.isAssoc .hypot = false) : Yields (rotate ⟨e, z, z⟩ ⟨z, z, g⟩) fun q => ∃ i j k,
      q.x = node i (.assoc .multiply [e, node j (.unary .cos (node k (.assoc .hypot [g])))]) := by
  refine .bind (normal_third hz) fun n hn => ?_
  refine .bind (project_first he hz hn.1) fun parts hparts => ?_
  obtain ⟨hvertical, hhorizontal⟩ := hparts
  have hlength : length ⟨z, z, g⟩ = new (.assoc .hypot [g]) := hypot_beside_zeros hz hg hassoc
  refine .bind (.of_new hlength) fun size hsize => ?_
  obtain ⟨k, rfl⟩ := hsize
  have hcos : unary .cos (node k (.assoc .hypot [g])) =
      new (.unary .cos (node k (.assoc .hypot [g]))) := unary_eq_new rfl rfl
  refine .bind (.of_new hcos) fun cos hcos => ?_
  obtain ⟨j, rfl⟩ := hcos
  have hacross : Yields (parts.horizontal.mul (node j (.unary .cos (node k (.assoc .hypot [g])))))
      fun q => ∃ i, q.x =
        node i (.assoc .multiply [e, node j (.unary .cos (node k (.assoc .hypot [g])))]) := by
    rw [mul, mapM, hhorizontal, multiply_whole he ⟨rfl, rfl, rfl⟩]
    exact .bind (.of_new rfl) fun a ha => .bind (.any _) fun b _ => .bind (.any _) fun c _ =>
      .pure ha
  refine .bind hacross fun across hacross => ?_
  obtain ⟨i, hacross⟩ := hacross
  have hstill : Yields (parts.vertical.add across) fun q => q.x = across.x :=
    .bind (.of_eq (add_zero (hacross ▸ rfl) (hacross ▸ rfl) hvertical).2) fun a ha =>
      .bind (.any _) fun b _ => .bind (.any _) fun c _ => .pure ha
  refine .bind hstill fun still hstill => ?_
  have hminor : Yields (minor z n.z z n.y) (IsNumber 0) :=
    .bind (zero_multiply hz) fun a ha => .bind (zero_multiply hz) fun b hb =>
      subtract_zero_zero ha hb
  have hcross : Yields (cross ⟨e, z, z⟩ n) fun c => c.x.IsNumber 0 :=
    .bind hminor fun a ha => .bind (.any _) fun b _ => .bind (.any _) fun c _ => .pure ha
  refine .bind hcross fun product hproduct => .bind (.any _) fun sin _ => ?_
  have hturned : Yields (product.mul sin) fun q => q.x.IsNumber 0 :=
    .bind (zero_multiply hproduct) fun a ha => .bind (.any _) fun b _ =>
      .bind (.any _) fun c _ => .pure ha
  refine .bind hturned fun turned hturned => ?_
  have hx := hstill.trans hacross
  refine .bind (.of_eq (add_zero (hx ▸ rfl) (hx ▸ rfl) hturned).1) fun a ha => ?_
  exact .bind (.any _) fun b _ => .bind (.any _) fun c _ => .pure ⟨i, j, k, ha.trans hx⟩

end Point3

namespace FormulaMatrix

open Formula

section Turned

variable {α : Type} [Scalar α]

/-- The matrix that turns the second axis to the first times a point, one coordinate after the
other. -/
def turnedYToX (g : Formula α) (p : Point3 (Formula α)) : Fresh (Point3 (Formula α)) := do
  let cos ← Formula.unary .cos g
  let sin ← Formula.unary .sin g
  let minusSin ← Formula.negate sin
  let x ← rowByColumn [cos, sin, zero] p.toList
  let y ← rowByColumn [minusSin, cos, zero] p.toList
  let z ← rowByColumn [zero, zero, one] p.toList
  return ⟨x, y, z⟩

theorem turnedYToX_acts (g : Formula α) (p : Point3 (Formula α)) :
    ActsAs (do (← rotation .yToX g).mulPoint p) (turnedYToX g p) := by
  intro s
  rw [ExceptT.run_bind, StateT.run_bind]
  show ((turning .yToX _ _ _).mulPoint p).run.run _ = _
  rw [mulPoint, ExceptT.run_bind, StateT.run_bind, mul_run rfl]
  rfl

end Turned

/-- The matrix has the cosine before the coordinate. -/
theorem turnedYToX_first {e g z : Formula PartialReal} (he : e.Whole) (hz : z.IsNumber 0)
    (hg : g.isConstant = false) : Yields (turnedYToX g ⟨e, z, z⟩) fun q => ∃ i j,
      q.x = node i (.assoc .multiply [node j (.unary .cos g), e]) := by
  have hcos : Formula.unary .cos g = new (.unary .cos g) := unary_eq_new hg rfl
  have hsin : Formula.unary .sin g = new (.unary .sin g) := unary_eq_new hg rfl
  refine .bind (.of_new hcos) fun cos hcos => .bind (.of_new hsin) fun sin hsin => ?_
  obtain ⟨j, rfl⟩ := hcos
  obtain ⟨k, rfl⟩ := hsin
  have hzero : (zero : Formula PartialReal).IsNumber 0 := rfl
  have hx : Yields (rowByColumn [node j (.unary .cos g), node k (.unary .sin g), zero] [e, z, z])
      fun x => ∃ i, x = node i (.assoc .multiply [node j (.unary .cos g), e]) := by
    have hsteps : rowByColumn [node j (.unary .cos g), node k (.unary .sin g), zero] [e, z, z] =
        (do
          let a ← multiply (node j (.unary .cos g)) e
          let b ← multiply (node k (.unary .sin g)) z
          let c ← multiply zero z
          sum [a, b, c]) := rfl
    rw [hsteps, multiply_whole ⟨rfl, rfl, rfl⟩ he]
    refine .bind (.of_new rfl) fun a ha => ?_
    obtain ⟨i, rfl⟩ := ha
    refine .bind (multiply_zero (finiteConstant_of_not_isConstant rfl) hz) fun b hb => ?_
    refine .bind (zero_multiply hzero) fun c hc => ?_
    have hneutral : ∀ d ∈ [] ++ [b, c], d.IsNeutral .add := by
      simpa using And.intro hb.neutral_add hc.neutral_add
    exact (Yields.of_eq (assoc_beside_neutral (by simp) rfl rfl [] [b, c] hneutral)).mono
      fun x h => ⟨i, h⟩
  refine .bind (.any _) fun minusSin _ => .bind hx fun x hx => ?_
  obtain ⟨i, rfl⟩ := hx
  exact .bind (.any _) fun y _ => .bind (.any _) fun z _ => .pure ⟨i, j, rfl⟩

/-- The angle is the zero of `1 - t`, and the point is as far along the first axis as `t`, which is
three.  The matrix has the cosine before the coordinate, so the solver comes first; the point turned
about the axis has it behind. -/
theorem rotation_sees_root :
    let g := UnitRoot.root
    let p : Point3 (Formula PartialReal) := ⟨UnitRoot.t, zero, zero⟩
    let s : Session PartialReal := { Session.start with nextId := 6 }
    let t : Store PartialReal := Store.empty.write 2 (real 3)
    (∀ e ∈ g :: p.toList, e.EvaluatesThroughout t) ∧
      (∃ q n, (do (← rotation .yToX g).mulPoint p : Action PartialReal _).run.run s =
          (.ok q, { s with nextId := n }) ∧ (q.evaluate.run t).1.x = real (Real.cos 1)) ∧
      (((p.rotate ⟨zero, zero, g⟩).run 6).1.evaluate.run t).1.x = real (3 * Real.cos 1) ∧
      3 * Real.cos 1 ≠ Real.cos 1 := by
  intro g p s t
  have ht : t.Reachable := .write .empty 2 _
  have hread : t.read 2 = real 3 := by simp [t, Store.read_write, Valuation.set]
  have hwhole : UnitRoot.t.Whole := ⟨rfl, rfl, rfl⟩
  have hcos : Real.cos 1 ≠ 0 := Real.cos_one_pos.ne'
  have hheld : ∀ id,
      ((Evaluation.nextGeneration.run t).2.slot id).holds (t.generation + 1) = false :=
    fun id => Bool.eq_false_iff.mpr (ht.issued.not_holds_next id)
  obtain ⟨after, hroot, hafter⟩ : ∃ after : Store PartialReal,
      (Formula.evaluateIn (t.generation + 1) g).run (Evaluation.nextGeneration.run t).2 =
        (real 1, after) ∧ after.read 2 = real 1 := by
    obtain ⟨hone, hserves⟩ := UnitRoot.after_root UnitRoot.root_known.listed ht.issued
    exact ⟨_, Prod.ext hone rfl, hserves.read 2 rfl⟩
  have hcosine : UnaryOp.cos.apply (real 1) = real (Real.cos 1) := rfl
  refine ⟨?_, ?_, ?_, ?_⟩
  · have hzero : (zero : Formula PartialReal).EvaluatesThroughout t :=
      (zero_evaluable (L := UnitRoot.ledger) (S := Set.univ) t).defined
    simpa [g, p, Point3.toList] using
      ⟨(UnitRoot.root_evaluable ht (Set.notMem_empty 2) hread).defined,
        (UnitRoot.t_evaluable (Set.mem_univ 2) hread).defined, hzero⟩
  · refine ⟨_, _, turnedYToX_acts g p s, ?_⟩
    obtain ⟨i, j, hx⟩ := turnedYToX_first (g := g) (z := zero) hwhole rfl rfl s.nextId
    have hfactor := evaluateIn_unary_run (hheld j) hroot .cos
    have hlast : ∀ v, (Formula.evaluateIn (t.generation + 1) UnitRoot.t).run
        (after.fill j (t.generation + 1) v) = (real 1, after.fill j (t.generation + 1) v) :=
      fun v => UnitRoot.t_run _ hafter
    have hzero : (1 * UnaryOp.cos.apply (real 1) == 0) = false :=
      Bool.eq_false_iff.mpr (by simpa [hcosine] using hcos)
    rw [Point3.evaluate_x, hx, evaluate_product ht.issued, productIn_cons_run hfactor hzero,
      productIn_last, hlast]
    simp [hcosine]
  · obtain ⟨i, j, k, hx⟩ := Point3.rotate_first (g := g) (z := zero) hwhole rfl rfl rfl 6
    have hfactor := evaluateIn_unary_run (hheld j) (evaluateIn_hypot_run (hheld k) hroot) .cos
    have hlength : AssocOp.hypot.apply [real 1] = real 1 := by
      have hone := AssocOp.apply_map_real .hypot [1]
      simpa [AssocOp.amount, PartialReal.length] using hone
    have hfirst :=
      UnitRoot.t_run (s := (Evaluation.nextGeneration.run t).2) (t.generation + 1) hread
    have hzero : (1 * real 3 == 0) = false := Bool.eq_false_iff.mpr (by simp)
    rw [Point3.evaluate_x, hx, evaluate_product ht.issued, productIn_cons_run hfirst hzero,
      productIn_last, hfactor, hlength, hcosine]
    simp
  · intro h
    exact hcos (by linarith)

end FormulaMatrix

end FormulaGraph
