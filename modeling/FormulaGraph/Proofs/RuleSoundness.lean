import FormulaGraph.Proofs.Amounts
import FormulaGraph.Proofs.Building

/-!
# The rules of construction keep the value

Each rule is justified by one law of real numbers.  For flattening and for squares the laws
are those of amounts, and values are read according to them (`valueTally`).
-/

namespace FormulaGraph

open PartialReal

namespace Formula

variable {ρ : Valuation PartialReal}

/-! ## Any number of arguments, and squares -/

/-- The amount of the values of formulas. -/
theorem apply_values (op : AssocOp) {es : List (Formula PartialReal)}
    (hes : ∀ e ∈ es, e.Defined ρ) :
    op.apply (values ρ es) = real (op.amount (es.map (realValue ρ))) := by
  rw [values_eq_map_realValue fun e he => (hes e he).here, op.apply_map_real]

/-- The value of a square is a square, and not negative. -/
theorem realValue_square {id : NodeId} {a : Formula PartialReal} (ha : a.Defined ρ) :
    realValue ρ (node id (.unary .square a)) = realValue ρ a * realValue ρ a := by
  apply realValue_eq
  rw [value, ha.value_eq, UnaryOp.apply, real_mul]

/-- Where formulas are defined, so is what is made of them. -/
theorem defined_closed (ρ : Valuation PartialReal) : Closed 0 (Defined ρ) where
  const id x := (const_means id (real x)).defined_of_real
  exists_real h := exists_real (by simpa [value] using h.here)
  assoc _ hargs := by
    refine .node ?_ hargs
    rw [value, apply_values _ hargs]
    simp
  args h _ ha := h.needed ha
  square _ ha := by
    refine .node ?_ (by simpa [neededInPass, needed, Shape.children] using ha)
    rw [value, UnaryOp.apply, ha.value_eq, real_mul]
    simp

/-- Reading values. -/
noncomputable def valueTally (ρ : Valuation PartialReal) : Tally 0 (Defined ρ) ℝ where
  toAmounts := .real
  closed := defined_closed ρ
  read := realValue ρ
  read_const _ _ := realValue_eq (by rw [value]; rfl)
  read_assoc h := realValue_eq (by rw [value, apply_values _ ((defined_closed ρ).args h)]; rfl)
  read_square _ ha := realValue_square ha

/-- What is defined and has a value means it. -/
theorem Tally.Reads.means {x : ℝ} {e : Formula PartialReal} (h : (valueTally ρ).Reads x e) :
    e.Means ρ (real x) :=
  ⟨h.holds.value_eq.trans (congrArg real h.read_eq), fun _ => h.holds⟩

/-- Sums, products and lengths of defined formulas mean their amounts. -/
theorem assoc_means (op : AssocOp) {args : List (Formula PartialReal)}
    (hargs : ∀ e ∈ args, e.Defined ρ) :
    Yields (assoc op args) (Means ρ (real (op.amount (args.map (realValue ρ))))) :=
  (Tally.assoc_reads (T := valueTally ρ) op hargs).yields.mono fun _ h => h.means

/-- A square means the square of the value. -/
theorem square_means {e : Formula PartialReal} (he : e.Defined ρ) :
    Yields (square e) (Means ρ (real (realValue ρ e * realValue ρ e))) :=
  (Tally.square_reads (T := valueTally ρ) he).yields.mono fun _ h => h.means

/-! ## One argument, two arguments -/

/-- What an inverse pair of operations does to a defined formula. -/
theorem inner_means {op inner : UnaryOp} {a b : Formula PartialReal} (ha : a.Defined ρ)
    (hshape : a.shape = .unary inner b)
    (hcancel : ∀ x y, inner.apply (real x) = real y → op.apply (real y) = real x) :
    b.Means ρ (op.apply (value ρ a)) := by
  obtain ⟨id, shape⟩ := a
  subst hshape
  have hb : b.Defined ρ := ha.needed (by simp [neededInPass, needed, Shape.children])
  have hval : value ρ (node id (.unary inner b)) = inner.apply (value ρ b) := by rw [value]
  have hinner := ha.value_eq
  rw [hval, hb.value_eq] at hinner
  have happly : op.apply (value ρ (node id (.unary inner b))) = value ρ b := by
    rw [ha.value_eq, hb.value_eq]
    exact hcancel _ _ hinner
  rw [happly]
  exact hb.means

/-- The logarithm undoes the exponential. -/
theorem log_exp {x y : ℝ} (h : UnaryOp.exp.apply (real x) = real y) :
    UnaryOp.log.apply (real y) = real x := by
  have hy : Real.exp x = y := real.inj h
  rw [← hy, UnaryOp.apply, log_real (Real.exp_pos x), Real.log_exp]

/-- The exponential undoes the logarithm, where there is one. -/
theorem exp_log {x y : ℝ} (h : UnaryOp.log.apply (real x) = real y) :
    UnaryOp.exp.apply (real y) = real x := by
  rw [UnaryOp.apply] at h
  by_cases hx : 0 < x
  · rw [log_real hx] at h
    rw [← real.inj h, UnaryOp.apply, exp_real, Real.exp_log hx]
  · rw [log_real_of_nonpos (not_lt.mp hx)] at h
    cases h

/-- Two negatives cancel. -/
theorem negate_negate {x y : ℝ} (h : UnaryOp.negate.apply (real x) = real y) :
    UnaryOp.negate.apply (real y) = real x := by
  have hy : -x = y := real.inj h
  rw [← hy, UnaryOp.apply, neg_real, neg_neg]

/-- A unary function means what it makes of the value, whichever rule applies. -/
theorem unary_means (op : UnaryOp) {a : Formula PartialReal} (ha : a.Defined ρ) :
    Yields (unary op a) (Means ρ (op.apply (value ρ a))) := by
  have hvalue : value ρ (node 0 (.unary op a)) = op.apply (value ρ a) := by rw [value]
  rw [unary, ← hvalue]
  refine build_means (by simp) (by simpa [neededInPass, needed, Shape.children] using ha) ?_
  intro r hr
  rw [hvalue]
  unfold unaryRule at hr
  split at hr
  · next hshape => exact Option.some.inj hr ▸ .pure (inner_means ha hshape fun _ _ => log_exp)
  · next hshape => exact Option.some.inj hr ▸ .pure (inner_means ha hshape fun _ _ => exp_log)
  · next hshape =>
      exact Option.some.inj hr ▸ .pure (inner_means ha hshape fun _ _ => negate_negate)
  · have hsquare := square_means ha
    rw [← real_mul, ← ha.value_eq] at hsquare
    exact Option.some.inj hr ▸ hsquare
  · cases hr

/-- A constant that compares as zero is zero. -/
theorem isConstantValue_zero {e : Formula PartialReal} (h : e.isConstantValue 0 = true) :
    value ρ e = real 0 :=
  eq_zero_of_beq (value_of_isConstantValue h ρ)

/-- A defined constant that is not zero is a number other than zero. -/
theorem exists_ne_zero_of_asConstant {b : Formula PartialReal} {v : PartialReal}
    (hb : b.Defined ρ) (hconst : b.asConstant = some v) (hne : ¬b.isConstantValue 0 = true) :
    ∃ y : ℝ, v = real y ∧ y ≠ 0 := by
  obtain ⟨y, rfl⟩ := exists_real (value_of_asConstant hconst ρ ▸ hb.here)
  refine ⟨y, rfl, fun h => hne ?_⟩
  simp [isConstantValue, hconst, h]

/-- A quotient by a constant is the product with its reciprocal. -/
theorem reciprocal_means {a b : Formula PartialReal} (ha : a.Defined ρ) (hb : b.Defined ρ)
    {divisor : PartialReal} (hconst : b.asConstant = some divisor)
    (hne : ¬b.isConstantValue 0 = true) :
    Yields (do let reciprocal ← constant (1 / divisor); product [a, reciprocal])
      (Means ρ (Scalar.safeDiv (value ρ a) (value ρ b))) := by
  obtain ⟨y, rfl, hy⟩ := exists_ne_zero_of_asConstant hb hconst hne
  have hquotient : Scalar.safeDiv (value ρ a) (value ρ b) =
      real ([realValue ρ a, 1 / y].prod) := by
    rw [ha.value_eq, value_of_asConstant hconst, Scalar.safeDiv]
    by_cases hx : realValue ρ a = 0
    · simp [hx]
    · simp [hx, hy, real_div _ hy, div_eq_mul_inv]
  rw [hquotient, one_eq, real_div 1 hy]
  refine .bind (constant_means (ρ := ρ) _) ?_
  intro c hc
  have hargs : ∀ e ∈ [a, c], e.Defined ρ := by simpa using ⟨ha, hc.defined_of_real⟩
  have hproduct := assoc_means .multiply hargs
  rwa [AssocOp.amount, List.map_cons, List.map_singleton, realValue_eq hc.value_eq]
    at hproduct

/-- A binary operation means what it makes of the values, whichever rule applies. -/
theorem binary_means (op : BinaryOp) {a b : Formula PartialReal} (ha : a.Defined ρ)
    (hb : b.Defined ρ) : Yields (binary op a b) (Means ρ (op.apply (value ρ a) (value ρ b))) := by
  have hvalue : value ρ (node 0 (.binary op a b)) = op.apply (value ρ a) (value ρ b) := by
    rw [value]
  rw [binary, ← hvalue]
  refine build_means (by simp) (by simpa [neededInPass, needed, Shape.children] using ⟨ha, hb⟩) ?_
  intro r hr
  rw [hvalue]
  cases op with
  | subtract =>
      simp only [binaryRule] at hr
      rw [BinaryOp.apply]
      split at hr
      · next hzero =>
          rw [isConstantValue_zero hzero, ha.value_eq, real_sub, sub_zero, ← ha.value_eq]
          exact Option.some.inj hr ▸ .pure ha.means
      · split at hr
        · next hzero =>
            have hnegate := unary_means .negate hb
            rw [UnaryOp.apply, hb.value_eq, neg_real, ← zero_sub, ← real_sub, ← hb.value_eq,
              ← isConstantValue_zero (ρ := ρ) hzero] at hnegate
            exact Option.some.inj hr ▸ hnegate
        · cases hr
  | divide =>
      simp only [binaryRule] at hr
      rw [BinaryOp.apply]
      split at hr
      · next hzero =>
          have hquotient : Scalar.safeDiv (value ρ a) (value ρ b) = real 0 := by
            rcases Bool.or_eq_true _ _ |>.mp hzero with h | h
            · simp [Scalar.safeDiv, isConstantValue_zero h]
            · simp [Scalar.safeDiv, isConstantValue_zero h]
          rw [hquotient]
          exact Option.some.inj hr ▸ .pure zero_means
      · next hzero =>
          obtain ⟨divisor, hconst, rfl⟩ := Option.map_eq_some_iff.mp hr
          exact reciprocal_means ha hb hconst fun h => hzero (by rw [h, Bool.or_true])
  | atan2 => cases hr
  | max => cases hr
  | min => cases hr

/-! ## All shapes -/

/-- A conditional means its value, also if a constant selects the branch beforehand. -/
theorem conditional_means (op : ConditionalOp) {c a b : Formula PartialReal}
    (hneeded : ∀ d ∈ neededInPass ρ (.conditional op c a b), d.Defined ρ) :
    Yields (ofShape (.conditional op c a b))
      (Means ρ (value ρ (node 0 (.conditional op c a b)))) := by
  rw [ofShape_conditional]
  refine build_means (by simp) hneeded ?_
  intro r hr
  obtain ⟨v, hv, rfl⟩ := Option.map_eq_some_iff.mp hr
  have hselected := hneeded (if op.selectsFirst (value ρ c) then a else b)
    (by simp [neededInPass, needed])
  have hvalue : value ρ (node 0 (.conditional op c a b)) =
      value ρ (if op.selectsFirst (value ρ c) then a else b) := by
    rw [value]
    split <;> rfl
  rw [hvalue, ← value_of_asConstant hv ρ]
  exact .pure hselected.means

/-- **Rules of construction keep the value.**  Over defined formulas the simple node
means what the node as it stands would. -/
theorem ofShape_means {shape : Shape PartialReal (Formula PartialReal)}
    (hshape : ∀ name, shape ≠ .var name) (hneeded : ∀ c ∈ neededInPass ρ shape, c.Defined ρ) :
    Yields (ofShape shape) (Means ρ (value ρ (node 0 shape))) := by
  cases shape with
  | unary op a =>
      rw [ofShape_unary, value]
      exact unary_means op (hneeded a (by simp [neededInPass, needed, Shape.children]))
  | binary op a b =>
      rw [ofShape_binary, value]
      exact binary_means op (hneeded a (by simp [neededInPass, needed, Shape.children]))
        (hneeded b (by simp [neededInPass, needed, Shape.children]))
  | assoc op args =>
      have hargs : ∀ e ∈ args, e.Defined ρ := hneeded
      rw [ofShape_assoc, value, apply_values op hargs]
      exact assoc_means op hargs
  | conditional op c a b => exact conditional_means op hneeded
  | tabulated mark t a =>
      rw [ofShape_tabulated]
      exact build_means hshape hneeded (by simp)
  | const v => exact new_means hshape hneeded
  | var name => exact absurd rfl (hshape name)
  | solver s => exact new_means hshape hneeded

end Formula

end FormulaGraph
