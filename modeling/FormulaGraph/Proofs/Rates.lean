import FormulaGraph.Proofs.RegularPoints

/-!
# Rates

Let every variable change at a velocity of its own.  What the rules of calculus make of the
velocities is the **rate** of a formula.  No limit is taken: a rate is a number at every
valuation, and at regular points it is a slope.  A table changes by what is taken for its
slope, the derivative supplied with it or a table of differences.

The number a formula has and its rate make a *dual number*, and dual numbers have amounts
that obey the laws of amounts.  So flattening keeps rates as it keeps values, and so do all
rules of construction (`ofShape_rate`).
-/

namespace FormulaGraph

open PartialReal

/-! ## Amounts of dual numbers -/

/-- The number `x` with the rate `v`. -/
def withRate (x v : ℝ) : DualNumber ℝ := (x, v)

@[simp] theorem fst_withRate (x v : ℝ) : (withRate x v).fst = x := rfl

@[simp] theorem snd_withRate (x v : ℝ) : (withRate x v).snd = v := rfl

namespace AssocOp

/-- What an operation makes of numbers with rates. -/
noncomputable def dualAmount (op : AssocOp) (zs : List (DualNumber ℝ)) : DualNumber ℝ :=
  withRate (op.amount (zs.map (·.fst))) (op.slope (zs.map (·.fst)) (zs.map (·.snd)))

@[simp] theorem fst_dualAmount (op : AssocOp) (zs : List (DualNumber ℝ)) :
    (op.dualAmount zs).fst = op.amount (zs.map (·.fst)) := rfl

@[simp] theorem snd_dualAmount (op : AssocOp) (zs : List (DualNumber ℝ)) :
    (op.dualAmount zs).snd = op.slope (zs.map (·.fst)) (zs.map (·.snd)) := rfl

/-- The dual amount of a sum is the sum of dual numbers. -/
theorem dualAmount_add (zs : List (DualNumber ℝ)) : add.dualAmount zs = zs.sum := by
  ext
  · rw [fst_dualAmount, amount]
    exact (map_list_sum (TrivSqZeroExt.fstHom ℝ ℝ ℝ) zs).symm
  · simp only [snd_dualAmount, slope, slopeTerms]
    exact (map_list_sum (TrivSqZeroExt.sndHom ℝ ℝ) zs).symm

/-- The dual amount of a product is the product of dual numbers. -/
theorem dualAmount_multiply (zs : List (DualNumber ℝ)) :
    multiply.dualAmount zs = zs.prod := by
  induction zs with
  | nil => ext <;> simp [amount, slope, slopeTerms, productTerms]
  | cons z zs ih =>
      rw [List.prod_cons, ← ih]
      ext
      · simp [amount]
      · simp only [snd_dualAmount, slope, slopeTerms, List.map_cons, productTerms, List.sum_cons,
          List.nil_append, List.prod_cons, DualNumber.snd_mul, fst_dualAmount, amount]
        rw [sum_productTerms [z.fst], List.prod_singleton]
        ring

/-- What numbers with rates contribute to the rate of their length. -/
def moment (zs : List (DualNumber ℝ)) : ℝ := (zs.map fun z => z.fst * z.snd).sum

/-- The rate of a length is its moment divided by the length. -/
theorem snd_dualAmount_hypot (zs : List (DualNumber ℝ)) :
    (hypot.dualAmount zs).snd = moment zs / length (zs.map (·.fst)) := by
  rw [snd_dualAmount, slope, slopeTerms, List.zipWith_map, List.zipWith_self]
  rfl

/-- A length that is zero is one of zeros. -/
theorem length_mul_moment_div (zs : List (DualNumber ℝ)) :
    length (zs.map (·.fst)) * (moment zs / length (zs.map (·.fst))) = moment zs := by
  refine mul_div_cancel_of_imp' fun hzero => ?_
  have hsquares : (zs.map fun z => z.fst * z.fst).sum = 0 := by
    have hsum := length_mul_self (zs.map (·.fst))
    rw [hzero, mul_zero, List.map_map] at hsum
    exact hsum.symm
  refine List.sum_eq_zero fun y hy => ?_
  obtain ⟨z, hz, rfl⟩ := List.mem_map.mp hy
  have hsquare : z.fst * z.fst = 0 := by
    refine List.all_zero_of_le_zero_le_of_sum_eq_zero ?_ hsquares (List.mem_map_of_mem hz)
    simpa using fun w _ => mul_self_nonneg (TrivSqZeroExt.fst w)
  rw [mul_self_eq_zero.mp hsquare, zero_mul]

/-- The order of the arguments does not matter. -/
theorem dualAmount_perm (op : AssocOp) {xs ys : List (DualNumber ℝ)} (h : xs.Perm ys) :
    op.dualAmount xs = op.dualAmount ys := by
  cases op with
  | add => rw [dualAmount_add, dualAmount_add, h.sum_eq]
  | multiply => rw [dualAmount_multiply, dualAmount_multiply, h.prod_eq]
  | hypot =>
      have hlength := hypot.amount_perm (h.map (·.fst))
      ext
      · exact hlength
      · rw [snd_dualAmount_hypot, snd_dualAmount_hypot, moment, (h.map _).sum_eq]
        exact congrArg (_ / ·) hlength

/-- A sum within a sum, taken apart, keeps value and rate; likewise for products and lengths. -/
theorem dualAmount_cons_dualAmount (op : AssocOp) (xs ys : List (DualNumber ℝ)) :
    op.dualAmount (op.dualAmount xs :: ys) = op.dualAmount (xs ++ ys) := by
  cases op with
  | add => rw [dualAmount_add, dualAmount_add, dualAmount_add, List.sum_cons, List.sum_append]
  | multiply =>
      rw [dualAmount_multiply, dualAmount_multiply, dualAmount_multiply, List.prod_cons,
        List.prod_append]
  | hypot =>
      have hlength := hypot.amount_cons_amount (xs.map (·.fst)) (ys.map (·.fst))
      rw [← List.map_append] at hlength
      ext
      · exact hlength
      · rw [snd_dualAmount_hypot, snd_dualAmount_hypot, moment, moment, List.map_cons,
          List.sum_cons, snd_dualAmount_hypot, List.map_append, List.sum_append]
        rw [fst_dualAmount, amount, length_mul_moment_div]
        exact congrArg (_ / ·) hlength

/-- A sum or product of one argument is the argument. -/
theorem dualAmount_singleton {op : AssocOp} (h : op ≠ .hypot) (z : DualNumber ℝ) :
    op.dualAmount [z] = z := by
  cases op with
  | add => rw [dualAmount_add, List.sum_singleton]
  | multiply => rw [dualAmount_multiply, List.prod_singleton]
  | hypot => exact absurd rfl h

/-- Constant arguments have no rate. -/
theorem dualAmount_numbers (op : AssocOp) (xs : List ℝ) :
    op.dualAmount (xs.map TrivSqZeroExt.inl) = TrivSqZeroExt.inl (op.amount xs) := by
  cases op with
  | add =>
      rw [dualAmount_add, amount]
      exact (map_list_sum (TrivSqZeroExt.inlHom ℝ ℝ) xs).symm
  | multiply =>
      rw [dualAmount_multiply, amount]
      exact (map_list_prod (TrivSqZeroExt.inlHom ℝ ℝ) xs).symm
  | hypot =>
      ext
      · simp [Function.comp_def]
      · rw [snd_dualAmount_hypot]
        simp [moment, Function.comp_def]

/-- A neutral constant may be dropped. -/
theorem dualAmount_cons_of_isNeutral {op : AssocOp} {x : ℝ} (h : op.isNeutral (real x) = true)
    (zs : List (DualNumber ℝ)) :
    op.dualAmount (TrivSqZeroExt.inl x :: zs) = op.dualAmount zs := by
  cases op with
  | add =>
      have hx : x = 0 := (beq_real _ _).mp h
      rw [dualAmount_add, List.sum_cons, hx, TrivSqZeroExt.inl_zero, zero_add, dualAmount_add]
  | multiply =>
      have hx : x = 1 := (beq_real _ _).mp h
      rw [dualAmount_multiply, List.prod_cons, hx, TrivSqZeroExt.inl_one, one_mul,
        dualAmount_multiply]
  | hypot =>
      have hlength := amount_cons_of_isNeutral h (zs.map (·.fst))
      ext
      · exact hlength
      · rw [snd_dualAmount_hypot, snd_dualAmount_hypot]
        simp only [moment, List.map_cons, List.sum_cons, TrivSqZeroExt.snd_inl, mul_zero, zero_add]
        exact congrArg (_ / ·) hlength

/-- The square of a length is the sum of the squares. -/
theorem dualAmount_mul_self (zs : List (DualNumber ℝ)) :
    hypot.dualAmount zs * hypot.dualAmount zs = add.dualAmount (zs.map fun z => z * z) := by
  rw [dualAmount_add]
  ext
  · rw [TrivSqZeroExt.fst_mul, fst_dualAmount, amount, length_mul_self,
      ← TrivSqZeroExt.fstHom_apply ℝ, map_list_sum]
    simp [Function.comp_def]
  · rw [DualNumber.snd_mul, fst_dualAmount, snd_dualAmount_hypot, amount, mul_comm (_ / _),
      length_mul_moment_div, ← TrivSqZeroExt.sndHom_apply ℝ, map_list_sum]
    simp [moment, Function.comp_def, List.sum_map_add, mul_comm]

/-- Constants do not change, and what is made of them does not. -/
theorem slope_zeros (op : AssocOp) (xs : List ℝ) : op.slope xs (xs.map fun _ => 0) = 0 := by
  have hnumbers := congrArg TrivSqZeroExt.snd (op.dualAmount_numbers xs)
  simpa [Function.comp_def] using hnumbers

end AssocOp

namespace BinaryOp

/-- Constant operands have slope zero. -/
theorem slope_zero (op : BinaryOp) (y z : ℝ) : op.slope y z 0 0 = 0 := by
  cases op <;> simp [slope]

end BinaryOp

namespace Formula

/-! ## The rate of a formula -/

/-- What a table takes for its slope at an argument: the value of the derivative supplied
with it, or what the table of differences has there. -/
noncomputable def tableSlope (ρ : Valuation PartialReal)
    (t : Table PartialReal (Formula PartialReal)) (argument : PartialReal) : PartialReal :=
  match t.derivative with
  | some d => value ρ d
  | none => t.finiteDifference.interpolate argument

/-- What a table takes its slope from is defined. -/
def TableSloped (ρ : Valuation PartialReal) (t : Table PartialReal (Formula PartialReal))
    (argument : PartialReal) : Prop :=
  match t.derivative with
  | some d => d.Defined ρ
  | none => t.finiteDifference.interpolate argument ≠ undefined

mutual

/-- The rate of a formula where the variables have the velocities `δ`. -/
noncomputable def rate (ρ : Valuation PartialReal) (δ : NodeId → ℝ) :
    Formula PartialReal → ℝ
  | node _ (.const _) => 0
  | node id (.var _) => δ id
  | node _ (.unary op a) => op.slope (realValue ρ a) (rate ρ δ a)
  | node _ (.binary op a b) =>
    op.slope (realValue ρ a) (realValue ρ b) (rate ρ δ a) (rate ρ δ b)
  | node _ (.assoc op args) => op.slope (args.map (realValue ρ)) (rates ρ δ args)
  | node _ (.conditional op c a b) =>
    if op.selectsFirst (value ρ c) then rate ρ δ a else rate ρ δ b
  | node _ (.tabulated _ t a) => (tableSlope ρ t (value ρ a)).toReal * rate ρ δ a
  | node _ (.solver _) => 0

/-- The rates of several formulas. -/
noncomputable def rates (ρ : Valuation PartialReal) (δ : NodeId → ℝ) :
    List (Formula PartialReal) → List ℝ
  | [] => []
  | e :: es => rate ρ δ e :: rates ρ δ es

end

variable {ρ : Valuation PartialReal} {δ : NodeId → ℝ}

/-- Several formulas change one by one. -/
theorem rates_eq_map (es : List (Formula PartialReal)) :
    rates ρ δ es = es.map (rate ρ δ) := by
  induction es with
  | nil => rfl
  | cons e es ih => rw [rates, ih, List.map_cons]

/-- The number of a node other than a variable does not count for its rate. -/
theorem rate_node {shape : Shape PartialReal (Formula PartialReal)}
    (h : ∀ name, shape ≠ .var name) (id id' : NodeId) :
    rate ρ δ (node id shape) = rate ρ δ (node id' shape) := by
  cases shape with
  | var name => exact absurd rfl (h name)
  | _ => simp only [rate]

/-- Constants do not change. -/
theorem rate_of_isConstant {e : Formula PartialReal} (h : e.isConstant = true) :
    rate ρ δ e = 0 := by
  obtain ⟨v, hv⟩ := eq_const_of_isConstant h
  rw [hv, rate]

/-- What compares as a number does not change. -/
theorem rate_of_isConstantValue {e : Formula PartialReal} {v : PartialReal}
    (h : e.isConstantValue v = true) : rate ρ δ e = 0 := by
  refine rate_of_isConstant ?_
  rw [isConstantValue] at h
  rw [isConstant]
  cases hconst : e.asConstant with
  | none => simp [hconst] at h
  | some c => rfl

/-- What constants fold to does not change. -/
theorem rate_of_foldConstants {shape : Shape PartialReal (Formula PartialReal)}
    {v : PartialReal} (h : foldConstants shape = some v) (id : NodeId) :
    rate ρ δ (node id shape) = 0 := by
  have hchildren : ∀ c ∈ shape.children, rate ρ δ c = 0 := by
    intro c hc
    refine rate_of_isConstant ?_
    by_contra hnot
    have hall : shape.children.all isConstant = false := List.all_eq_false.mpr ⟨c, hc, hnot⟩
    cases shape <;> simp_all [foldConstants]
  cases shape with
  | const v => rw [rate]
  | var name => cases h
  | solver s => cases h
  | unary op a => rw [rate, hchildren a (by simp [Shape.children]), op.slope_zero]
  | binary op a b =>
      rw [rate, hchildren a (by simp [Shape.children]), hchildren b (by simp [Shape.children]),
        op.slope_zero]
  | assoc op args =>
      have hzeros : args.map (rate ρ δ) = (args.map (realValue ρ)).map fun _ => 0 := by
        rw [List.map_map]
        exact List.map_congr_left hchildren
      rw [rate, rates_eq_map, hzeros, op.slope_zeros]
  | conditional op c a b =>
      rw [rate, hchildren a (by simp [Shape.children]), hchildren b (by simp [Shape.children]),
        ite_self]
  | tabulated mark t a => rw [rate, hchildren a (by simp [Shape.children]), mul_zero]

/-! ## The rules of construction keep the rate -/

/-- Reading values together with rates. -/
noncomputable def dualTally (ρ : Valuation PartialReal) (δ : NodeId → ℝ) :
    Tally 0 (Defined ρ) (DualNumber ℝ) where
  closed := defined_closed ρ
  read e := withRate (realValue ρ e) (rate ρ δ e)
  amount := AssocOp.dualAmount
  number := TrivSqZeroExt.inl
  square z := z * z
  read_const id x := by
    rw [rate, realValue_eq (by rw [value])]
    rfl
  read_assoc {id op args} h := by
    have hargs := (defined_closed ρ).args h
    rw [rate, rates_eq_map, realValue_eq (by rw [value, apply_values _ hargs])]
    simp [AssocOp.dualAmount, Function.comp_def]
  read_square {id a} _ ha := by
    rw [rate, realValue_square ha]
    ext
    · rfl
    · rw [DualNumber.snd_mul, snd_withRate, snd_withRate, fst_withRate, UnaryOp.slope]
      ring
  amount_perm := AssocOp.dualAmount_perm
  amount_cons_amount := AssocOp.dualAmount_cons_dualAmount
  amount_singleton := AssocOp.dualAmount_singleton
  amount_numbers := AssocOp.dualAmount_numbers
  amount_neutral := AssocOp.dualAmount_cons_of_isNeutral
  amount_zero h := by
    rw [AssocOp.dualAmount_multiply]
    exact List.prod_eq_zero h
  square_number x := (TrivSqZeroExt.inl_mul ℝ x x).symm
  square_length := AssocOp.dualAmount_mul_self

/-- A tally reads off the rate. -/
theorem Tally.Reads.rate_eq {z : DualNumber ℝ} {e : Formula PartialReal}
    (h : (dualTally ρ δ).Reads z e) : rate ρ δ e = z.snd :=
  congrArg TrivSqZeroExt.snd h.read_eq

/-- The formula changes at the rate `v`. -/
def Changes (ρ : Valuation PartialReal) (δ : NodeId → ℝ) (v : ℝ) (e : Formula PartialReal) :
    Prop :=
  rate ρ δ e = v

/-- Sums, products and lengths are built with the rate of their rule. -/
theorem assoc_rate (op : AssocOp) {args : List (Formula PartialReal)}
    (hargs : ∀ e ∈ args, e.Defined ρ) :
    Yields (assoc op args)
      (Changes ρ δ (op.slope (args.map (realValue ρ)) (args.map (rate ρ δ)))) := by
  refine (Tally.assoc_reads (T := dualTally ρ δ) op hargs).yields.mono fun _ h => ?_
  rw [Changes, h.rate_eq]
  simp [dualTally, Function.comp_def]

/-- A square is built with the rate of its rule. -/
theorem square_rate {a : Formula PartialReal} (ha : a.Defined ρ) :
    Yields (square a) (Changes ρ δ (UnaryOp.square.slope (realValue ρ a) (rate ρ δ a))) := by
  refine (Tally.square_reads (T := dualTally ρ δ) ha).yields.mono fun _ h => ?_
  rw [Changes, h.rate_eq, UnaryOp.slope]
  simp only [dualTally, DualNumber.snd_mul, fst_withRate, snd_withRate]
  ring

/-- A constant folded, or what the rule says, or the node as it stands. -/
theorem build_rate {shape : Shape PartialReal (Formula PartialReal)}
    {rule : Option (Fresh (Formula PartialReal))} (hshape : ∀ name, shape ≠ .var name)
    (hrule : ∀ r ∈ rule, Yields r (Changes ρ δ (rate ρ δ (node 0 shape)))) :
    Yields (build shape rule) (Changes ρ δ (rate ρ δ (node 0 shape))) := by
  rw [build]
  cases hfold : foldConstants shape with
  | some v =>
      rw [rate_of_foldConstants hfold]
      exact .new fun id => by rw [Changes, rate]
  | none =>
      cases rule with
      | some r => exact hrule r rfl
      | none => exact .new fun id => rate_node hshape id 0

/-- What an inverse pair of operations does to a defined formula. -/
theorem inner_rate {op inner : UnaryOp} {a b : Formula PartialReal} (ha : a.Defined ρ)
    (hshape : a.shape = .unary inner b)
    (hcancel : ∀ x y d, inner.apply (real x) = real y → op.slope y (inner.slope x d) = d) :
    Changes ρ δ (op.slope (realValue ρ a) (rate ρ δ a)) b := by
  obtain ⟨id, shape⟩ := a
  subst hshape
  have hb : b.Defined ρ := ha.needed (by simp [neededInPass, needed, Shape.children])
  have hinner := ha.value_eq
  rw [value, hb.value_eq] at hinner
  rw [rate, hcancel _ _ _ hinner, Changes]

/-- The logarithm of an exponential has the rate of its argument. -/
theorem slope_log_exp {x y d : ℝ} (h : UnaryOp.exp.apply (real x) = real y) :
    UnaryOp.log.slope y (UnaryOp.exp.slope x d) = d := by
  have hy : Real.exp x = y := real.inj h
  rw [← hy, UnaryOp.slope, UnaryOp.slope, mul_div_cancel_left₀ d (Real.exp_ne_zero x)]

/-- The exponential of a logarithm has the slope of its argument. -/
theorem slope_exp_log {x y d : ℝ} (h : UnaryOp.log.apply (real x) = real y) :
    UnaryOp.exp.slope y (UnaryOp.log.slope x d) = d := by
  rw [UnaryOp.apply] at h
  by_cases hx : 0 < x
  · rw [log_real hx] at h
    rw [← real.inj h, UnaryOp.slope, UnaryOp.slope, Real.exp_log hx, mul_div_cancel₀ d hx.ne']
  · rw [log_real_of_nonpos (not_lt.mp hx)] at h
    cases h

/-- What is negated twice has the slope of its argument. -/
theorem slope_negate_negate {x y d : ℝ} :
    UnaryOp.negate.slope y (UnaryOp.negate.slope x d) = d := by
  rw [UnaryOp.slope, UnaryOp.slope, neg_neg]

/-- Unary functions are built with the rate of their rule, whatever is folded on the way. -/
theorem unary_rate (op : UnaryOp) {a : Formula PartialReal} (ha : a.Defined ρ) :
    Yields (unary op a) (Changes ρ δ (op.slope (realValue ρ a) (rate ρ δ a))) := by
  have hrate : rate ρ δ (node 0 (.unary op a)) = op.slope (realValue ρ a) (rate ρ δ a) := by
    rw [rate]
  rw [unary, ← hrate]
  refine build_rate (by simp) ?_
  intro r hr
  rw [hrate]
  unfold unaryRule at hr
  split at hr
  · next h => exact Option.some.inj hr ▸ .pure (inner_rate ha h fun _ _ _ => slope_log_exp)
  · next h => exact Option.some.inj hr ▸ .pure (inner_rate ha h fun _ _ _ => slope_exp_log)
  · next h => exact Option.some.inj hr ▸ .pure (inner_rate ha h fun _ _ _ _ => slope_negate_negate)
  · exact Option.some.inj hr ▸ square_rate ha
  · cases hr

/-- A quotient by a constant is the product with its reciprocal. -/
theorem reciprocal_rate {a b : Formula PartialReal} (ha : a.Defined ρ) (hb : b.Defined ρ)
    {divisor : PartialReal} (hconst : b.asConstant = some divisor)
    (hne : ¬b.isConstantValue 0 = true) :
    Yields (do let reciprocal ← constant (1 / divisor); product [a, reciprocal])
      (Changes ρ δ (BinaryOp.divide.slope (realValue ρ a) (realValue ρ b) (rate ρ δ a)
        (rate ρ δ b))) := by
  obtain ⟨y, rfl, hy⟩ := exists_ne_zero_of_asConstant hb hconst hne
  have hconstant : b.isConstant = true := by rw [isConstant, hconst]; rfl
  rw [one_eq, real_div 1 hy, rate_of_isConstant hconstant,
    realValue_eq (value_of_asConstant hconst ρ)]
  refine .bind (Tally.constant_reads (T := dualTally ρ δ) _).yields fun c hc => ?_
  refine (assoc_rate (δ := δ) .multiply (by simpa using ⟨ha, hc.holds⟩)).mono fun _ h => ?_
  have hcValue : realValue ρ c = 1 / y := congrArg TrivSqZeroExt.fst hc.read_eq
  have hcRate : rate ρ δ c = 0 := hc.rate_eq
  rw [Changes, h, BinaryOp.slope]
  simp [AssocOp.slope, AssocOp.slopeTerms, AssocOp.productTerms, hcValue, hcRate]
  field_simp

/-- Binary operations are built with the rate of their rule. -/
theorem binary_rate (op : BinaryOp) {a b : Formula PartialReal} (ha : a.Defined ρ)
    (hb : b.Defined ρ) : Yields (binary op a b)
      (Changes ρ δ (op.slope (realValue ρ a) (realValue ρ b) (rate ρ δ a) (rate ρ δ b))) := by
  have hrate : rate ρ δ (node 0 (.binary op a b)) =
      op.slope (realValue ρ a) (realValue ρ b) (rate ρ δ a) (rate ρ δ b) := by
    rw [rate]
  rw [binary, ← hrate]
  refine build_rate (by simp) ?_
  intro r hr
  rw [hrate]
  cases op with
  | subtract =>
      simp only [binaryRule] at hr
      rw [BinaryOp.slope]
      split at hr
      · next hzero =>
          rw [rate_of_isConstantValue hzero, sub_zero]
          exact Option.some.inj hr ▸ .pure rfl
      · split at hr
        · next hzero =>
            rw [rate_of_isConstantValue hzero, zero_sub]
            exact Option.some.inj hr ▸ unary_rate .negate hb
        · cases hr
  | divide =>
      simp only [binaryRule] at hr
      split at hr
      · next hzero =>
          have hslope : BinaryOp.divide.slope (realValue ρ a) (realValue ρ b) (rate ρ δ a)
              (rate ρ δ b) = 0 := by
            rcases Bool.or_eq_true _ _ |>.mp hzero with h | h
            · rw [rate_of_isConstantValue h, realValue_eq (isConstantValue_zero h)]
              simp [BinaryOp.slope]
            · rw [realValue_eq (isConstantValue_zero h)]
              simp [BinaryOp.slope]
          rw [hslope]
          exact Option.some.inj hr ▸ .pure (by rw [Changes, zero, rate])
      · next hzero =>
          obtain ⟨divisor, hconst, rfl⟩ := Option.map_eq_some_iff.mp hr
          exact reciprocal_rate ha hb hconst fun h => hzero (by rw [h, Bool.or_true])
  | atan2 => cases hr
  | max => cases hr
  | min => cases hr

/-- Conditionals are built with the rate of the branch that is selected. -/
theorem conditional_rate (op : ConditionalOp) {c a b : Formula PartialReal} :
    Yields (ofShape (.conditional op c a b))
      (Changes ρ δ (rate ρ δ (node 0 (.conditional op c a b)))) := by
  rw [ofShape_conditional]
  refine build_rate (by simp) ?_
  intro r hr
  obtain ⟨v, hv, rfl⟩ := Option.map_eq_some_iff.mp hr
  rw [rate, value_of_asConstant hv]
  split <;> exact .pure rfl

/-- **Rules of construction keep the rate.**  Over defined formulas the simple node changes
as the node as it stands would. -/
theorem ofShape_rate {shape : Shape PartialReal (Formula PartialReal)}
    (hshape : ∀ name, shape ≠ .var name) (hneeded : ∀ c ∈ neededInPass ρ shape, c.Defined ρ) :
    Yields (ofShape shape) (Changes ρ δ (rate ρ δ (node 0 shape))) := by
  have hnew : Yields (new shape) (Changes ρ δ (rate ρ δ (node 0 shape))) :=
    .new fun id => rate_node hshape id 0
  cases shape with
  | unary op a =>
      rw [ofShape_unary, rate]
      exact unary_rate op (hneeded a (by simp [neededInPass, needed, Shape.children]))
  | binary op a b =>
      rw [ofShape_binary, rate]
      exact binary_rate op (hneeded a (by simp [neededInPass, needed, Shape.children]))
        (hneeded b (by simp [neededInPass, needed, Shape.children]))
  | assoc op args =>
      have hargs : ∀ e ∈ args, e.Defined ρ := hneeded
      rw [ofShape_assoc, rate, rates_eq_map]
      exact assoc_rate op hargs
  | conditional op c a b => exact conditional_rate op
  | tabulated mark t a =>
      rw [ofShape_tabulated]
      exact build_rate hshape (by simp)
  | const v => exact hnew
  | var name => exact absurd rfl (hshape name)
  | solver s => exact hnew

end Formula

end FormulaGraph
