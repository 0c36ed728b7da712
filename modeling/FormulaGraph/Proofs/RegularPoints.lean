import FormulaGraph.Proofs.RuleSoundness

/-!
# Regular points of the operations

On real numbers every operation is a function, and at its **regular points** a
differentiable one: a logarithm or a root at a positive number, an inverse cosine
inside its domain, a quotient where the divisor is not zero, an angle off the
closed negative half of the first axis, a maximum of different numbers, a length
that is not zero.  Regular points have regular points around them, so near one the
operation is the function throughout.

For each family there are the function (`onReals`, `amount`), its regular points
(`RegularAt`), the rule that gives its slope from the slopes of the arguments
(`slope`), and a theorem that this is its slope.
-/

namespace FormulaGraph

open PartialReal Filter Topology

/-! ## The integrals -/

namespace PartialReal

/-- The sine integral has the sinc function for a derivative, everywhere. -/
theorem hasDerivAt_realSineIntegral (x : ℝ) :
    HasDerivAt realSineIntegral (Real.sinc x) x :=
  (Real.continuous_sinc.integral_hasStrictDerivAt 0 x).hasDerivAt

/-- What is integrated has no gap at zero. -/
theorem cosine_difference_eq (t : ℝ) :
    (Real.cos t - 1) / t = -(Real.sin (t / 2) * Real.sinc (t / 2)) := by
  by_cases ht : t = 0
  · simp [ht]
  · have hhalf : t / 2 ≠ 0 := div_ne_zero ht two_ne_zero
    have hcos : Real.cos t = 1 - 2 * Real.sin (t / 2) ^ 2 := by
      have hdouble := Real.cos_two_mul (t / 2)
      have hsquare := Real.sin_sq_add_cos_sq (t / 2)
      rw [mul_div_cancel₀ t two_ne_zero] at hdouble
      linarith
    rw [Real.sinc_of_ne_zero hhalf, hcos]
    field_simp
    ring

/-- The cosine integral has the derivative its definition suggests, except at zero. -/
theorem hasDerivAt_realCosineIntegral {x : ℝ} (hx : x ≠ 0) :
    HasDerivAt realCosineIntegral (Real.cos x / x) x := by
  have hcontinuous : Continuous fun t : ℝ => (Real.cos t - 1) / t := by
    simp only [cosine_difference_eq]
    have hsinc := Real.continuous_sinc
    fun_prop
  have hintegral := (hcontinuous.integral_hasStrictDerivAt 0 x).hasDerivAt
  have hlog := (Real.hasDerivAt_log hx).const_add Real.eulerMascheroniConstant
  have hslope : x⁻¹ + (Real.cos x - 1) / x = Real.cos x / x := by
    field_simp
    ring
  rw [← hslope]
  exact hlog.add hintegral

end PartialReal

/-! ## One argument -/

namespace UnaryOp

/-- What the functions are on real numbers. -/
noncomputable def onReals : UnaryOp → ℝ → ℝ
  | negate, y => -y
  | square, y => y * y
  | sqrt, y => Real.sqrt y
  | exp, y => Real.exp y
  | log, y => Real.log y
  | sin, y => Real.sin y
  | cos, y => Real.cos y
  | atan, y => Real.arctan y
  | acos, y => Real.arccos y
  | cosineIntegral, y => realCosineIntegral y
  | sineIntegral, y => realSineIntegral y

/-- Where the rule of differentiation holds: roots, logarithms and the integrals ask for a
positive argument, the arc cosine for one inside its range. -/
def RegularAt : UnaryOp → ℝ → Prop
  | sqrt, y | log, y | cosineIntegral, y | sineIntegral, y => 0 < y
  | acos, y => -1 < y ∧ y < 1
  | _, _ => True

/-- The slope at `y` for an argument with slope `d`. -/
noncomputable def slope : UnaryOp → (y d : ℝ) → ℝ
  | negate, _, d => -d
  | square, y, d => 2 * y * d
  | sqrt, y, d => 1 / 2 * d / Real.sqrt y
  | exp, y, d => Real.exp y * d
  | log, y, d => d / y
  | sin, y, d => Real.cos y * d
  | cos, y, d => -(Real.sin y * d)
  | atan, y, d => d / (y * y + 1)
  | acos, y, d => -(d / Real.sqrt (1 - y * y))
  | cosineIntegral, y, d => Real.cos y * d / y
  | sineIntegral, y, d => Real.sin y * d / y

/-- Constant arguments have slope zero. -/
theorem slope_zero (op : UnaryOp) (y : ℝ) : op.slope y 0 = 0 := by
  cases op <;> simp [slope]

/-- At a regular point the value is real. -/
theorem apply_real {op : UnaryOp} {y : ℝ} (h : op.RegularAt y) :
    op.apply (real y) = real (op.onReals y) := by
  cases op with
  | sqrt => exact sqrt_real (le_of_lt h)
  | log => exact log_real h
  | acos => exact if_pos ⟨le_of_lt h.1, le_of_lt h.2⟩
  | cosineIntegral => exact if_pos (ne_of_gt h)
  | _ => rfl

/-- Where an operation has a result, it is that of the function. -/
theorem apply_eq_onReals {op : UnaryOp} {y : ℝ} (h : op.apply (real y) ≠ undefined) :
    op.apply (real y) = real (op.onReals y) := by
  cases op with
  | sqrt =>
      by_cases hy : 0 ≤ y
      · exact if_pos hy
      · exact absurd (if_neg hy) h
  | log =>
      by_cases hy : 0 < y
      · exact log_real hy
      · exact absurd (log_real_of_nonpos (not_lt.mp hy)) h
  | acos =>
      by_cases hy : -1 ≤ y ∧ y ≤ 1
      · exact if_pos hy
      · exact absurd (if_neg hy) h
  | cosineIntegral =>
      by_cases hy : y ≠ 0
      · exact if_pos hy
      · exact absurd (if_neg hy) h
  | _ => rfl

/-- Regular points are inner ones: nearby arguments are regular too. -/
theorem RegularAt.eventually {op : UnaryOp} {f : ℝ → ℝ} {x : ℝ} (h : op.RegularAt (f x))
    (hf : ContinuousAt f x) : ∀ᶠ t in 𝓝 x, op.RegularAt (f t) := by
  cases op with
  | sqrt => exact hf.eventually (lt_mem_nhds h)
  | log => exact hf.eventually (lt_mem_nhds h)
  | cosineIntegral => exact hf.eventually (lt_mem_nhds h)
  | sineIntegral => exact hf.eventually (lt_mem_nhds h)
  | acos => exact (hf.eventually (lt_mem_nhds h.1)).and (hf.eventually (gt_mem_nhds h.2))
  | _ => exact Eventually.of_forall fun _ => trivial

/-- At a regular point the function has the slope that the rule of differentiation gives. -/
theorem hasDerivAt_onReals {op : UnaryOp} {f : ℝ → ℝ} {x d : ℝ} (h : op.RegularAt (f x))
    (hf : HasDerivAt f d x) : HasDerivAt (fun t => op.onReals (f t)) (op.slope (f x) d) x := by
  cases op with
  | negate => exact hf.neg
  | square =>
      refine (hf.fun_mul hf).congr_deriv ?_
      simp only [slope]
      ring
  | sqrt =>
      refine (hf.sqrt (ne_of_gt h)).congr_deriv ?_
      simp only [slope]
      field_simp
  | exp => exact hf.exp
  | log => exact hf.log (ne_of_gt h)
  | sin => exact hf.sin
  | cos =>
      refine hf.cos.congr_deriv ?_
      simp only [slope]
      ring
  | atan =>
      refine hf.arctan.congr_deriv ?_
      simp only [slope]
      field_simp
      ring
  | acos =>
      refine ((Real.hasDerivAt_arccos (ne_of_gt h.1) (ne_of_lt h.2)).comp x hf).congr_deriv ?_
      simp only [slope, pow_two]
      field_simp
  | cosineIntegral =>
      refine ((hasDerivAt_realCosineIntegral (ne_of_gt h)).comp x hf).congr_deriv ?_
      simp only [slope]
      ring
  | sineIntegral =>
      refine ((hasDerivAt_realSineIntegral (f x)).comp x hf).congr_deriv ?_
      rw [Real.sinc_of_ne_zero (ne_of_gt h)]
      simp only [slope]
      ring

end UnaryOp

/-! ## Two arguments -/

namespace BinaryOp

/-- What the binary operations are on real numbers. -/
noncomputable def onReals : BinaryOp → ℝ → ℝ → ℝ
  | subtract, a, b => a - b
  | divide, a, b => a / b
  | atan2, a, b => Complex.arg ⟨b, a⟩
  | max, a, b => Max.max a b
  | min, a, b => Min.min a b

/-- Where the rule of differentiation holds: a divisor must not be zero, a point not on the cut
of its angle, and of equal arguments neither is the greater. -/
def RegularAt : BinaryOp → ℝ → ℝ → Prop
  | subtract, _, _ => True
  | divide, _, b => b ≠ 0
  | atan2, a, b => ¬(b ≤ 0 ∧ a = 0)
  | max, a, b | min, a, b => a ≠ b

/-- The slope at `a` and `b` for arguments with the slopes `da` and `db`. -/
noncomputable def slope : BinaryOp → (a b da db : ℝ) → ℝ
  | subtract, _, _, da, db => da - db
  | divide, a, b, da, db => (da * b - a * db) / (b * b)
  | atan2, a, b, da, db => (b * da - a * db) / (a * a + b * b)
  | max, a, b, da, db => if 0 < a - b then da else db
  | min, a, b, da, db => if 0 < a - b then db else da

/-- A quotient by zero is zero on both sides. -/
theorem apply_real (op : BinaryOp) (a b : ℝ) :
    op.apply (real a) (real b) = real (op.onReals a b) := by
  cases op with
  | subtract => rfl
  | divide =>
      by_cases ha : a = 0
      · simp [apply, Scalar.safeDiv, onReals, ha]
      · by_cases hb : b = 0
        · simp [apply, Scalar.safeDiv, onReals, hb]
        · simp [apply, Scalar.safeDiv, onReals, ha, hb, real_div]
  | atan2 => rfl
  | max => exact larger_real a b
  | min => exact smaller_real a b

/-- The angle of a moving point off the closed negative half-axis, as the imaginary
part of the logarithm. -/
theorem hasDerivAt_arg {f g : ℝ → ℝ} {x da db : ℝ} (h : ¬(g x ≤ 0 ∧ f x = 0))
    (hf : HasDerivAt f da x) (hg : HasDerivAt g db x) :
    HasDerivAt (fun t => Complex.arg ⟨g t, f t⟩)
      ((g x * da - f x * db) / (f x * f x + g x * g x)) x := by
  let z : ℝ → ℂ := fun t => g t + f t * Complex.I
  have hz : HasDerivAt z (db + da * Complex.I) x :=
    hg.ofReal_comp.add (hf.ofReal_comp.mul_const Complex.I)
  have hslit : z x ∈ Complex.slitPlane := by
    rw [Complex.mem_slitPlane_iff]
    rcases not_and_or.mp h with hg0 | hf0
    · exact .inl (by simpa [z] using hg0)
    · exact .inr (by simpa [z] using hf0)
  have harg := Complex.imCLM.hasFDerivAt.comp_hasDerivAt x (hz.clog_real hslit)
  have hcoord : (fun t => Complex.arg ⟨g t, f t⟩) = Complex.imCLM ∘ fun t => Complex.log (z t) := by
    funext t
    simp [z, Complex.log_im, Complex.mk_eq_add_mul_I]
  rw [hcoord]
  refine harg.congr_deriv ?_
  simp [Complex.div_im, Complex.normSq_apply, z]
  ring

/-- At a regular point the operation has the slope that the rule of differentiation gives. -/
theorem hasDerivAt_onReals {op : BinaryOp} {f g : ℝ → ℝ} {x da db : ℝ}
    (h : op.RegularAt (f x) (g x)) (hf : HasDerivAt f da x) (hg : HasDerivAt g db x) :
    HasDerivAt (fun t => op.onReals (f t) (g t)) (op.slope (f x) (g x) da db) x := by
  cases op with
  | subtract => exact hf.fun_sub hg
  | divide =>
      refine (hf.fun_div hg h).congr_deriv ?_
      rw [slope, pow_two]
  | atan2 => exact hasDerivAt_arg h hf hg
  | max =>
      rcases lt_or_gt_of_ne h with hlt | hgt
      · have heq : (fun t => Max.max (f t) (g t)) =ᶠ[𝓝 x] g := by
          filter_upwards [hf.continuousAt.eventually_lt hg.continuousAt hlt] with t ht
          exact max_eq_right ht.le
        rw [slope, if_neg (by linarith)]
        exact hg.congr_of_eventuallyEq heq
      · have heq : (fun t => Max.max (f t) (g t)) =ᶠ[𝓝 x] f := by
          filter_upwards [hg.continuousAt.eventually_lt hf.continuousAt hgt] with t ht
          exact max_eq_left ht.le
        rw [slope, if_pos (by linarith)]
        exact hf.congr_of_eventuallyEq heq
  | min =>
      rcases lt_or_gt_of_ne h with hlt | hgt
      · have heq : (fun t => Min.min (f t) (g t)) =ᶠ[𝓝 x] f := by
          filter_upwards [hf.continuousAt.eventually_lt hg.continuousAt hlt] with t ht
          exact min_eq_left ht.le
        rw [slope, if_neg (by linarith)]
        exact hf.congr_of_eventuallyEq heq
      · have heq : (fun t => Min.min (f t) (g t)) =ᶠ[𝓝 x] g := by
          filter_upwards [hg.continuousAt.eventually_lt hf.continuousAt hgt] with t ht
          exact min_eq_right ht.le
        rw [slope, if_pos (by linarith)]
        exact hg.congr_of_eventuallyEq heq

end BinaryOp

/-! ## Conditions -/

namespace ConditionalOp

/-- The condition of a replacement for zero. -/
theorem coalesce_real (y : ℝ) : coalesce.selectsFirst (real y) = true ↔ y = 0 :=
  beq_real y 0

/-- The condition of a choice by sign. -/
theorem ifPositive_real (y : ℝ) : ifPositive.selectsFirst (real y) = true ↔ 0 < y :=
  less_real 0 y

/-- Conditions on the same side of zero select the same branch. -/
theorem selectsFirst_of_mul_pos (op : ConditionalOp) {y z : ℝ} (h : 0 < y * z) :
    op.selectsFirst (real y) = op.selectsFirst (real z) := by
  rw [Bool.eq_iff_iff]
  rcases pos_and_pos_or_neg_and_neg_of_mul_pos h with ⟨hy, hz⟩ | ⟨hy, hz⟩
  · cases op with
    | coalesce => simp only [coalesce_real, hy.ne', hz.ne']
    | ifPositive => simp only [ifPositive_real, hy, hz]
  · cases op with
    | coalesce => simp only [coalesce_real, hy.ne, hz.ne]
    | ifPositive => simp only [ifPositive_real, hy.not_gt, hz.not_gt]

end ConditionalOp

/-! ## Any number of arguments -/

namespace AssocOp

/-- What the arguments contribute to the slope of a product: the slope of each,
times all others. -/
def productTerms : (before xs ds : List ℝ) → List ℝ
  | before, x :: xs, d :: ds => (before ++ d :: xs).prod :: productTerms (before ++ [x]) xs ds
  | _, _, _ => []

/-- Sums and products are differentiable everywhere; a length is, unless it is zero. -/
def RegularAt : AssocOp → List ℝ → Prop
  | hypot, xs => length xs ≠ 0
  | _, _ => True

/-- What arguments `xs` with slopes `ds` contribute to the slope. -/
noncomputable def slopeTerms : AssocOp → (xs ds : List ℝ) → List ℝ
  | add, _, ds => ds
  | multiply, xs, ds => productTerms [] xs ds
  | hypot, xs, ds => List.zipWith (· * ·) xs ds

/-- The slope made of what the arguments contribute. -/
noncomputable def slope : AssocOp → (xs ds : List ℝ) → ℝ
  | hypot, xs, ds => (hypot.slopeTerms xs ds).sum / length xs
  | op, xs, ds => (op.slopeTerms xs ds).sum

variable {ι : Type} {F : ι → ℝ → ℝ} {x : ℝ}

/-- The derivative of a sum is the sum of the derivatives. -/
theorem hasDerivAt_sum {args : List ι} {ds : List ℝ}
    (h : List.Forall₂ (fun i d => HasDerivAt (F i) d x) args ds) :
    HasDerivAt (fun t => (args.map (F · t)).sum) ds.sum x := by
  induction h with
  | nil => simpa using hasDerivAt_const x (0 : ℝ)
  | cons hhead _ ih => simpa using hhead.fun_add ih

/-- What stands before all arguments is a factor of the sum. -/
theorem sum_productTerms (before xs ds : List ℝ) :
    (productTerms before xs ds).sum = before.prod * (productTerms [] xs ds).sum := by
  induction xs generalizing before ds with
  | nil => simp [productTerms]
  | cons y xs ih =>
      cases ds with
      | nil => simp [productTerms]
      | cons d ds =>
          rw [productTerms, productTerms, List.sum_cons, List.sum_cons, ih, ih ([] ++ [y]),
            List.prod_append, List.prod_append, List.nil_append, List.nil_append,
            List.prod_singleton]
          ring

/-- The product rule for any number of factors. -/
theorem hasDerivAt_prod {args : List ι} {ds : List ℝ}
    (h : List.Forall₂ (fun i d => HasDerivAt (F i) d x) args ds) :
    HasDerivAt (fun t => (args.map (F · t)).prod)
      (productTerms [] (args.map (F · x)) ds).sum x := by
  induction h with
  | nil => simpa [productTerms] using hasDerivAt_const x (1 : ℝ)
  | @cons i d args ds hhead _ ih =>
      have hterms : (productTerms [] ((i :: args).map (F · x)) (d :: ds)).sum =
          d * (args.map (F · x)).prod + F i x * (productTerms [] (args.map (F · x)) ds).sum := by
        rw [List.map_cons, productTerms, List.sum_cons, sum_productTerms, List.nil_append,
          List.nil_append, List.prod_cons, List.prod_singleton]
      rw [hterms]
      simpa only [List.map_cons, List.prod_cons] using hhead.fun_mul ih

/-- The derivative of a sum of squares, by the chain rule. -/
theorem hasDerivAt_sum_squares {args : List ι} {ds : List ℝ}
    (h : List.Forall₂ (fun i d => HasDerivAt (F i) d x) args ds) :
    HasDerivAt (fun t => ((args.map (F · t)).map fun y => y * y).sum)
      (2 * (List.zipWith (· * ·) (args.map (F · x)) ds).sum) x := by
  induction h with
  | nil => simpa using hasDerivAt_const x (0 : ℝ)
  | @cons i d args ds hhead _ ih =>
      simp only [List.map_cons, List.sum_cons, List.zipWith_cons_cons]
      refine ((hhead.fun_mul hhead).fun_add ih).congr_deriv ?_
      ring

/-- The derivative of a length other than zero. -/
theorem hasDerivAt_length {args : List ι} {ds : List ℝ}
    (h : List.Forall₂ (fun i d => HasDerivAt (F i) d x) args ds)
    (hne : length (args.map (F · x)) ≠ 0) :
    HasDerivAt (fun t => length (args.map (F · t)))
      ((List.zipWith (· * ·) (args.map (F · x)) ds).sum / length (args.map (F · x))) x := by
  have hsum : ((args.map (F · x)).map fun y => y * y).sum ≠ 0 := by
    intro hzero
    exact hne (by rw [length, hzero, Real.sqrt_zero])
  refine ((hasDerivAt_sum_squares h).sqrt hsum).congr_deriv ?_
  rw [← length, mul_div_mul_left _ _ two_ne_zero]

/-- At a regular point sums, products and lengths have the slopes of the rules. -/
theorem hasDerivAt_amount {op : AssocOp} {args : List ι} {ds : List ℝ}
    (h : op.RegularAt (args.map (F · x)))
    (hargs : List.Forall₂ (fun i d => HasDerivAt (F i) d x) args ds) :
    HasDerivAt (fun t => op.amount (args.map (F · t))) (op.slope (args.map (F · x)) ds) x := by
  cases op with
  | add => exact hasDerivAt_sum hargs
  | multiply => exact hasDerivAt_prod hargs
  | hypot => exact hasDerivAt_length hargs h

end AssocOp

end FormulaGraph
