import Mathlib.Analysis.Complex.Trigonometric
import FormulaGraph.ComplexFormula
import FormulaGraph.Proofs.LingeringRoots
import FormulaGraph.Proofs.NeutralConstants

/-!
# What complex formulas denote

A complex formula denotes a complex number if its components denote those of the number.  The
operations are computed in real formulas, component by component, and denote the operations on
complex numbers (`add_denotes` to `exp_denotes`).  Both ways to divide, by a complex number and
by a real one, come down to safe quotients of real formulas, so that a quotient by zero is zero,
as it is for the complex numbers of the library.

A complex formula is evaluated in one pass.  As long as its components keep to one scope, it
evaluates to the number it denotes (`Denotes.evaluate`), and so the laws of complex numbers hold
of what is evaluated (`arithmetic_evaluation`).
-/

namespace FormulaGraph

open PartialReal

namespace Formula

variable {S : Set NodeId} {ρ : Valuation PartialReal} {L : Ledger PartialReal} {x : ℝ}
  {e : Formula PartialReal}

/-- A square denotes the square. -/
theorem square_denotes (he : e.Denotes S ρ x L) : Builds (square e) L (Denotes S ρ (x * x)) := by
  have hmeans := square_means he.defined
  rw [realValue_eq he.value_eq] at hmeans
  exact denotes_of_means (square_builds (scoped_admitsOperations S) e he.member) hmeans

/-- Squares denote squares, one by one. -/
theorem squares_denotes {xs : List ℝ} {es : List (Formula PartialReal)}
    (hes : DenoteAll S ρ xs L es) :
    Builds (squares es) L (DenoteAll S ρ (xs.map fun x => x * x)) := by
  induction es generalizing xs L with
  | nil =>
      cases hes
      exact .pure .nil
  | cons e es ih =>
      cases hes with
      | cons he hes =>
          rw [squares]
          refine .bind (square_denotes he) fun L₁ s hL₁ hs => ?_
          refine .bind (ih (hes.imp fun _ _ h => h.mono hL₁)) fun L₂ ss hL₂ hss => ?_
          exact .pure (.cons (hs.mono hL₂) hss)

end Formula

namespace ComplexFormula

open Formula

/-- The number whose components are those of `c`. -/
def ofComplex (c : ℂ) : ComplexFormula PartialReal := ⟨real c.re, real c.im⟩

/-- The components denote those of the number. -/
structure Denotes (S : Set NodeId) (ρ : Valuation PartialReal) (c : ℂ) (L : Ledger PartialReal)
    (z : ComplexFormula (Formula PartialReal)) : Prop where
  re : z.re.Denotes S ρ c.re L
  im : z.im.Denotes S ρ c.im L

variable {S : Set NodeId} {ρ : Valuation PartialReal} {L : Ledger PartialReal} {c d : ℂ} {x : ℝ}
  {k : Formula PartialReal} {z w : ComplexFormula (Formula PartialReal)}

/-- What a complex number denotes does not depend on what else has been built. -/
theorem Denotes.mono {L' : Ledger PartialReal} (hz : z.Denotes S ρ c L) (hL : L.Extends L') :
    z.Denotes S ρ c L' :=
  ⟨hz.re.mono hL, hz.im.mono hL⟩

/-- The real and the imaginary part are denoted one after the other. -/
theorem Denotes.all (hz : z.Denotes S ρ c L) : DenoteAll S ρ [c.re, c.im] L z.toList :=
  .cons hz.re (.cons hz.im .nil)

/-- The number that a complex formula denotes if both components can be evaluated. -/
theorem exists_denotes {t : Store PartialReal} (ht : t.Reachable)
    (hz : ∀ e ∈ z.toList, e.Evaluable L S t) : ∃ c, z.Denotes S t.read c L := by
  obtain ⟨hre, him⟩ : z.re.Evaluable L S t ∧ z.im.Evaluable L S t := by simpa [toList] using hz
  exact ⟨⟨_, _⟩, hre.denotes ht, him.denotes ht⟩

/-! ## Component by component -/

/-- Applying an operation to both parts applies its function to both. -/
theorem mapM_denotes {f : Formula PartialReal → Fresh (Formula PartialReal)} {F : ℝ → ℝ}
    (hz : z.Denotes S ρ c L)
    (hf : ∀ L' e x, L.Extends L' → e.Denotes S ρ x L' →
      Builds (f e) L' (Formula.Denotes S ρ (F x))) :
    Builds (z.mapM f) L (Denotes S ρ ⟨F c.re, F c.im⟩) := by
  rw [mapM]
  refine .bind (hf L _ _ (.refl L) hz.re) fun L₁ a hL₁ ha => ?_
  refine .bind (hf L₁ _ _ hL₁ (hz.im.mono hL₁)) fun L₂ b hL₂ hb => ?_
  exact .pure ⟨ha.mono hL₂, hb⟩

/-- Combining two complex numbers part by part combines the numbers denoted. -/
theorem zipM_denotes {f : Formula PartialReal → Formula PartialReal → Fresh (Formula PartialReal)}
    {F : ℝ → ℝ → ℝ} (hz : z.Denotes S ρ c L) (hw : w.Denotes S ρ d L)
    (hf : ∀ L' a b x y, a.Denotes S ρ x L' → b.Denotes S ρ y L' →
      Builds (f a b) L' (Formula.Denotes S ρ (F x y))) :
    Builds (z.zipM f w) L (Denotes S ρ ⟨F c.re d.re, F c.im d.im⟩) := by
  rw [zipM]
  refine .bind (hf L _ _ _ _ hz.re hw.re) fun L₁ a hL₁ ha => ?_
  refine .bind (hf L₁ _ _ _ _ (hz.im.mono hL₁) (hw.im.mono hL₁)) fun L₂ b hL₂ hb => ?_
  exact .pure ⟨ha.mono hL₂, hb⟩

/-- Sums denote sums. -/
theorem add_denotes (hz : z.Denotes S ρ c L) (hw : w.Denotes S ρ d L) :
    Builds (z.add w) L (Denotes S ρ (c + d)) :=
  zipM_denotes (F := (· + ·)) hz hw fun _ _ _ _ _ => Formula.add_denotes

/-- Differences denote differences. -/
theorem sub_denotes (hz : z.Denotes S ρ c L) (hw : w.Denotes S ρ d L) :
    Builds (z.sub w) L (Denotes S ρ (c - d)) :=
  zipM_denotes (F := (· - ·)) hz hw fun _ _ _ _ _ => subtract_denotes

/-- Negatives denote negatives. -/
theorem neg_denotes (hz : z.Denotes S ρ c L) : Builds z.neg L (Denotes S ρ (-c)) :=
  mapM_denotes hz fun _ _ _ _ => negate_denotes

/-- Conjugates denote conjugates: the imaginary part changes its sign. -/
theorem conjugate_denotes (hz : z.Denotes S ρ c L) :
    Builds z.conjugate L (Denotes S ρ (starRingEnd ℂ c)) := by
  rw [conjugate]
  refine .bind (negate_denotes hz.im) fun L₁ b hL₁ hb => ?_
  exact .pure ⟨hz.re.mono hL₁, hb⟩

/-- A complex number is multiplied by a real one from the right. -/
theorem mulReal_denotes (hz : z.Denotes S ρ c L) (hk : k.Denotes S ρ x L) :
    Builds (z.mulReal k) L (Denotes S ρ (c * x)) := by
  have hmul := mapM_denotes (f := fun e => multiply e k) hz fun _ _ _ hL he =>
    multiply_denotes he (hk.mono hL)
  rwa [← (Complex.ext (by simp) (by simp) : c * x = ⟨c.re * x, c.im * x⟩)] at hmul

/-- A complex number is multiplied by a real one from the left. -/
theorem scale_denotes (hk : k.Denotes S ρ x L) (hz : z.Denotes S ρ c L) :
    Builds (scale k z) L (Denotes S ρ (x * c)) := by
  have hscale := mapM_denotes (f := fun e => multiply k e) hz fun _ _ _ hL he =>
    multiply_denotes (hk.mono hL) he
  rwa [← (Complex.ext (by simp) (by simp) : x * c = ⟨x * c.re, x * c.im⟩)] at hscale

/-- A complex number is divided by a real one, part by part. -/
theorem divReal_denotes (hz : z.Denotes S ρ c L) (hk : k.Denotes S ρ x L) :
    Builds (z.divReal k) L (Denotes S ρ (c / x)) := by
  have hdiv := mapM_denotes (f := fun e => divide e k) hz fun _ _ _ hL he =>
    divide_denotes he (hk.mono hL)
  rwa [← (Complex.ext (by simp) (by simp) : c / x = ⟨c.re / x, c.im / x⟩)] at hdiv

/-! ## Products and quotients -/

/-- Products denote products. -/
theorem mul_denotes (hz : z.Denotes S ρ c L) (hw : w.Denotes S ρ d L) :
    Builds (z.mul w) L (Denotes S ρ (c * d)) := by
  rw [mul]
  refine .bind (multiply_denotes hz.re hw.re) fun L₁ ac hL₁ hac => ?_
  refine .bind (multiply_denotes (hz.im.mono hL₁) (hw.im.mono hL₁)) fun L₂ bd hL₂ hbd => ?_
  refine .bind (subtract_denotes (hac.mono hL₂) hbd) fun L₃ re hL₃ hre => ?_
  have hL := (hL₁.trans hL₂).trans hL₃
  refine .bind (multiply_denotes (hz.re.mono hL) (hw.im.mono hL)) fun L₄ ad hL₄ had => ?_
  have hL' := hL.trans hL₄
  refine .bind (multiply_denotes (hz.im.mono hL') (hw.re.mono hL')) fun L₅ bc hL₅ hbc => ?_
  refine .bind (Formula.add_denotes (had.mono hL₅) hbc) fun L₆ im hL₆ him => ?_
  exact .pure ⟨hre.mono ((hL₄.trans hL₅).trans hL₆), him⟩

/-- The square of the length is the sum of the squares of both parts. -/
theorem squareLength_denotes (hz : z.Denotes S ρ c L) :
    Builds z.squareLength L (Formula.Denotes S ρ (Complex.normSq c)) := by
  rw [squareLength]
  refine .bind (squares_denotes hz.all) fun L₁ squares _ hsquares => ?_
  have hsum := assoc_denotes .add hsquares
  rwa [AssocOp.amount, List.map_cons, List.map_singleton, List.sum_pair,
    ← Complex.normSq_apply] at hsum

/-- **A quotient of complex formulas** is the one of the numbers, and zero if the divisor is. -/
theorem div_denotes (hz : z.Denotes S ρ c L) (hw : w.Denotes S ρ d L) :
    Builds (z.div w) L (Denotes S ρ (c / d)) := by
  rw [div]
  refine .bind (squareLength_denotes hw) fun L₁ n hL₁ hn => ?_
  have hz := hz.mono hL₁
  have hw := hw.mono hL₁
  refine .bind (multiply_denotes hz.re hw.re) fun L₂ ac hL₂ hac => ?_
  refine .bind (multiply_denotes (hz.im.mono hL₂) (hw.im.mono hL₂)) fun L₃ bd hL₃ hbd => ?_
  refine .bind (Formula.add_denotes (hac.mono hL₃) hbd) fun L₄ re hL₄ hre => ?_
  have hL := (hL₂.trans hL₃).trans hL₄
  refine .bind (multiply_denotes (hz.im.mono hL) (hw.re.mono hL)) fun L₅ bc hL₅ hbc => ?_
  have hL' := hL.trans hL₅
  refine .bind (multiply_denotes (hz.re.mono hL') (hw.im.mono hL')) fun L₆ ad hL₆ had => ?_
  refine .bind (subtract_denotes (hbc.mono hL₆) had) fun L₇ im hL₇ him => ?_
  have hparts : Denotes S ρ ⟨c.re * d.re + c.im * d.im, c.im * d.re - c.re * d.im⟩ L₇ ⟨re, im⟩ :=
    ⟨hre.mono ((hL₅.trans hL₆).trans hL₇), him⟩
  have hdiv := divReal_denotes hparts (hn.mono ((hL'.trans hL₆).trans hL₇))
  have hquotient : (⟨c.re * d.re + c.im * d.im, c.im * d.re - c.re * d.im⟩ : ℂ) /
      (Complex.normSq d : ℝ) = c / d := by
    refine Complex.ext ?_ ?_
    · rw [Complex.div_ofReal_re, Complex.div_re, add_div]
    · rw [Complex.div_ofReal_im, Complex.div_im, sub_div]
  rwa [hquotient] at hdiv

/-- Divided by a complex number, a real one is the conjugate times a real quotient. -/
theorem realDiv_denotes (hk : k.Denotes S ρ x L) (hz : z.Denotes S ρ c L) :
    Builds (realDiv k z) L (Denotes S ρ (x / c)) := by
  rw [realDiv]
  refine .bind (conjugate_denotes hz) fun L₁ conj hL₁ hconj => ?_
  refine .bind (squareLength_denotes (hz.mono hL₁)) fun L₂ n hL₂ hn => ?_
  refine .bind (divide_denotes (hk.mono (hL₁.trans hL₂)) hn) fun L₃ q hL₃ hq => ?_
  have hmul := mulReal_denotes (hconj.mono (hL₂.trans hL₃)) hq
  have hquotient : starRingEnd ℂ c * (x / Complex.normSq c : ℝ) = x / c := by
    rw [div_eq_mul_inv (x : ℂ) c, Complex.inv_def, Complex.ofReal_div, Complex.ofReal_inv]
    ring
  rwa [hquotient] at hmul

/-- The exponential denotes the exponential, by its polar form. -/
theorem exp_denotes (hz : z.Denotes S ρ c L) : Builds z.exp L (Denotes S ρ (Complex.exp c)) := by
  rw [exp]
  refine .bind (unary_denotes .exp hz.re rfl) fun L₁ modulus hL₁ hmodulus => ?_
  refine .bind (unary_denotes .cos (hz.im.mono hL₁) rfl) fun L₂ cos hL₂ hcos => ?_
  refine .bind (multiply_denotes (hmodulus.mono hL₂) hcos) fun L₃ re hL₃ hre => ?_
  have hL := hL₂.trans hL₃
  refine .bind (unary_denotes .sin (hz.im.mono (hL₁.trans hL)) rfl) fun L₄ sin hL₄ hsin => ?_
  refine .bind (multiply_denotes (hmodulus.mono (hL.trans hL₄)) hsin) fun L₅ im hL₅ him => ?_
  refine .pure ⟨?_, ?_⟩
  · exact Complex.exp_re c ▸ hre.mono (hL₄.trans hL₅)
  · exact Complex.exp_im c ▸ him

/-! ## Evaluating a complex formula -/

/-- Both parts are answered in one pass, each with its value. -/
theorem evaluateIn_delivers {α : Type} [Scalar α] {D : Directory α} {g : Generation}
    {ρ : Valuation α} {z : ComplexFormula (Formula α)}
    (hz : ∀ e ∈ z.toList, e.Scoped S ∧ e.ListedIn D) :
    Delivers D g S ρ (z.evaluateIn g) ⟨value ρ z.re, value ρ z.im⟩ := by
  obtain ⟨hre, him⟩ : (z.re.Scoped S ∧ z.re.ListedIn D) ∧ z.im.Scoped S ∧ z.im.ListedIn D := by
    simpa [toList] using hz
  refine Delivers.answering.bind (Formula.evaluateIn_delivers hre.1 hre.2 g ρ) ?_
  refine Delivers.answering.bind (Formula.evaluateIn_delivers him.1 him.2 g ρ) ?_
  exact Delivers.answering.pure _

/-- **A complex formula that denotes a number evaluates to it.** -/
theorem Denotes.evaluate {t : Store PartialReal} (hz : z.Denotes S t.read c L)
    (ht : t.Reachable) : (z.evaluate.run t).1 = ofComplex c := by
  have hmember : ∀ e ∈ z.toList, e.Scoped S ∧ e.ListedIn L.directory := fun e he =>
    ⟨(hz.all.member e he).holds, (hz.all.member e he).known.listed⟩
  refine (evaluateIn_delivers hmember _ (ht.issued.serves_next fun _ _ => rfl)).1.trans ?_
  rw [hz.re.value_eq, hz.im.value_eq, ofComplex]

/-- What the computation builds from the number `n` on evaluates to `c`. -/
def EvaluatesTo (x : Fresh (ComplexFormula (Formula PartialReal))) (n : NodeId)
    (t : Store PartialReal) (c : ℂ) : Prop :=
  ((x.run n).1.evaluate.run t).1 = ofComplex c

/-- What denotes a complex number when it is built evaluates to it. -/
theorem evaluatesTo_of_builds {x : Fresh (ComplexFormula (Formula PartialReal))}
    {t : Store PartialReal} (ht : t.Reachable) (hx : Builds x L (Denotes S t.read c)) :
    EvaluatesTo x L.next t c := by
  obtain ⟨L', -, -, h⟩ := hx
  exact h.evaluate ht

/-! ## The theorem -/

/-- In a pass from the store, the operations on `z`, `w` and `k` evaluate to those on the numbers
`a`, `b` and `x`.  A quotient by zero is zero. -/
structure RespectsArithmetic (z w : ComplexFormula (Formula PartialReal))
    (k : Formula PartialReal) (n : NodeId) (t : Store PartialReal) (a b : ℂ) (x : ℝ) : Prop where
  add : EvaluatesTo (z.add w) n t (a + b)
  sub : EvaluatesTo (z.sub w) n t (a - b)
  mul : EvaluatesTo (z.mul w) n t (a * b)
  neg : EvaluatesTo z.neg n t (-a)
  conjugate : EvaluatesTo z.conjugate n t (starRingEnd ℂ a)
  mulReal : EvaluatesTo (z.mulReal k) n t (a * x)
  scale : EvaluatesTo (scale k z) n t (x * a)
  divReal : EvaluatesTo (z.divReal k) n t (a / x)
  div : EvaluatesTo (z.div w) n t (a / b)
  realDiv : EvaluatesTo (realDiv k z) n t (x / a)
  exp : EvaluatesTo z.exp n t (Complex.exp a)

/-- Numbers denoted are subject to all laws of arithmetic at once. -/
theorem Denotes.respectsArithmetic {t : Store PartialReal} (ht : t.Reachable)
    (hz : z.Denotes S t.read c L) (hw : w.Denotes S t.read d L) (hk : k.Denotes S t.read x L) :
    RespectsArithmetic z w k L.next t c d x where
  add := evaluatesTo_of_builds ht (add_denotes hz hw)
  sub := evaluatesTo_of_builds ht (sub_denotes hz hw)
  mul := evaluatesTo_of_builds ht (mul_denotes hz hw)
  neg := evaluatesTo_of_builds ht (neg_denotes hz)
  conjugate := evaluatesTo_of_builds ht (conjugate_denotes hz)
  mulReal := evaluatesTo_of_builds ht (mulReal_denotes hz hk)
  scale := evaluatesTo_of_builds ht (scale_denotes hk hz)
  divReal := evaluatesTo_of_builds ht (divReal_denotes hz hk)
  div := evaluatesTo_of_builds ht (div_denotes hz hw)
  realDiv := evaluatesTo_of_builds ht (realDiv_denotes hk hz)
  exp := evaluatesTo_of_builds ht (exp_denotes hz)

/-- **Complex arithmetic is respected**, in exact arithmetic and wherever nothing is undefined, if
the components are scoped in the same variables.  So a quotient times its divisor is the dividend
unless the divisor is zero, and the exponential of a sum is the product of the exponentials. -/
theorem arithmetic_evaluation (L : Ledger PartialReal) (S : Set NodeId) (t : Store PartialReal)
    (ht : t.Reachable) (z w : ComplexFormula (Formula PartialReal)) (k : Formula PartialReal)
    (hz : ∀ e ∈ z.toList, e.Evaluable L S t) (hw : ∀ e ∈ w.toList, e.Evaluable L S t)
    (hk : k.Evaluable L S t) :
    ∃ (a b : ℂ) (x : ℝ), (z.evaluate.run t).1 = ofComplex a ∧
      (w.evaluate.run t).1 = ofComplex b ∧ (k.evaluate.run t).1 = real x ∧
      RespectsArithmetic z w k L.next t a b x ∧
      (b ≠ 0 → EvaluatesTo (do (← z.div w).mul w) L.next t a) ∧
      (a ≠ 0 → EvaluatesTo (do z.mul (← realDiv k z)) L.next t x) ∧
      EvaluatesTo (do (← z.add w).exp) L.next t (Complex.exp (a + b)) ∧
      EvaluatesTo (do (← z.exp).mul (← w.exp)) L.next t (Complex.exp (a + b)) := by
  obtain ⟨a, ha⟩ := exists_denotes ht hz
  obtain ⟨b, hb⟩ := exists_denotes ht hw
  have hx := hk.denotes ht
  have hvalue : (k.evaluate.run t).1 = real (realValue t.read k) :=
    (evaluate_scoped hk.inScope hk.known.listed ht fun _ _ => rfl).trans hx.value_eq
  refine ⟨a, b, _, ha.evaluate ht, hb.evaluate ht, hvalue, ha.respectsArithmetic ht hb hx,
    ?_, ?_, ?_, ?_⟩
  · intro hne
    have hback : Builds (do (← z.div w).mul w) L (Denotes S t.read (a / b * b)) :=
      .bind (div_denotes ha hb) fun L₁ q hL₁ hq => mul_denotes hq (hb.mono hL₁)
    rw [div_mul_cancel₀ a hne] at hback
    exact evaluatesTo_of_builds ht hback
  · intro hne
    have hback : Builds (do z.mul (← realDiv k z)) L
        (Denotes S t.read (a * (realValue t.read k / a))) :=
      .bind (realDiv_denotes hx ha) fun L₁ q hL₁ hq => mul_denotes (ha.mono hL₁) hq
    rw [mul_div_cancel₀ _ hne] at hback
    exact evaluatesTo_of_builds ht hback
  · have hsum : Builds (do (← z.add w).exp) L (Denotes S t.read (Complex.exp (a + b))) :=
      .bind (add_denotes ha hb) fun L₁ s hL₁ hs => exp_denotes hs
    exact evaluatesTo_of_builds ht hsum
  · have hproduct : Builds (do (← z.exp).mul (← w.exp)) L
        (Denotes S t.read (Complex.exp a * Complex.exp b)) :=
      .bind (exp_denotes ha) fun L₁ p hL₁ hp =>
        .bind (exp_denotes (hb.mono hL₁)) fun L₂ q hL₂ hq => mul_denotes (hp.mono hL₂) hq
    rw [← Complex.exp_add] at hproduct
    exact evaluatesTo_of_builds ht hproduct

/-- Two numbers with a variable component each, and a variable. -/
theorem arithmetic_evaluation_of_variables :
    let u : Formula PartialReal := node 2 (.var "u")
    let v : Formula PartialReal := node 3 (.var "v")
    let z : ComplexFormula (Formula PartialReal) := ⟨u, one⟩
    let w : ComplexFormula (Formula PartialReal) := ⟨zero, v⟩
    let t : Store PartialReal := (Store.empty.write 2 (real 2)).write 3 (real (-1))
    ∃ (a b : ℂ) (x : ℝ), (z.evaluate.run t).1 = ofComplex a ∧
      (w.evaluate.run t).1 = ofComplex b ∧ (u.evaluate.run t).1 = real x ∧
      RespectsArithmetic z w u 4 t a b x ∧
      (b ≠ 0 → EvaluatesTo (do (← z.div w).mul w) 4 t a) ∧
      (a ≠ 0 → EvaluatesTo (do z.mul (← realDiv u z)) 4 t x) ∧
      EvaluatesTo (do (← z.add w).exp) 4 t (Complex.exp (a + b)) ∧
      EvaluatesTo (do (← z.exp).mul (← w.exp)) 4 t (Complex.exp (a + b)) := by
  intro u v z w t
  have hread : t.read 2 = real 2 ∧ t.read 3 = real (-1) := by
    simp [t, Store.read_write, Valuation.set]
  obtain ⟨hu, hv⟩ := evaluable_variables "u" "v" hread.1 hread.2
  refine arithmetic_evaluation _ Set.univ t (.write (.write .empty 2 _) 3 _) z w u ?_ ?_ hu
  · simpa [z, toList] using ⟨hu, one_evaluable t⟩
  · simpa [w, toList] using ⟨zero_evaluable t, hv⟩

/-! ## Where the components are not scoped alike -/

/-- The components are evaluated in order. -/
theorem evaluate_run {re im : Formula PartialReal} {t t₁ : Store PartialReal}
    {a b : PartialReal}
    (hre : (re.evaluateIn (t.generation + 1)).run (Evaluation.nextGeneration.run t).2 = (a, t₁))
    (him : ((im.evaluateIn (t.generation + 1)).run t₁).1 = b) :
    ((ComplexFormula.mk re im).evaluate.run t).1 = ⟨a, b⟩ := by
  have hrun : (ComplexFormula.mk re im).evaluate.run t =
      ((re.evaluateIn (t.generation + 1)) >>= fun re => do
        let im ← im.evaluateIn (t.generation + 1)
        return ⟨re, im⟩ : Evaluation PartialReal _).run (Evaluation.nextGeneration.run t).2 := rfl
  rw [hrun, StateT.run_bind, hre, ← him]
  rfl

/-- The zero of `1 - t` and `t` itself, which is three, as two numbers on the real axis.  In the
sum the solver comes first, and leaves one in `t`. -/
theorem add_sees_root :
    let z : ComplexFormula (Formula PartialReal) := ⟨UnitRoot.root, zero⟩
    let w : ComplexFormula (Formula PartialReal) := ⟨UnitRoot.t, zero⟩
    let t : Store PartialReal := Store.empty.write 2 (real 3)
    (∀ e ∈ z.toList ++ w.toList, e.EvaluatesThroughout t) ∧
      (z.evaluate.run t).1 = ofComplex 1 ∧ (w.evaluate.run t).1 = ofComplex 3 ∧
      EvaluatesTo (z.add w) 6 t 2 ∧ (1 + 3 : ℂ) ≠ 2 := by
  intro z w t
  have ht : t.Reachable := .write .empty 2 _
  have hread : t.read 2 = real 3 := by simp [t, Store.read_write, Valuation.set]
  have hroot := UnitRoot.root_evaluable ht (Set.notMem_empty 2) hread
  have hthree : UnitRoot.t.Evaluable UnitRoot.ledger Set.univ t :=
    UnitRoot.t_evaluable (Set.mem_univ 2) hread
  have hzero : (zero : Formula PartialReal).Evaluable UnitRoot.ledger Set.univ t :=
    zero_evaluable t
  have hone : (UnitRoot.root.evaluate.run t).1 = real 1 :=
    (UnitRoot.after_root UnitRoot.root_known.listed ht.issued).1
  have hnumber : (zero : Formula PartialReal).IsNumber 0 := rfl
  refine ⟨?_, ?_, ?_, ?_, by norm_num⟩
  · simpa [z, w, toList] using ⟨hroot.defined, hzero.defined, hthree.defined, hzero.defined⟩
  · refine (evaluate_run (Prod.ext hone rfl)
      (congrArg Prod.fst (hnumber.evaluateIn_run _ _))).trans ?_
    simp [ofComplex]
  · have hfirst := UnitRoot.t_run (s := (Evaluation.nextGeneration.run t).2) (t.generation + 1)
      hread
    refine (evaluate_run hfirst
      (congrArg Prod.fst (hnumber.evaluateIn_run _ _))).trans ?_
    simp [ofComplex]
  · have hsum : Yields (z.add w) fun s =>
        (∃ id, s.re = node id (.assoc .add [UnitRoot.root, UnitRoot.t])) ∧ s.im.IsNumber 0 := by
      refine .bind (.of_new rfl) fun re hre => ?_
      exact .bind (sum_of_zero (by simp [z, w, hnumber])) fun im him => .pure ⟨hre, him⟩
    obtain ⟨⟨id, hre⟩, him⟩ := hsum 6
    rw [EvaluatesTo]
    generalize ((z.add w).run 6).1 = s at hre him
    obtain ⟨re, im⟩ := s
    obtain rfl : re = _ := hre
    have htwo :
        ((node id (.assoc .add [UnitRoot.root, UnitRoot.t])).evaluate.run t).1 = real 2 := by
      refine (evaluate_beside_solver ht hone rfl).trans ?_
      simp [sum_eq]
      norm_num
    refine (evaluate_run (Prod.ext htwo rfl)
      (congrArg Prod.fst (him.evaluateIn_run _ _))).trans ?_
    simp [ofComplex]

end ComplexFormula

end FormulaGraph
