import FormulaGraph.Proofs.Slopes
import FormulaGraph.Proofs.Rates
import FormulaGraph.Proofs.Generations
import FormulaGraph.Proofs.Workbench

/-!
# Derivatives are slopes

Each rule of calculus, carried out with the simple constructors, gives a formula
that means the slope of the node: `op.slope` says which number that is, and the
constructors, being sound, arrive at it whichever of them cancel something on the
way.

So derivatives mean any number `f` that obeys the rules of calculus, wherever it does
(`Calculus.handedOn`).  Slopes are such numbers at regular points.
-/

namespace FormulaGraph

open PartialReal Filter Topology

namespace Formula

variable {ρ : Valuation PartialReal} {x : NodeId} {x₀ : ℝ}

/-! ## Constructors on real numbers -/

/-- The real value of a formula is what it means. -/
theorem Means.realValue_eq {e : Formula PartialReal} {y : ℝ} (he : e.Means ρ (real y)) :
    realValue ρ e = y :=
  Formula.realValue_eq he.value_eq

/-- A unary function means its value wherever that is real. -/
theorem unary_real (op : UnaryOp) {a : Formula PartialReal} {y : ℝ} (ha : a.Means ρ (real y))
    (h : op.apply (real y) = real (op.onReals y)) :
    Yields (unary op a) (Means ρ (real (op.onReals y))) := by
  have hmeans := unary_means op ha.defined_of_real
  rwa [ha.value_eq, h] at hmeans

/-- A binary operation on real numbers means its value; division by zero is zero. -/
theorem binary_real (op : BinaryOp) {a b : Formula PartialReal} {y z : ℝ}
    (ha : a.Means ρ (real y)) (hb : b.Means ρ (real z)) :
    Yields (binary op a b) (Means ρ (real (op.onReals y z))) := by
  have hmeans := binary_means op ha.defined_of_real hb.defined_of_real
  rwa [ha.value_eq, hb.value_eq, op.apply_real] at hmeans

/-- Sums, products and lengths mean those of the values. -/
theorem assoc_real (op : AssocOp) {es : List (Formula PartialReal)} {ys : List ℝ}
    (h : List.Forall₂ (fun e y => e.Means ρ (real y)) es ys) :
    Yields (assoc op es) (Means ρ (real (op.amount ys))) := by
  have hdefined : ∀ e ∈ es, e.Defined ρ := by
    intro e he
    obtain ⟨y, hy⟩ := exists_of_forall₂_left h he
    exact hy.defined_of_real
  have hvalues : es.map (realValue ρ) = ys := by
    clear hdefined
    induction h with
    | nil => rfl
    | cons hhead _ ih => rw [List.map_cons, hhead.realValue_eq, ih]
  rw [← hvalues]
  exact assoc_means op hdefined

/-- A product of two means the product. -/
theorem product_real {a b : Formula PartialReal} {y z : ℝ} (ha : a.Means ρ (real y))
    (hb : b.Means ρ (real z)) : Yields (product [a, b]) (Means ρ (real (y * z))) := by
  have hmeans := assoc_real .multiply (.cons ha (.cons hb .nil))
  rwa [AssocOp.amount, List.prod_cons, List.prod_singleton] at hmeans

/-- A sum of two means the sum. -/
theorem sum_real {a b : Formula PartialReal} {y z : ℝ} (ha : a.Means ρ (real y))
    (hb : b.Means ρ (real z)) : Yields (sum [a, b]) (Means ρ (real (y + z))) := by
  have hmeans := assoc_real .add (.cons ha (.cons hb .nil))
  rwa [AssocOp.amount, List.sum_cons, List.sum_singleton] at hmeans

/-- A square means the square. -/
theorem square_real {a : Formula PartialReal} {y : ℝ} (ha : a.Means ρ (real y)) :
    Yields (square a) (Means ρ (real (y * y))) := by
  have hmeans := square_means ha.defined_of_real
  rwa [ha.realValue_eq] at hmeans

/-- A derivative folded to zero means zero. -/
theorem Means.eq_zero {d : Formula PartialReal} {v : ℝ} (hd : d.Means ρ (real v))
    (hzero : d.isConstantValue 0 = true) : v = 0 := by
  have hvalue := isConstantValue_zero (ρ := ρ) hzero
  rw [hd.value_eq] at hvalue
  exact real.inj hvalue

/-! ## The rules -/

/-- The derivative of a unary function means what the chain rule says, also where the argument
does not change. -/
theorem unaryDerivative_real {id : NodeId} {op : UnaryOp} {a d : Formula PartialReal} {y v : ℝ}
    (he : (node id (.unary op a)).Defined ρ) (ha : a.Means ρ (real y))
    (hd : d.Means ρ (real v)) :
    Yields (unaryDerivative (node id (.unary op a)) op a d) (Means ρ (real (op.slope y v))) := by
  have hresult : op.apply (real y) ≠ undefined := by
    have hhere := he.here
    rwa [value, ha.value_eq] at hhere
  have hself : (node id (.unary op a)).Means ρ (real (op.onReals y)) := by
    have hmeans := he.means
    rwa [value, ha.value_eq, op.apply_eq_onReals hresult] at hmeans
  unfold unaryDerivative
  split
  · next hzero =>
      rw [hd.eq_zero hzero, op.slope_zero]
      exact .pure zero_means
  · cases op with
    | negate => exact unary_real .negate hd rfl
    | square =>
        refine .bind (constant_means (ρ := ρ) (real 2)) fun two htwo => ?_
        have hslope : UnaryOp.square.slope y v = AssocOp.multiply.amount [2, y, v] := by
          simp [UnaryOp.slope, AssocOp.amount, mul_assoc]
        rw [hslope]
        exact assoc_real .multiply (.cons htwo (.cons ha (.cons hd .nil)))
    | sqrt =>
        refine .bind (constant_means (ρ := ρ) _) fun half hhalf => ?_
        rw [half_eq] at hhalf
        refine .bind (product_real hhalf hd) fun p hp => ?_
        exact binary_real .divide hp hself
    | exp => exact product_real hself hd
    | log => exact binary_real .divide hd ha
    | sin =>
        refine .bind (unary_real .cos ha rfl) fun c hc => ?_
        exact product_real hc hd
    | cos =>
        refine .bind (unary_real .sin ha rfl) fun s hs => ?_
        refine .bind (product_real hs hd) fun p hp => ?_
        exact unary_real .negate hp rfl
    | atan =>
        refine .bind (square_real ha) fun s hs => ?_
        refine .bind (constant_means (ρ := ρ) _) fun c hc => ?_
        refine .bind (sum_real hs hc) fun q hq => ?_
        exact binary_real .divide hd hq
    | acos =>
        -- the root is of a number in the interval, else there is no angle
        have hdomain : -1 ≤ y ∧ y ≤ 1 := by
          by_contra hnot
          exact hresult (if_neg hnot)
        have hnonneg : 0 ≤ 1 - y * y := by nlinarith [hdomain.1, hdomain.2]
        refine .bind (constant_means (ρ := ρ) _) fun c hc => ?_
        refine .bind (square_real ha) fun s hs => ?_
        refine .bind (binary_real .subtract hc hs) fun q hq => ?_
        refine .bind (unary_real .sqrt hq (sqrt_real hnonneg)) fun r hr => ?_
        refine .bind (binary_real .divide hd hr) fun p hp => ?_
        exact unary_real .negate hp rfl
    | cosineIntegral =>
        refine .bind (unary_real .cos ha rfl) fun c hc => ?_
        refine .bind (product_real hc hd) fun p hp => ?_
        exact binary_real .divide hp ha
    | sineIntegral =>
        refine .bind (unary_real .sin ha rfl) fun s hs => ?_
        refine .bind (product_real hs hd) fun p hp => ?_
        exact binary_real .divide hp ha

/-- A conditional means what its selected branch means. -/
theorem conditional_real {op : ConditionalOp} {c a b : Formula PartialReal} {y v : ℝ}
    (hc : c.Means ρ (real y))
    (hselected : (if op.selectsFirst (real y) then a else b).Means ρ (real v)) :
    Yields (conditional op c a b) (Means ρ (real v)) := by
  have hvalue : value ρ (node 0 (.conditional op c a b)) = real v := by
    rw [value, hc.value_eq, ← hselected.value_eq]
    split <;> rfl
  have hneeded : ∀ d ∈ neededInPass ρ (.conditional op c a b), d.Defined ρ := by
    show ∀ d ∈ needed ρ (.conditional op c a b), d.Defined ρ
    rw [needed, hc.value_eq]
    simpa using ⟨hc.defined_of_real, hselected.defined_of_real⟩
  have hmeans := conditional_means op hneeded
  rwa [hvalue] at hmeans

/-- A choice by the sign of a number means the choice between numbers. -/
theorem ifPositive_real {c a b : Formula PartialReal} {y v w : ℝ} (hc : c.Means ρ (real y))
    (ha : a.Means ρ (real v)) (hb : b.Means ρ (real w)) :
    Yields (conditional .ifPositive c a b) (Means ρ (real (if 0 < y then v else w))) := by
  have hselect := ConditionalOp.ifPositive_real y
  by_cases hpos : 0 < y
  · rw [if_pos hpos]
    exact conditional_real hc (by rwa [if_pos (hselect.mpr hpos)])
  · rw [if_neg hpos]
    exact conditional_real hc (by rwa [if_neg fun h => hpos (hselect.mp h)])

/-- The derivative of a binary operation means what its rule says. -/
theorem binaryDerivative_real {op : BinaryOp} {a b da db : Formula PartialReal} {y z v w : ℝ}
    (ha : a.Means ρ (real y)) (hb : b.Means ρ (real z)) (hda : da.Means ρ (real v))
    (hdb : db.Means ρ (real w)) :
    Yields (binaryDerivative op a b da db) (Means ρ (real (op.slope y z v w))) := by
  cases op with
  | subtract => exact binary_real .subtract hda hdb
  | divide =>
      refine .bind (product_real hda hb) fun p hp => ?_
      refine .bind (product_real ha hdb) fun q hq => ?_
      refine .bind (binary_real .subtract hp hq) fun s hs => ?_
      refine .bind (square_real hb) fun t ht => ?_
      exact binary_real .divide hs ht
  | atan2 =>
      refine .bind (product_real hb hda) fun p hp => ?_
      refine .bind (product_real ha hdb) fun q hq => ?_
      refine .bind (binary_real .subtract hp hq) fun s hs => ?_
      refine .bind (square_real ha) fun t ht => ?_
      refine .bind (square_real hb) fun u hu => ?_
      refine .bind (sum_real ht hu) fun n hn => ?_
      exact binary_real .divide hs hn
  | max =>
      refine .bind (binary_real .subtract ha hb) fun c hc => ?_
      exact ifPositive_real hc hda hdb
  | min =>
      refine .bind (binary_real .subtract ha hb) fun c hc => ?_
      exact ifPositive_real hc hdb hda

/-- A table, over a formula that means a number, means what it takes for its slope. -/
theorem tableDerivative_real {t : Table PartialReal (Formula PartialReal)}
    {a : Formula PartialReal} (ha : a.Defined ρ) (ht : TableSloped ρ t (value ρ a)) :
    Yields (tableDerivative t a) (Means ρ (real (tableSlope ρ t (value ρ a)).toReal)) := by
  rw [tableDerivative, tableSlope]
  rw [TableSloped] at ht
  cases hsupplied : t.derivative with
  | some d =>
      have hd : d.Defined ρ := by simpa [hsupplied] using ht
      have hmeans := hd.means
      rw [hd.value_eq] at hmeans
      exact .pure hmeans
  | none =>
      have hne : t.finiteDifference.interpolate (value ρ a) ≠ undefined := by
        simpa [hsupplied] using ht
      obtain ⟨y, hy⟩ := exists_real hne
      simp only [hy, toReal, tabulated]
      refine .bind (P := fun _ => True) (fun _ => trivial) fun mark _ => ?_
      have hmeans : Yields (ofShape (.tabulated mark t.finiteDifference a))
          (Means ρ (value ρ (node 0 (.tabulated mark t.finiteDifference a)))) :=
        ofShape_means (by simp) (by simpa [neededInPass, needed, Shape.children] using ha)
      rwa [value, hy] at hmeans

/-- The derivative of a table means its slope times that of the argument. -/
theorem tabulatedDerivative_real {t : Table PartialReal (Formula PartialReal)}
    {a d : Formula PartialReal} {v : ℝ} (ha : a.Defined ρ) (ht : TableSloped ρ t (value ρ a))
    (hd : d.Means ρ (real v)) :
    Yields (tabulatedDerivative t a d)
      (Means ρ (real ((tableSlope ρ t (value ρ a)).toReal * v))) := by
  rw [tabulatedDerivative]
  split
  · next hzero =>
      rw [hd.eq_zero hzero, mul_zero]
      exact .pure zero_means
  · exact .bind (tableDerivative_real ha ht) fun _ hslope => product_real hslope hd

/-! ## Sums, products and lengths -/

/-- What an operation's slope is made of, given the arguments before. -/
noncomputable def slopeTerms (op : AssocOp) (before xs ds : List ℝ) : List ℝ :=
  match op with
  | .multiply => AssocOp.productTerms before xs ds
  | op => op.slopeTerms xs ds

/-- One term of the derivative of a sum, a product or a length means what it contributes. -/
theorem derivativeTerm_real (op : AssocOp) {before after : List (Formula PartialReal)}
    {e d : Formula PartialReal} {v : ℝ} (hbefore : ∀ b ∈ before, b.Defined ρ)
    (he : e.Defined ρ) (hafter : ∀ a ∈ after, a.Defined ρ) (hd : d.Means ρ (real v)) :
    Yields (derivativeTerm op before e after d) (Means ρ (real (match op with
      | .add => v
      | .multiply => (before.map (realValue ρ) ++ v :: after.map (realValue ρ)).prod
      | .hypot => realValue ρ e * v))) := by
  cases op with
  | add => exact .pure hd
  | multiply =>
      simp only [derivativeTerm]
      split
      · next hzero =>
          rw [hd.eq_zero hzero, List.prod_eq_zero (by simp)]
          exact .pure zero_means
      · have hall : ∀ c ∈ before ++ d :: after, c.Defined ρ :=
          List.forall_mem_append.mpr
            ⟨hbefore, List.forall_mem_cons.mpr ⟨hd.defined_of_real, hafter⟩⟩
        have hmeans := assoc_means .multiply hall
        rwa [AssocOp.amount, List.map_append, List.map_cons, hd.realValue_eq] at hmeans
  | hypot =>
      have hself : e.Means ρ (real (realValue ρ e)) := he.value_eq ▸ he.means
      exact product_real hself hd

/-! ## All rules -/

/-- Where `G` holds, a formula is defined, and `f` obeys the rules of calculus. -/
structure Calculus (G : NodeId → Valuation PartialReal → Formula PartialReal → Prop)
    (f : NodeId → Valuation PartialReal → Formula PartialReal → ℝ) : Prop where
  defined : ∀ {x ρ e}, G x ρ e → e.Defined ρ
  needed : ∀ {x ρ e c}, G x ρ e → c ∈ needed ρ e.shape → G x ρ c
  const : ∀ {x ρ id v}, G x ρ (node id (.const v)) → f x ρ (node id (.const v)) = 0
  var_self : ∀ {x ρ name}, G x ρ (node x (.var name)) → f x ρ (node x (.var name)) = 1
  var_other : ∀ {x ρ id name}, id ≠ x → G x ρ (node id (.var name)) →
    f x ρ (node id (.var name)) = 0
  unary : ∀ {x ρ id op a}, G x ρ (node id (.unary op a)) →
    f x ρ (node id (.unary op a)) = op.slope (realValue ρ a) (f x ρ a)
  binary : ∀ {x ρ id op a b}, G x ρ (node id (.binary op a b)) →
    f x ρ (node id (.binary op a b)) =
      op.slope (realValue ρ a) (realValue ρ b) (f x ρ a) (f x ρ b)
  assoc : ∀ {x ρ id op args}, G x ρ (node id (.assoc op args)) →
    f x ρ (node id (.assoc op args)) = op.slope (args.map (realValue ρ)) (args.map (f x ρ))
  conditional : ∀ {x ρ id op c a b}, G x ρ (node id (.conditional op c a b)) →
    f x ρ (node id (.conditional op c a b)) =
      f x ρ (if op.selectsFirst (value ρ c) then a else b)
  tabulated : ∀ {x ρ id mark t a}, G x ρ (node id (.tabulated mark t a)) →
    TableSloped ρ t (value ρ a) ∧
      f x ρ (node id (.tabulated mark t a)) = (tableSlope ρ t (value ρ a)).toReal * f x ρ a
  solver : ∀ {x ρ id s}, ¬ G x ρ (node id (.solver s))

namespace Calculus

variable {G : NodeId → Valuation PartialReal → Formula PartialReal → Prop}
  {f : NodeId → Valuation PartialReal → Formula PartialReal → ℝ}

/-- The derivative means `f`, wherever `G` holds of the formula. -/
def Meaning (G : NodeId → Valuation PartialReal → Formula PartialReal → Prop)
    (f : NodeId → Valuation PartialReal → Formula PartialReal → ℝ) (x : NodeId)
    (e d : Formula PartialReal) : Prop :=
  ∀ ρ, G x ρ e → d.Means ρ (real (f x ρ e))

variable (h : Calculus G f)

include h

/-- A formula of the class means its real value. -/
theorem means {e : Formula PartialReal} (he : G x ρ e) : e.Means ρ (real (realValue ρ e)) :=
  (h.defined he).value_eq ▸ (h.defined he).means

/-- The terms of the derivative mean the contributions, one for each argument. -/
theorem terms_real {op : AssocOp} {before args terms : List (Formula PartialReal)}
    (hterms : DerivativeTerms (Meaning G f) x op before args terms)
    (hbefore : ∀ b ∈ before, b.Defined ρ) (hargs : ∀ a ∈ args, G x ρ a) :
    List.Forall₂ (fun t y => t.Means ρ (real y)) terms
      (slopeTerms op (before.map (realValue ρ)) (args.map (realValue ρ))
        (args.map (f x ρ))) := by
  induction hterms with
  | nil => cases op <;> exact .nil
  | @cons before args terms e d hd n _ ih =>
      have he := hargs e List.mem_cons_self
      have htail : ∀ a ∈ args, G x ρ a := fun a ha => hargs a (List.mem_cons_of_mem e ha)
      have hterm := derivativeTerm_real op hbefore (h.defined he)
        (fun a ha => h.defined (htail a ha)) (hd ρ he) n
      have hrest := ih
        (List.forall_mem_append.mpr ⟨hbefore, by simpa using h.defined he⟩) htail
      rw [List.map_append, List.map_singleton] at hrest
      cases op with
      | add => exact .cons hterm hrest
      | multiply => exact .cons hterm hrest
      | hypot => exact .cons hterm hrest

/-- The derivative of a sum, a product or a length means its slope. -/
theorem assoc_real {id : NodeId} {op : AssocOp} {args terms : List (Formula PartialReal)}
    (he : G x ρ (node id (.assoc op args)))
    (hterms : DerivativeTerms (Meaning G f) x op [] args terms) :
    Yields (assocDerivative (node id (.assoc op args)) op terms)
      (Means ρ (real (op.slope (args.map (realValue ρ)) (args.map (f x ρ))))) := by
  have hargs : ∀ a ∈ args, G x ρ a := fun a ha => h.needed he ha
  have hmeans := h.terms_real hterms (by simp) hargs
  cases op with
  | add => exact Formula.assoc_real .add hmeans
  | multiply => exact Formula.assoc_real .add hmeans
  | hypot =>
      have hself : (node id (.assoc .hypot args)).Means ρ
          (real (length (args.map (realValue ρ)))) := by
        have hvalue := (h.defined he).means
        rwa [value, apply_values .hypot fun a ha => h.defined (hargs a ha)] at hvalue
      refine .bind (Formula.assoc_real .add hmeans) fun s hs => ?_
      exact binary_real .divide hs hself

/-- **The rules of calculus are handed on.** -/
theorem handedOn : HandedOn (Meaning G f) where
  const := by
    intro x id v ρ he
    rw [h.const he]
    exact zero_means
  var_self := by
    intro x name ρ he
    rw [h.var_self he]
    exact one_means
  var_other := by
    intro x id name hid ρ he
    rw [h.var_other hid he]
    exact zero_means
  unary := by
    intro x id op a d hd n ρ he
    have ha := h.needed he (c := a) (by simp [Formula.needed, Shape.children])
    rw [h.unary he]
    exact unaryDerivative_real (h.defined he) (h.means ha) (hd ρ ha) n
  binary := by
    intro x id op a b da db hda hdb n ρ he
    have ha := h.needed he (c := a) (by simp [Formula.needed, Shape.children])
    have hb := h.needed he (c := b) (by simp [Formula.needed, Shape.children])
    rw [h.binary he]
    exact binaryDerivative_real (h.means ha) (h.means hb) (hda ρ ha) (hdb ρ hb) n
  assoc := by
    intro x id op args terms hterms n ρ he
    rw [h.assoc he]
    exact h.assoc_real he hterms n
  conditional := by
    intro x id op c a b da db hda hdb n ρ he
    have hc := h.needed he (c := c) (by simp [Formula.needed])
    have hselected := h.needed he (c := if op.selectsFirst (value ρ c) then a else b)
      (by simp [Formula.needed])
    have hmeansC := h.means hc
    rw [h.conditional he]
    refine conditional_real hmeansC ?_ n
    rw [← hmeansC.value_eq]
    split at hselected
    · next hfirst =>
        rw [if_pos hfirst, if_pos hfirst]
        exact hda ρ hselected
    · next hfirst =>
        rw [if_neg hfirst, if_neg hfirst]
        exact hdb ρ hselected
  tabulated := by
    intro x id mark t a d hd n ρ he
    have ha := h.needed he (c := a) (by simp [Formula.needed, Shape.children])
    obtain ⟨hsloped, hslope⟩ := h.tabulated he
    rw [hslope]
    exact tabulatedDerivative_real (h.defined ha) hsloped (hd ρ ha) n
  solver_bound := fun ρ he => absurd he h.solver
  solver_level := fun _ _ ρ he => absurd he h.solver
  solver_slope := fun he _ _ hd hd' =>
    (rootSlope_builds _ he hd.known hd'.known).mono fun _ _ _ _ ρ hsolver => absurd hsolver h.solver

end Calculus

/-- The derivative means the slope, wherever the formula is regular. -/
def MeansSlope (x : NodeId) (e d : Formula PartialReal) : Prop :=
  ∀ (ρ : Valuation PartialReal) (x₀ : ℝ), ρ x = real x₀ → e.Regular ρ →
    d.Means ρ (real (slope ρ x x₀ e))

/-- Slopes obey the rules of calculus.  Tables and solvers are at no regular point. -/
theorem slope_calculus : Calculus (fun x ρ e => ρ x = real (ρ x).toReal ∧ e.Regular ρ)
    fun x ρ e => slope ρ x (ρ x).toReal e where
  defined h := h.2.defined
  needed h hc := ⟨h.1, h.2.needed hc⟩
  const h := (hasSlope_const h.2.here).slope_eq
  var_self _ := hasSlope_var_self.slope_eq
  var_other hid h := (hasSlope_var_other hid h.2.here).slope_eq
  unary := by
    rintro x ρ id op a ⟨hx, he⟩
    have ha : a.Regular ρ := he.needed (by simp [needed, Shape.children])
    exact (hasSlope_unary hx he.here (ha.hasSlope hx)).slope_eq
  binary := by
    rintro x ρ id op a b ⟨hx, he⟩
    have ha : a.Regular ρ := he.needed (by simp [needed, Shape.children])
    have hb : b.Regular ρ := he.needed (by simp [needed, Shape.children])
    exact (hasSlope_binary hx he.here (ha.hasSlope hx) (hb.hasSlope hx)).slope_eq
  assoc := by
    rintro x ρ id op args ⟨hx, he⟩
    have hslopes : List.Forall₂ (HasSlope ρ x (ρ x).toReal) args
        (args.map (slope ρ x (ρ x).toReal)) := by
      rw [List.forall₂_map_right_iff]
      exact List.forall₂_same.mpr fun a ha => (he.needed ha).hasSlope hx
    exact (hasSlope_assoc hx he.here hslopes).slope_eq
  conditional := by
    rintro x ρ id op c a b ⟨hx, he⟩
    have hc : c.Regular ρ := he.needed (by simp [needed])
    have hselected : Regular ρ (if op.selectsFirst (value ρ c) then a else b) :=
      he.needed (by simp [needed])
    exact (hasSlope_conditional hx he.here (hc.hasSlope hx) (hselected.hasSlope hx)).slope_eq
  tabulated h := h.2.here.elim
  solver h := h.2.here

/-- The rules of calculus hand on the slopes. -/
theorem meansSlope_handedOn : HandedOn MeansSlope := by
  have hmeaning : MeansSlope = Calculus.Meaning
      (fun x ρ e => ρ x = real (ρ x).toReal ∧ e.Regular ρ)
      fun x ρ e => slope ρ x (ρ x).toReal e := by
    funext x e d
    refine propext ⟨fun h ρ he => h ρ _ he.1 he.2, fun h ρ x₀ hx he => ?_⟩
    have hmeans : ρ x = real (ρ x).toReal ∧ e.Regular ρ →
        d.Means ρ (real (slope ρ x (ρ x).toReal e)) := h ρ
    rw [hx, toReal] at hmeans
    exact hmeans ⟨rfl, he⟩
  rw [hmeaning]
  exact slope_calculus.handedOn

/-! ## Evaluation -/

/-- The value of the formula when the variable holds the number `t`. -/
noncomputable def evaluatedAt (s : Store PartialReal) (x : NodeId) (e : Formula PartialReal)
    (t : ℝ) : PartialReal :=
  (e.evaluate.run (s.write x (real t))).1

/-- Evaluated with the variable set, a formula has its value there. -/
theorem evaluatedAt_eq {D : Directory PartialReal} {s : Store PartialReal} (hs : s.Reachable)
    {e : Formula PartialReal} (hfree : e.SolverFree) (hlisted : e.ListedIn D) (x : NodeId)
    (t : ℝ) : evaluatedAt s x e t = value (Valuation.set s.read x (real t)) e := by
  rw [evaluatedAt, evaluate_run hfree hlisted (hs.write x (real t)), Store.read_write]

/-- **Derivatives are slopes.**  Let a formula without tables and solvers be at hand,
however it was assembled and whatever derivatives were taken before.  Where it is
regular, its derivative evaluates to a real number, around the present value of the
variable the formula evaluates to real numbers, and their slope there is that
number. -/
theorem derivative_evaluation {w : Workbench PartialReal} (hw : w.Reachable)
    {e : Formula PartialReal} (he : e ∈ w.atHand) (helementary : e.Elementary) (x : NodeId)
    {s : Store PartialReal} (hs : s.Reachable) {x₀ : ℝ} (hx : s.read x = real x₀)
    (hregular : e.Regular s.read) :
    ∃ v : ℝ, ((w.derivative e x).evaluate.run s).1 = real v ∧
      (∀ᶠ t in 𝓝 x₀, evaluatedAt s x e t ≠ undefined) ∧
      HasDerivAt (fun t => (evaluatedAt s x e t).toReal) v x₀ := by
  obtain ⟨L, hknown, hderivative⟩ := hw.isDerivative meansSlope_handedOn he x
  have hslope := hregular.hasSlope hx
  have heval : evaluatedAt s x e = fun t => value (Valuation.set s.read x (real t)) e := by
    funext t
    exact evaluatedAt_eq hs helementary.solverFree hknown.listed x t
  refine ⟨slope s.read x x₀ e, ?_, ?_, ?_⟩
  · rw [evaluate_run (hderivative.elementary helementary).solverFree
      hderivative.known.listed hs]
    exact (hderivative.handedOn s.read x₀ hx hregular).value_eq
  · rw [heval]
    exact hslope.defined
  · rw [heval]
    exact hslope.deriv

/-- Where `x` is three, the derivative of its square, taken at a bench where nothing
else lies, evaluates to six. -/
theorem derivative_evaluation_of_square :
    let x : Formula PartialReal := node 2 (.var "x")
    let e : Formula PartialReal := node 3 (.unary .square x)
    let w := (Workbench.start.perform (.node x.shape)).perform (.node e.shape)
    ((w.derivative e 2).evaluate.run (Store.empty.write 2 (real 3))).1 = real 6 := by
  intro x e w
  let s : Store PartialReal := Store.empty.write 2 (real 3)
  have hs : s.Reachable := Store.Reachable.empty.write 2 (real 3)
  have hw : w.Reachable := by
    refine .perform (.perform .start ?_) ?_
    · simp [Workbench.Admits, x, Shape.refs, Shape.children]
    · intro r hr
      rw [List.mem_singleton.mp hr]
      exact List.mem_cons_self
  have helementaryX : x.Elementary := .node trivial (by simp [Shape.children])
  have helementary : e.Elementary :=
    .node trivial (by simpa [Shape.children] using helementaryX)
  have hread : s.read 2 = real 3 := by simp [s, Store.read_write, Valuation.set]
  have hregularX : x.Regular s.read :=
    .node (by simp [RegularAt, hread]) (by simp [needed, Shape.children])
  have hregular : e.Regular s.read :=
    .node trivial (by simpa [needed, Shape.children] using hregularX)
  have he : e ∈ w.atHand := List.mem_cons_self
  obtain ⟨v, hv, _, hslope⟩ := derivative_evaluation hw he helementary 2 hs hread hregular
  let D : Directory PartialReal := fun id => if id = 2 then x else e
  have hlistedX : x.ListedIn D := .node rfl (by simp [Shape.refs, Shape.children])
  have hlisted : e.ListedIn D :=
    .node rfl (by simpa [Shape.refs, Shape.children] using hlistedX)
  have hsquare : (fun t => (evaluatedAt s 2 e t).toReal) = fun t : ℝ => t * t := by
    funext t
    rw [evaluatedAt_eq hs helementary.solverFree hlisted]
    simp [e, x, value, UnaryOp.apply, Valuation.set, toReal]
  have hsix : v = 6 := by
    rw [hsquare] at hslope
    rw [hslope.unique ((hasDerivAt_id (3 : ℝ)).mul (hasDerivAt_id 3))]
    norm_num
  rw [hv, hsix]

end Formula

end FormulaGraph
