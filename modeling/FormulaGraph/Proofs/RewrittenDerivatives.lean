import FormulaGraph.Proofs.RewrittenRates
import FormulaGraph.Proofs.Substituting
import FormulaGraph.Proofs.LexicalScope

/-!
# Rewriting and differentiating

A formula is frozen to be differentiated afterwards with respect to the variables left.
This gives what one expects: taken of the frozen formula, the derivative is that of the
formula itself, where the frozen variables still had the values they were frozen at; and
where a new variable is put for another, the derivative by the new one is the derivative by
the other with the new one put for it (`rewritten_derivative`).

It does so as long as no table brings along a derivative of its own that mentions a variable
replaced.  Rewriting follows the children of a node, and the derivative of a table is not
among them, so it goes on reading the variables it was supplied with
(`rewriting_misses_supplied_derivative`).
-/

namespace FormulaGraph

open PartialReal

/-! ## A workbench where formulas are rewritten -/

namespace Workbench

variable {α : Type} [Scalar α]

/-- Workbenches that come about by work in any order, formulas being rewritten
meanwhile. -/
inductive Attainable : Workbench α → Prop
  | start : Attainable start
  | perform {w : Workbench α} (hw : Attainable w) {a : Work α} (ha : w.Admits a) :
      Attainable (w.perform a)
  | freeze {w : Workbench α} (hw : Attainable w) {e : Formula α} (he : e ∈ w.atHand)
      (values : NodeId → α) (excluded : List NodeId) :
      Attainable (w.place (e.freeze values excluded))
  | substitute {w : Workbench α} (hw : Attainable w) {e : Formula α} (he : e ∈ w.atHand)
      {pairs : List (NodeId × Formula α)} (hpairs : ∀ p ∈ pairs, p.2 ∈ w.atHand) :
      Attainable (w.place (e.substitute pairs))

/-- Every bench that can be attained has a ledger that accounts for its derivatives. -/
theorem Attainable.accounted {V : NodeId → Formula α → Formula α → Prop} (hV : Formula.HandedOn V)
    {w : Workbench α} (hw : w.Attainable) : ∃ L, w.AccountedBy V L := by
  induction hw with
  | start => exact ⟨_, start_accounted⟩
  | perform _ ha ih =>
      obtain ⟨L, hL⟩ := ih
      exact hL.perform hV ha
  | freeze _ he values excluded ih =>
      obtain ⟨L, hL⟩ := ih
      exact hL.place (Formula.freeze_known values excluded (hL.known _ he))
  | substitute _ he hpairs ih =>
      obtain ⟨L, hL⟩ := ih
      exact hL.place (Formula.substitute_known (fun p hp => hL.known _ (hpairs p hp))
        (hL.known _ he))

end Workbench

namespace Formula

/-! ## Where derivatives have values -/

/-- The formula is supplied as the derivative of a table within the other. -/
def SuppliedWithin {α : Type} (d e : Formula α) : Prop :=
  ∃ id mark t a, (node id (.tabulated mark t a)).Within e ∧ d ∈ t.derivative

/-- Nothing within the formula evaluates to the undefined value, nothing within the
derivatives supplied to its tables, and no difference of a table that has none. -/
structure SlopesThroughout (s : Store PartialReal) (e : Formula PartialReal) : Prop where
  values : e.EvaluatesThroughout s
  supplied : ∀ d, SuppliedWithin d e → d.EvaluatesThroughout s
  differences : ∀ {id mark t a}, (node id (.tabulated mark t a)).Within e →
    t.derivative = none → t.finiteDifference.interpolate (a.evaluate.run s).1 ≠ undefined

variable {s t u : Store PartialReal} {L : Ledger PartialReal} {e : Formula PartialReal}
  {ρ : Valuation PartialReal}

/-- What holds throughout a formula holds throughout its parts. -/
theorem Throughout.within {A : NodeId → Shape PartialReal (Formula PartialReal) → Prop}
    {d e : Formula PartialReal} (he : e.Throughout A) (hd : d.Within e) : d.Throughout A := by
  induction hd with
  | refl => exact he
  | child hc _ ih => exact ih (he.ref (Shape.mem_refs_of_mem_children hc))

/-- The parts of a table are those of its argument. -/
theorem within_tabulated {d a : Formula PartialReal} {id mark : NodeId}
    {t : Table PartialReal (Formula PartialReal)} :
    d.Within (node id (.tabulated mark t a)) ↔ d = node id (.tabulated mark t a) ∨ d.Within a := by
  rw [within_node]
  simp [Shape.children]

/-- A table within one is that one or within its argument. -/
theorem suppliedWithin_tabulated {d a : Formula PartialReal} {id mark : NodeId}
    {t : Table PartialReal (Formula PartialReal)} :
    SuppliedWithin d (node id (.tabulated mark t a)) ↔ d ∈ t.derivative ∨ SuppliedWithin d a := by
  refine ⟨?_, ?_⟩
  · rintro ⟨id', mark', t', a', hnode, hd⟩
    rcases within_tabulated.mp hnode with heq | hnode
    · cases heq
      exact .inl hd
    · exact .inr ⟨id', mark', t', a', hnode, hd⟩
  · rintro (hd | ⟨id', mark', t', a', hnode, hd⟩)
    · exact ⟨id, mark, t, a, .refl _, hd⟩
    · exact ⟨id', mark', t', a', within_tabulated.mpr (.inr hnode), hd⟩

/-- Elementary formulas have no tables, so nothing is supplied within them. -/
theorem not_suppliedWithin_of_elementary {d : Formula PartialReal} (he : e.Elementary) :
    ¬ SuppliedWithin d e := by
  rintro ⟨id, mark, t, a, hnode, _⟩
  exact (he.within hnode).here

/-- Without tables there is nothing more to a formula than its nodes. -/
theorem slopesThroughout_of_elementary (h : e.EvaluatesThroughout s) (he : e.Elementary) :
    SlopesThroughout s e where
  values := h
  supplied _ hd := absurd hd (not_suppliedWithin_of_elementary he)
  differences hnode := (he.within hnode).here.elim

/-- A table of numbers has slopes wherever its argument has. -/
theorem SlopesThroughout.tabulated {id mark : NodeId}
    {t : Table PartialReal (Formula PartialReal)} {a : Formula PartialReal}
    (ha : SlopesThroughout s a) (ht : t.IsNumeric)
    (hsupplied : ∀ d ∈ t.derivative, d.EvaluatesThroughout s)
    (hknown : (node id (.tabulated mark t a)).KnownTo L)
    (hfree : (node id (.tabulated mark t a)).SolverFree) (hs : s.Reachable) :
    SlopesThroughout s (node id (.tabulated mark t a)) := by
  have hargument : a ∈ (node id (.tabulated mark t a)).children := List.mem_singleton_self a
  obtain ⟨y, hy⟩ := exists_real (ha.values a (.refl a))
  have hvalue : ((node id (.tabulated mark t a)).evaluate.run s).1 = t.interpolate (real y) := by
    rw [evaluate_run hfree hknown.listed hs, value, ← hy,
      evaluate_run (hfree.child hargument) (hknown.child hargument).listed hs]
  refine ⟨?_, ?_, ?_⟩
  · intro d hd
    rcases within_tabulated.mp hd with rfl | hd
    · rw [hvalue]
      exact ht.interpolate_defined y
    · exact ha.values d hd
  · intro d hd
    exact (suppliedWithin_tabulated.mp hd).elim (hsupplied d) (ha.supplied d)
  · intro id' mark' t' a' hnode hnone
    rcases within_tabulated.mp hnode with heq | hnode
    · cases heq
      rw [hy]
      exact ht.finiteDifference.interpolate_defined y
    · exact ha.differences hnode hnone

/-- What has slopes at a store is kept at a valuation that agrees with it on what the
derivatives supplied mention. -/
theorem SlopesThroughout.kept (h : SlopesThroughout u e) (hu : u.Reachable) (he : e.KnownTo L)
    (hsolverless : e.Solverless)
    (hagree : ∀ d, SuppliedWithin d e → ∀ v, d.Free v → u.read v = ρ v) :
    e.Everywhere (Kept ρ u.read) := by
  have hvalue : ∀ d : Formula PartialReal, d.Within e → (d.evaluate.run u).1 = value u.read d :=
    fun d hd => evaluate_run (hsolverless.within hd).everywhere (he.within hd).listed hu
  refine everywhere_of_within ?_
  rintro ⟨id, shape⟩ hd
  refine ⟨hvalue _ hd ▸ h.values _ hd, ?_⟩
  rintro mark t a rfl
  have hnode : (node id (.tabulated mark t a)).Within e := hd
  rw [TableSloped, tableSlope, tableSlope]
  cases hsupplied : t.derivative with
  | some d =>
      have hwithin : SuppliedWithin d e := ⟨id, mark, t, a, hnode, hsupplied⟩
      have href : d ∈ (node id (.tabulated mark t a)).shape.refs := by
        simp [Shape.refs, hsupplied]
      have hdefined : d.Defined u.read := (h.supplied d hwithin).defined hu
        ((hsolverless.within hnode).ref href).everywhere ((he.within hnode).ref href)
      have hsame := hagree d hwithin
      exact ⟨hdefined.congr hsame, (value_congr hsame).symm⟩
  | none =>
      have hchild : a.Within e := .trans (.child (by simp [Shape.children]) (.refl a)) hnode
      refine ⟨?_, rfl⟩
      have hdifference := h.differences hnode hsupplied
      rwa [hvalue a hchild] at hdifference

/-- A formula that is kept everywhere and has no solvers has slopes. -/
theorem sloped_of_kept (h : e.Everywhere (Kept ρ ρ)) (hsolverless : e.Solverless) :
    e.Sloped ρ :=
  sloped_of_defined (defined_of_kept h) hsolverless.everywhere
    (h.imp fun _ _ hkept mark t a ht => (hkept.table mark t a ht).1)

/-- Slopes throughout are slopes at the values of the store. -/
theorem SlopesThroughout.sloped (h : SlopesThroughout u e) (hu : u.Reachable)
    (he : e.KnownTo L) (hsolverless : e.Solverless) : e.Sloped u.read :=
  sloped_of_kept (h.kept hu he hsolverless fun _ _ _ _ => rfl) hsolverless

/-- The derivative of a formula at hand evaluates to its rate. -/
theorem derivative_run {w : Workbench PartialReal} (hw : w.Attainable) (he : e ∈ w.atHand)
    (hsolverless : e.Solverless) (hs : s.Reachable) (hsloped : e.Sloped s.read) (x : NodeId) :
    ((w.derivative e x).evaluate.run s).1 = real (rate s.read (along x) e) := by
  obtain ⟨L, hL⟩ := hw.accounted rate_calculus.handedOn
  obtain ⟨L', _, hderivative⟩ := hL.isDerivative rate_calculus.handedOn he x
  exact hderivative.evaluate_run hsolverless hs hsloped

/-- The derivative of a formula that mirrors another evaluates to the rate of the other. -/
theorem Mirrors.derivative_run {σ : Valuation PartialReal} {δ : NodeId → ℝ}
    {d : Formula PartialReal} {x : NodeId} (h : Mirrors s.read σ (along x) δ e L d)
    (he : value σ e ≠ undefined) {w : Workbench PartialReal} (hw : w.Attainable)
    (hd : d ∈ w.atHand) (hs : s.Reachable) :
    ((w.derivative d x).evaluate.run s).1 = real (rate σ δ e) := by
  have hslopable := h.member.holds
  have hsloped : d.Sloped s.read := sloped_of_defined (h.means.defined he)
    hslopable.solverless.everywhere hslopable.tables
  rw [Formula.derivative_run hw hd hslopable.solverless hs hsloped, h.rate_eq]

/-! ## Rewritten formulas -/

variable {σ : Valuation PartialReal} {X : List NodeId} {v : NodeId} {x y : Variable}

/-- A formula frozen at values that the other variables keep mirrors itself. -/
theorem freeze_mirrors {values : NodeId → PartialReal} (he : e.KnownTo L)
    (hsolverless : e.Solverless) (hkept : e.Everywhere (Kept ρ σ)) (hv : v ∈ X)
    (hσ : ∀ y, σ y = if y ∈ X then ρ y else values y) :
    Builds (freeze values X e) L (Mirrors ρ σ (along v) (along v) e) := by
  refine (mirrors.carries (k := Replacement.ofValues values X) e
    ⟨he, hsolverless, hkept, ?_, ?_⟩).answer
  · intro y _ hnone
    have hy : y.id ∈ X := by
      by_contra hnot
      simp [Replacement.ofValues, hnot] at hnone
    exact ⟨by rw [hσ, if_pos hy], rfl⟩
  · intro y _ put hput L' _
    have hy : y.id ∉ X := by
      intro hy
      simp [Replacement.ofValues, hy] at hput
    have hconstant : put = constant (values y.id) := by
      simpa [Replacement.ofValues, hy] using hput.symm
    subst hconstant
    have hvalue : value σ y.formula = values y.id := by
      rw [Variable.formula, value, hσ, if_neg hy]
    have hrate : rate σ (along v) y.formula = 0 := by
      have hne : y.id ≠ v := fun heq => hy (heq ▸ hv)
      rw [Variable.formula, rate, along, if_neg hne]
    have hyields : Yields (constant (values y.id)) fun d =>
        d.Means ρ (values y.id) ∧ rate ρ (along v) d = 0 :=
      .new fun id => ⟨const_means id _, by rw [rate]⟩
    refine ((constant_builds (slopable_admitsOperations (ρ := ρ)) _).and_yields hyields).mono ?_
    rintro _ d _ ⟨hmember, hmeans, hzero⟩
    exact ⟨hmember, hvalue ▸ hmeans, hzero.trans hrate.symm⟩

/-- With a new variable in the place of another, a formula mirrors itself where the other
variable holds what the new one holds, and moves as the new one does. -/
theorem substitute_mirrors (he : e.KnownTo L) (hsolverless : e.Solverless)
    (hkept : e.Everywhere (Kept ρ (ρ.set x.id (ρ y.id)))) (hy : y.formula.KnownTo L)
    (hnew : ¬ e.Free y.id) :
    Builds (substitute [(x.id, y.formula)] e) L
      (Mirrors ρ (ρ.set x.id (ρ y.id)) (along y.id) (along x.id) e) := by
  refine (mirrors.carries (k := Replacement.ofPairs [(x.id, y.formula)]) e
    ⟨he, hsolverless, hkept, ?_, ?_⟩).answer
  · intro v hv hnone
    have hne : v.id ≠ x.id := by
      intro heq
      simp [Replacement.ofPairs, heq] at hnone
    have hne' : v.id ≠ y.id := fun heq => hnew (heq ▸ hv)
    rw [Valuation.set, if_neg hne, along, along, if_neg hne, if_neg hne']
    exact ⟨rfl, rfl⟩
  · intro v _ put hput L' hL
    have heq : v.id = x.id := by
      by_contra hne
      simp [Replacement.ofPairs, Ne.symm hne] at hput
    have hpure : put = pure y.formula := by
      simpa [Replacement.ofPairs, heq] using hput.symm
    subst hpure
    have hvalue : value (ρ.set x.id (ρ y.id)) v.formula = ρ y.id := by
      rw [Variable.formula, value, Valuation.set, if_pos heq]
    have hrate : rate (ρ.set x.id (ρ y.id)) (along x.id) v.formula = 1 := by
      rw [Variable.formula, rate, along, if_pos heq]
    refine .pure ⟨⟨hy.mono hL, .node (by simp) (by simp [Shape.refs, Shape.children]),
      .node (by simp [TableAt]) (by simp [Shape.children])⟩, ?_, ?_⟩
    · rw [hvalue]
      exact ⟨by rw [Variable.formula, value], defined_var⟩
    · rw [hrate, Variable.formula, rate, along, if_pos rfl]

/-- What is defined where one variable holds what another one holds evaluates so with the
other put for it. -/
theorem evaluate_substitute_var {d : Formula PartialReal} (hd : d.KnownTo L)
    (hfree : d.SolverFree) (hy : y.formula.KnownTo L) (hs : s.Reachable)
    (hvalue : s.read y.id ≠ undefined)
    (hdefined : d.Defined (Valuation.set s.read x.id (s.read y.id))) :
    (((substitute [(x.id, y.formula)] d).run L.next).1.evaluate.run s).1 =
      value (Valuation.set s.read x.id (s.read y.id)) d := by
  let θ : Substitution PartialReal := .ofPairs [(x.id, y.formula)]
  have hput : ∀ v r, θ v = some r → v = x.id ∧ r = y.formula := fun _ _ hr =>
    Substitution.ofPairs_eq_some.mp hr
  have hkept : ∀ v, θ v = none → v ≠ x.id := fun _ hnone =>
    Substitution.ofPairs_eq_none.mp hnone
  have hscoped : (y.formula : Formula PartialReal).Scoped Set.univ := by
    simp [Variable.formula, scoped_iff, Shape.passParts, Shape.children]
  have hsubstitutes := (substitutes Set.univ).carries (k := ⟨∅, θ⟩) d
    ⟨hd, fun v r hr => (hput v r hr).2 ▸ hy, receives_of_solverFree hfree
      (fun _ _ _ => .inl (Set.mem_univ _))
      fun v r _ hr => ⟨(hput v r hr).2 ▸ hscoped, by simp⟩⟩
  rw [Substitution.replacement_ofPairs] at hsubstitutes
  obtain ⟨L', _, _, hresult⟩ := hsubstitutes.answer
  have hsupplies : Supplies ⟨∅, θ⟩ d s.read
      (Valuation.set s.read x.id (s.read y.id)) := by
    refine ⟨fun v _ hnone => if_neg (hkept v hnone), fun v r _ hr => ?_⟩
    obtain ⟨rfl, rfl⟩ := hput v r hr
    exact ⟨by rw [Valuation.set, if_pos rfl, Variable.formula, value], defined_var hvalue⟩
  have hmeans := hresult.means _ _ hsupplies (hdefined.definedInTrials hfree)
  rw [← hmeans.value_eq]
  exact evaluate_scoped hresult.inScope hresult.known.listed hs fun _ _ => rfl

/-- The derivative by one variable, with another put for it, evaluates to the rate where the
variable holds what the other holds. -/
theorem substituted_derivative_run {w w₃ : Workbench PartialReal} (hw : w.Attainable)
    (he : e ∈ w.atHand) (hsolverless : e.Solverless) (hw₃ : w₃.Attainable)
    (hd : w.derivative e x.id ∈ w₃.atHand) (hy : y.formula ∈ w₃.atHand) (hs : s.Reachable)
    (hvalue : s.read y.id ≠ undefined)
    (hsloped : e.Sloped (Valuation.set s.read x.id (s.read y.id))) :
    ((w₃.substituted [(x.id, y.formula)] (w.derivative e x.id)).evaluate.run s).1 =
      real (rate (Valuation.set s.read x.id (s.read y.id)) (along x.id) e) := by
  obtain ⟨L, hL⟩ := hw.accounted rate_calculus.handedOn
  obtain ⟨L₃, hL₃⟩ := hw₃.accounted rate_calculus.handedOn
  obtain ⟨_, _, hderivative⟩ := hL.isDerivative rate_calculus.handedOn he x.id
  have hmeans := hderivative.handedOn _ hsloped
  have hrun := evaluate_substitute_var (hL₃.known _ hd)
    (hderivative.inherits _ solverless_inherited hsolverless).everywhere (hL₃.known _ hy) hs
    hvalue hmeans.defined_of_real
  rw [hL₃.next_eq, hmeans.value_eq] at hrun
  exact hrun

/-! ## Products of two variables -/

section Product

variable {id : NodeId} {a b : ℝ}

/-- The product of two variables. -/
def productOf (id : NodeId) (x y : Variable) : Formula PartialReal :=
  node id (.assoc .multiply [x.formula, y.formula])

/-- A variable is no solver. -/
theorem solverless_formula (x : Variable) : (x.formula : Formula PartialReal).Solverless := by
  simp [Variable.formula, throughout_node, Shape.refs, Shape.children]

/-- A product of variables has no solver among its parts. -/
theorem solverless_productOf : (productOf id x y).Solverless := by
  simp [productOf, throughout_node, Shape.refs, Shape.children, solverless_formula]

/-- A variable is elementary. -/
theorem elementary_formula (x : Variable) : (x.formula : Formula PartialReal).Elementary :=
  .node trivial (by simp [Shape.children])

/-- A product of variables is elementary. -/
theorem elementary_productOf : (productOf id x y).Elementary :=
  .node trivial (by simpa [Shape.children] using ⟨elementary_formula x, elementary_formula y⟩)

/-- The product is that of the values. -/
theorem value_productOf (hx : ρ x.id = real a) (hy : ρ y.id = real b) :
    value ρ (productOf id x y) = real (a * b) := by
  have happly := AssocOp.multiply.apply_map_real [a, b]
  simpa [productOf, Variable.formula, value, values, hx, hy, AssocOp.amount] using happly

/-- A variable that holds a number evaluates. -/
theorem evaluatesThroughout_formula (hs : s.Reachable)
    (hknown : (x.formula : Formula PartialReal).KnownTo L) (hx : s.read x.id = real a) :
    x.formula.EvaluatesThroughout s := by
  refine evaluatesThroughout_of_value hs (solverless_formula x).everywhere hknown ?_
  simp [Variable.formula, within_node, Shape.children, value, hx]

/-- A product of variables that hold numbers evaluates. -/
theorem evaluatesThroughout_productOf (hs : s.Reachable) (hknown : (productOf id x y).KnownTo L)
    (hx : s.read x.id = real a) (hy : s.read y.id = real b) :
    (productOf id x y).EvaluatesThroughout s := by
  refine evaluatesThroughout_of_value hs solverless_productOf.everywhere hknown ?_
  intro d hd
  have hd' : d = productOf id x y ∨ d = x.formula ∨ d = y.formula := by
    simpa [productOf, Variable.formula, within_node, Shape.children] using hd
  rcases hd' with rfl | rfl | rfl
  · simp [value_productOf hx hy]
  · simp [Variable.formula, value, hx]
  · simp [Variable.formula, value, hy]

/-- Three variables are at hand, and the product of the last and the first. -/
noncomputable def productBench : Workbench PartialReal :=
  (((Workbench.start.perform (.node (.var "x"))).perform (.node (.var "y"))).perform
    (.node (.var "w"))).perform (.node (productOf 5 ⟨4, "w"⟩ ⟨2, "x"⟩).shape)

/-- All of the bench is built step by step. -/
theorem productBench_attainable : productBench.Attainable := by
  refine .perform (.perform (.perform (.perform .start ?_) ?_) ?_) ?_
  · simp [Workbench.Admits, Shape.refs, Shape.children]
  · simp [Workbench.Admits, Shape.refs, Shape.children]
  · simp [Workbench.Admits, Shape.refs, Shape.children]
  · show ∀ r ∈ [node 4 (.var "w"), node 2 (.var "x")],
      r ∈ [node 4 (.var "w"), node 3 (.var "y"), node 2 (.var "x"), zero, one]
    simp

end Product

/-! ## Tables with a product supplied -/

section Tables

variable {id id' mark : NodeId} {table : Table PartialReal (Formula PartialReal)}
  {z w : Variable} {a b c : ℝ}

/-- Freezing leaves a table alone if its argument is excluded. -/
theorem freeze_tabulated {values : NodeId → PartialReal} {X : List NodeId} (hz : z.id ∈ X) :
    freeze values X (node id (.tabulated mark table z.formula)) =
      pure (node id (.tabulated mark table z.formula)) := by
  simp [freeze, replace, replaceNode, replaceShape, once, replaceOver, Replacement.ofValues,
    Variable.formula, hz, sameAll, same, Shape.children]

/-- A new variable is put into the argument of a table, and not into the derivative supplied. -/
theorem substitute_tabulated (hne : y.id ≠ z.id) :
    substitute [(z.id, y.formula)] (node id (.tabulated mark table z.formula)) =
      new (.tabulated mark table y.formula) := by
  simp [substitute, replace, replaceNode, replaceShape, once, replaceOver, Replacement.ofPairs,
    Variable.formula, sameAll, same, Shape.children, Ne.symm hne]
  rfl

section Supplied

variable (hsupplied : table.derivative = some (productOf id' w x))

include hsupplied

/-- A table with a product supplied has no solver among its parts. -/
theorem solverless_supplied : (node id (.tabulated mark table z.formula)).Solverless := by
  simp [throughout_node, Shape.refs, hsupplied, solverless_formula, solverless_productOf]

/-- A table with a supplied product has slopes wherever the variables hold numbers. -/
theorem slopesThroughout_supplied (hnumeric : table.IsNumeric)
    (hknown : (node id (.tabulated mark table z.formula)).KnownTo L) (hs : s.Reachable)
    (hz : s.read z.id = real c) (hx : s.read x.id = real a) (hw : s.read w.id = real b) :
    SlopesThroughout s (node id (.tabulated mark table z.formula)) := by
  have hargument : z.formula.EvaluatesThroughout s :=
    evaluatesThroughout_formula hs (hknown.child (by simp [Shape.children])) hz
  have hderivative : (productOf id' w x).EvaluatesThroughout s :=
    evaluatesThroughout_productOf hs (hknown.ref (by simp [Shape.refs, hsupplied])) hw hx
  exact (slopesThroughout_of_elementary hargument (elementary_formula z)).tabulated hnumeric
    (by simpa [hsupplied]) hknown (solverless_supplied hsupplied).everywhere hs

/-- The rate of the table by its argument is the product, whatever the argument is. -/
theorem rate_supplied (hx : ρ x.id = real a) (hw : ρ w.id = real b) :
    rate ρ (along z.id) (node id (.tabulated mark table z.formula)) = b * a := by
  have hproduct : value ρ (productOf id' w x) = real (b * a) := value_productOf hw hx
  simp [rate, tableSlope, hsupplied, hproduct, toReal, along, Variable.formula]

/-- The derivative of the table evaluates to the product. -/
theorem supplied_derivative_run (hnumeric : table.IsNumeric) {bench : Workbench PartialReal}
    (hbench : bench.Attainable) (he : node id (.tabulated mark table z.formula) ∈ bench.atHand)
    (hs : s.Reachable) (hz : s.read z.id = real c) (hx : s.read x.id = real a)
    (hw : s.read w.id = real b) :
    ((bench.derivative (node id (.tabulated mark table z.formula)) z.id).evaluate.run s).1 =
      real (b * a) := by
  obtain ⟨L, hL⟩ := hbench.accounted rate_calculus.handedOn
  have hslopes := slopesThroughout_supplied hsupplied hnumeric (hL.known _ he) hs hz hx hw
  rw [derivative_run hbench he (solverless_supplied hsupplied) hs
    (hslopes.sloped hs (hL.known _ he) (solverless_supplied hsupplied)),
    rate_supplied hsupplied hx hw]

end Supplied

section Constant

variable {k : NodeId} (hconstant : table.derivative = some (node k (.const (real c))))

include hconstant

/-- A table of a product with a constant supplied has no solver among its parts. -/
theorem solverless_constant :
    (node id (.tabulated mark table (productOf id' w x))).Solverless := by
  simp [throughout_node, Shape.refs, Shape.children, hconstant, solverless_productOf]

/-- A constant that is supplied mentions no variable. -/
theorem not_free_of_constant {d : Formula PartialReal}
    (hd : SuppliedWithin d (node id (.tabulated mark table (productOf id' w x)))) (v : NodeId) :
    ¬ d.Free v := by
  rcases suppliedWithin_tabulated.mp hd with hd | hd
  · obtain rfl : node k (.const (real c)) = d := Option.some.inj (hconstant.symm.trans hd)
    simp [free_node, Shape.passParts, Shape.children]
  · exact absurd hd (not_suppliedWithin_of_elementary elementary_productOf)

/-- A table of a product with a constant supplied has slopes wherever the variables hold
numbers. -/
theorem slopesThroughout_constant (hnumeric : table.IsNumeric)
    (hknown : (node id (.tabulated mark table (productOf id' w x))).KnownTo L) (hs : s.Reachable)
    (hw : s.read w.id = real b) (hx : s.read x.id = real a) :
    SlopesThroughout s (node id (.tabulated mark table (productOf id' w x))) := by
  have hargument : (productOf id' w x).EvaluatesThroughout s :=
    evaluatesThroughout_productOf hs (hknown.child (by simp [Shape.children])) hw hx
  have hderivative : (node k (.const (real c))).EvaluatesThroughout s :=
    evaluatesThroughout_of_value hs (.node (by simp) (by simp [Shape.children]))
      (hknown.ref (by simp [Shape.refs, hconstant])) (by simp [within_node, Shape.children, value])
  exact (slopesThroughout_of_elementary hargument elementary_productOf).tabulated hnumeric
    (by simpa [hconstant]) hknown (solverless_constant hconstant).everywhere hs

/-- The rate of a table with a constant supplied, by the second factor of its argument, is the
constant times the first factor. -/
theorem rate_constant (hne : w.id ≠ x.id) (hw : ρ w.id = real b) (hx : ρ x.id = real a) :
    rate ρ (along x.id) (node id (.tabulated mark table (productOf id' w x))) = c * b := by
  simp [productOf, Variable.formula, rate, rates, tableSlope, hconstant, value, toReal, along,
    AssocOp.slope, AssocOp.slopeTerms, AssocOp.productTerms, realValue, hw, hx, hne]

end Constant

end Tables

/-! ## Derivatives of rewritten formulas -/

/-- **Rewriting and differentiating.**  Let a formula without solvers be at hand, and let
all derivatives be taken, whenever and wherever the formulas are at hand.

Frozen but for some variables, the formula has the derivative by one of these that it has
itself, where the others still hold the values they were frozen at, if the derivatives
supplied to its tables mention none of the others.

With a new variable in the place of `x`, it has the derivative by the new one that it has
itself by `x`, with the new one put for `x` there, if the derivatives supplied to its tables
do not mention `x`. -/
theorem rewritten_derivative {w w₁ : Workbench PartialReal} (hw : w.Attainable)
    (hw₁ : w₁.Attainable) (he : e ∈ w.atHand) (he₁ : e ∈ w₁.atHand) (hsolverless : e.Solverless) :
    (∀ {w₂ : Workbench PartialReal} {X : List NodeId} {v : NodeId} {s t u : Store PartialReal},
      v ∈ X → (∀ d, SuppliedWithin d e → ∀ y, d.Free y → y ∈ X) →
      w₂.Attainable → w.frozen s.read X e ∈ w₂.atHand → t.Reachable → u.Reachable →
      (∀ y, u.read y = if y ∈ X then t.read y else s.read y) → SlopesThroughout u e →
      ((w₂.derivative (w.frozen s.read X e) v).evaluate.run t).1 =
        ((w₁.derivative e v).evaluate.run u).1) ∧
    ∀ {w₂ w₃ : Workbench PartialReal} {x y : Variable} {t : Store PartialReal},
      ¬ e.Free y.id → (∀ d, SuppliedWithin d e → ¬ d.Free x.id) → y.formula ∈ w.atHand →
      w₂.Attainable → w.substituted [(x.id, y.formula)] e ∈ w₂.atHand →
      w₃.Attainable → w₁.derivative e x.id ∈ w₃.atHand → y.formula ∈ w₃.atHand →
      t.Reachable → t.read y.id ≠ undefined →
      SlopesThroughout (t.write x.id (t.read y.id)) e →
      ((w₂.derivative (w.substituted [(x.id, y.formula)] e) y.id).evaluate.run t).1 =
        ((w₃.substituted [(x.id, y.formula)] (w₁.derivative e x.id)).evaluate.run t).1 := by
  obtain ⟨L, hL⟩ := hw.accounted rate_calculus.handedOn
  have hknown := hL.known e he
  refine ⟨?_, ?_⟩
  · intro w₂ X v s t u hv hsupplied hw₂ hfrozen ht hu hread hslopes
    have hkept := hslopes.kept (ρ := t.read) hu hknown hsolverless fun d hd y hy => by
      rw [hread, if_pos (hsupplied d hd y hy)]
    obtain ⟨L', _, _, hmirrors⟩ := freeze_mirrors hknown hsolverless hkept hv hread
    rw [hL.next_eq] at hmirrors
    rw [derivative_run hw₁ he₁ hsolverless hu (hslopes.sloped hu hknown hsolverless)]
    exact hmirrors.derivative_run (defined_of_kept hkept).here hw₂ hfrozen ht
  · intro w₂ w₃ x y t hnew hsupplied hy hw₂ hsubstituted hw₃ hderivative hy₃ ht hvalue hslopes
    have hu : (t.write x.id (t.read y.id)).Reachable := ht.write _ _
    have hread := Store.read_write t x.id (t.read y.id)
    have hkept := hslopes.kept (ρ := t.read) hu hknown hsolverless fun d hd v hv => by
      have hne : v ≠ x.id := fun heq => hsupplied d hd (heq ▸ hv)
      rw [hread, Valuation.set, if_neg hne]
    have hsloped := hslopes.sloped hu hknown hsolverless
    rw [hread] at hkept hsloped
    obtain ⟨L', _, _, hmirrors⟩ := substitute_mirrors hknown hsolverless hkept (hL.known _ hy) hnew
    rw [hL.next_eq] at hmirrors
    rw [substituted_derivative_run hw₁ he₁ hsolverless hw₃ hderivative hy₃ ht hvalue hsloped]
    exact hmirrors.derivative_run (defined_of_kept hkept).here hw₂ hsubstituted ht

/-- A table that doubles, and says so by its derivative, is applied to `w * x`.  Frozen where
`w` is three it has the derivative six, whatever `w` may be later; with `y` for `x` its
derivative is twice `w`, from either side. -/
theorem rewritten_derivative_of_double :
    let x : Variable := ⟨2, "x"⟩
    let y : Variable := ⟨3, "y"⟩
    let w : Variable := ⟨4, "w"⟩
    let wx := productOf 5 w x
    let two : Formula PartialReal := node 6 (.const (real 2))
    let double : Table PartialReal (Formula PartialReal) :=
      { name := "double", values := #[real 0, real 2], min := real 0, step := real 1,
        derivative := some two, two_le_size := by decide }
    let e : Formula PartialReal := node 8 (.tabulated 7 double wx)
    let bench := ((productBench.perform (.node two.shape)).perform .number).perform (.node e.shape)
    let s := (Store.empty.write 2 (real 1)).write 4 (real 3)
    let t := ((Store.empty.write 2 (real 1)).write 3 (real 4)).write 4 (real 5)
    let later := bench.place (e.freeze s.read [2])
    let renamed := bench.place (e.substitute [(2, y.formula)])
    let derived := bench.perform (.derivative e 2)
    ((later.derivative (bench.frozen s.read [2] e) 2).evaluate.run t).1 = real 6 ∧
      ((renamed.derivative (bench.substituted [(2, y.formula)] e) 3).evaluate.run t).1 =
        real 10 ∧
      ((derived.substituted [(2, y.formula)] (bench.derivative e 2)).evaluate.run t).1 =
        real 10 := by
  intro x y w wx two double e bench s t later renamed derived
  have hbench : bench.Attainable := by
    refine .perform (.perform (.perform productBench_attainable ?_) (a := .number) trivial) ?_
    · simp [Workbench.Admits, two, Shape.refs, Shape.children]
    · show ∀ r ∈ [wx, two], r ∈ [two, wx, w.formula, y.formula, x.formula, zero, one]
      simp
  have he : e ∈ bench.atHand := List.mem_cons_self
  have hy : y.formula ∈ bench.atHand := by
    show y.formula ∈ [e, two, wx, w.formula, y.formula, x.formula, zero, one]
    simp
  have hlater : later.Attainable := .freeze hbench he _ _
  have hrenamed : renamed.Attainable := .substitute hbench he (by simpa using hy)
  have hderived : derived.Attainable := .perform hbench he
  have hmade : Table.ofValues double.name double.values double.min double.step double.derivative =
      .ok double := by
    simp [Table.ofValues, double]
  have hnumeric : double.IsNumeric :=
    Table.isNumeric_of_ofValues (by simp [double]) (by simp [double]) hmade
  have hconstant : double.derivative = some (node 6 (.const (real 2))) := rfl
  have hsolverless : e.Solverless := solverless_constant hconstant
  obtain ⟨L, hL⟩ := hbench.accounted rate_calculus.handedOn
  have hknown := hL.known e he
  have hslopes : ∀ {u : Store PartialReal} {a b : ℝ}, u.Reachable → u.read 4 = real b →
      u.read 2 = real a → SlopesThroughout u e :=
    fun hu h4 h2 => slopesThroughout_constant hconstant hnumeric hknown hu h4 h2
  have hrate : ∀ {ρ : Valuation PartialReal} {a b : ℝ}, ρ 4 = real b → ρ 2 = real a →
      rate ρ (along 2) e = 2 * b :=
    fun h4 h2 => rate_constant (w := w) (x := x) hconstant (by decide) h4 h2
  have hs : s.Reachable := .write (.write .empty _ _) _ _
  have ht : t.Reachable := .write (.write (.write .empty _ _) _ _) _ _
  have hu : (t.write 2 (t.read 3)).Reachable := ht.write _ _
  have hs2 : s.read 2 = real 1 := by simp [s, Store.read_write, Valuation.set]
  have hs4 : s.read 4 = real 3 := by simp [s, Store.read_write, Valuation.set]
  have ht3 : t.read 3 = real 4 := by simp [t, Store.read_write, Valuation.set]
  have hreadU := Store.read_write t 2 (t.read 3)
  have hu2 : (t.write 2 (t.read 3)).read 2 = real 4 := by rw [hreadU]; exact ht3
  have hu4 : (t.write 2 (t.read 3)).read 4 = real 5 := by
    rw [hreadU]
    simp [t, Store.read_write, Valuation.set]
  have hfrozen : ((later.derivative (bench.frozen s.read [2] e) 2).evaluate.run t).1 =
      ((bench.derivative e 2).evaluate.run s).1 := by
    refine (rewritten_derivative hbench hbench he he hsolverless).1 (by simp)
      (fun d hd v hv => absurd hv (not_free_of_constant hconstant hd v)) hlater List.mem_cons_self
      ht hs ?_ (hslopes hs hs4 hs2)
    intro v
    by_cases hv : v = 2
    · simp [hv, hs2, t, Store.read_write, Valuation.set]
    · simp [hv]
  have hsubstituted :
      ((renamed.derivative (bench.substituted [(2, y.formula)] e) 3).evaluate.run t).1 =
        ((derived.substituted [(2, y.formula)] (bench.derivative e 2)).evaluate.run t).1 :=
    (rewritten_derivative hbench hbench he he hsolverless).2 (x := x) (y := y)
      (by simp [e, wx, productOf, Variable.formula, w, x, y, free_node, Shape.passParts,
        Shape.children])
      (fun d hd => not_free_of_constant hconstant hd 2) hy hrenamed List.mem_cons_self hderived
      List.mem_cons_self (List.mem_cons_of_mem _ hy) ht (by simp [y, ht3]) (hslopes hu hu4 hu2)
  have hslopedU := (hslopes hu hu4 hu2).sloped hu hknown hsolverless
  rw [hreadU] at hslopedU hu2 hu4
  have hvalue := substituted_derivative_run (x := x) (y := y) hbench he hsolverless
    hderived List.mem_cons_self (List.mem_cons_of_mem _ hy) ht (by simp [y, ht3]) hslopedU
  rw [hrate hu4 hu2] at hvalue
  norm_num at hvalue
  rw [hfrozen, hsubstituted, derivative_run hbench he hsolverless hs
    ((hslopes hs hs4 hs2).sloped hs hknown hsolverless), hrate hs4 hs2]
  exact ⟨by norm_num, hvalue, hvalue⟩

/-- A table comes with `w * x` for its derivative.  Frozen except for `x`, its function of `x`
is the node it was; the derivative taken of it follows `w` all the same.  With `y` for `x`, it
follows `x` and not `y`. -/
theorem rewriting_misses_supplied_derivative :
    let x : Variable := ⟨2, "x"⟩
    let y : Variable := ⟨3, "y"⟩
    let w : Variable := ⟨4, "w"⟩
    let wx := productOf 5 w x
    let squares : Table PartialReal (Formula PartialReal) :=
      { name := "squares", values := #[real 0, real 1, real 4, real 9], min := real 0,
        step := real 1, derivative := some wx, two_le_size := by decide }
    let e : Formula PartialReal := node 7 (.tabulated 6 squares x.formula)
    let bench := (productBench.perform .number).perform (.node e.shape)
    let s := (Store.empty.write 2 (real 1)).write 4 (real 2)
    let t := ((Store.empty.write 2 (real 1)).write 3 (real 5)).write 4 (real 3)
    let later := bench.place (e.freeze s.read [2])
    let renamed := bench.place (e.substitute [(2, y.formula)])
    let derived := bench.perform (.derivative e 2)
    bench.Attainable ∧ e ∈ bench.atHand ∧ e.Solverless ∧ SlopesThroughout s e ∧
      ((bench.derivative e 2).evaluate.run s).1 = real 2 ∧
      ((later.derivative (bench.frozen s.read [2] e) 2).evaluate.run t).1 = real 3 ∧
      ¬ e.Free 3 ∧ SlopesThroughout (t.write 2 (t.read 3)) e ∧
      ((renamed.derivative (bench.substituted [(2, y.formula)] e) 3).evaluate.run t).1 =
        real 3 ∧
      ((derived.substituted [(2, y.formula)] (bench.derivative e 2)).evaluate.run t).1 =
        real 15 := by
  intro x y w wx squares e bench s t later renamed derived
  have hbench : bench.Attainable := by
    refine .perform (.perform productBench_attainable (a := .number) trivial) ?_
    show ∀ r ∈ [x.formula, wx], r ∈ [wx, w.formula, y.formula, x.formula, zero, one]
    simp
  have he : e ∈ bench.atHand := List.mem_cons_self
  have hy : y.formula ∈ bench.atHand := by
    show y.formula ∈ [e, wx, w.formula, y.formula, x.formula, zero, one]
    simp
  have hmade : Table.ofValues squares.name squares.values squares.min squares.step
      squares.derivative = .ok squares := by
    simp [Table.ofValues, squares]
  have hnumeric : squares.IsNumeric :=
    Table.isNumeric_of_ofValues (by simp [squares]) (by simp [squares]) hmade
  have hsupplied : squares.derivative = some (productOf 5 w x) := rfl
  have hfrozen : bench.frozen s.read [2] e = e := by
    rw [Workbench.frozen, freeze_tabulated (by simp [x])]
    rfl
  have hsubstituted : bench.substituted [(2, y.formula)] e =
      node bench.next (.tabulated 6 squares y.formula) := by
    rw [Workbench.substituted, show (2 : NodeId) = x.id from rfl,
      substitute_tabulated (by simp [x, y])]
    rfl
  have hlater : later.Attainable := .freeze hbench he _ _
  have hrenamed : renamed.Attainable := .substitute hbench he (by simpa using hy)
  have hderived : derived.Attainable := .perform hbench he
  have hs : s.Reachable := .write (.write .empty _ _) _ _
  have ht : t.Reachable := .write (.write (.write .empty _ _) _ _) _ _
  have hu : (t.write 2 (t.read 3)).Reachable := ht.write _ _
  have hreadS : s.read 2 = real 1 ∧ s.read 4 = real 2 := by
    simp [s, Store.read_write, Valuation.set]
  have hreadT : t.read 2 = real 1 ∧ t.read 3 = real 5 ∧ t.read 4 = real 3 := by
    simp [t, Store.read_write, Valuation.set]
  obtain ⟨hs2, hs4⟩ := hreadS
  obtain ⟨ht2, ht3, ht4⟩ := hreadT
  have hset2 : Valuation.set t.read 2 (t.read 3) 2 = real 5 := ht3
  have hset4 : Valuation.set t.read 2 (t.read 3) 4 = real 3 := ht4
  obtain ⟨L, hL⟩ := hbench.accounted rate_calculus.handedOn
  have hslopesS : SlopesThroughout s e :=
    slopesThroughout_supplied hsupplied hnumeric (hL.known e he) hs hs2 hs2 hs4
  have hslopesU : SlopesThroughout (t.write 2 (t.read 3)) e := by
    refine slopesThroughout_supplied hsupplied hnumeric (hL.known e he) hu (a := 5) (b := 3)
      (c := 5) ?_ ?_ ?_ <;> rw [Store.read_write] <;> assumption
  have hslopedU := hslopesU.sloped hu (hL.known e he) (solverless_supplied hsupplied)
  rw [Store.read_write] at hslopedU
  have hrun := substituted_derivative_run (x := x) (y := y) hbench he
    (solverless_supplied hsupplied) hderived List.mem_cons_self (List.mem_cons_of_mem _ hy) ht
    (by simp [y, ht3]) hslopedU
  rw [rate_supplied (z := x) hsupplied hset2 hset4] at hrun
  refine ⟨hbench, he, solverless_supplied hsupplied, hslopesS, ?_, ?_, ?_, hslopesU, ?_, ?_⟩
  · exact (supplied_derivative_run hsupplied hnumeric hbench he hs hs2 hs2 hs4).trans (by norm_num)
  · rw [hfrozen]
    exact (supplied_derivative_run hsupplied hnumeric hlater (List.mem_cons_of_mem _ he) ht ht2 ht2
      ht4).trans (by norm_num)
  · simp [e, x, Variable.formula, free_node, Shape.passParts, Shape.children]
  · rw [hsubstituted]
    exact (supplied_derivative_run (z := y) hsupplied hnumeric hrenamed
      (hsubstituted ▸ List.mem_cons_self) ht ht3 ht2 ht4).trans (by norm_num)
  · norm_num at hrun
    exact hrun

end Formula

end FormulaGraph
