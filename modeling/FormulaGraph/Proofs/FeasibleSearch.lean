import FormulaGraph.Proofs.FeasibleSteps
import FormulaGraph.Proofs.SearchIterations

/-!
# A search stays within its limits

Evaluating formulas without solvers writes no variable, and the derivatives of such a
formula are without solvers as well.  So a step for it stays in the box
(`Step.stepFormula_boxed`), and the whole search does, one iteration after the other.
-/

namespace FormulaGraph

open PartialReal Formula

section Criterion

variable {α : Type} [Scalar α]

/-- Asking for a criterion without solvers writes no variable. -/
theorem formulaCriterion_read {objective : Formula α} {ds : List (Formula α)}
    (hobjective : objective.SolverFree) (hds : ∀ d ∈ ds, d.SolverFree)
    (first : Option Generation) (round : Nat) (s : Session α) :
    ((formulaCriterion objective ds first round).run.run s).2.store.read = s.store.read := by
  have hpass : (criterionPass first round s.store).2.read = s.store.read := by
    unfold criterionPass
    split <;> rfl
  rw [formulaCriterion_run]
  generalize criterionPass first round s.store = pass at hpass ⊢
  calc
    _ = ((objective.evaluateIn pass.1).run pass.2).2.read :=
      (FillsOnly.passProperty.evaluateAllIn (fun d hd => evaluateIn_fillsOnly (hds d hd)) _).read
    _ = pass.2.read := (evaluateIn_fillsOnly hobjective _).read
    _ = s.store.read := hpass

end Criterion

variable {unknowns : List (Formula PartialReal)} {limits : List (Limit PartialReal)}
  {size : StepSize PartialReal} {objective : Formula PartialReal}
  {before : Valuation PartialReal}

theorem Step.stepFormula_boxed (hsize : size.Positive)
    (hvars : ∀ e ∈ unknowns, e.isVariable = true) (hnodup : (unknowns.map Formula.id).Nodup)
    (hsolverless : objective.Solverless) {s : Session PartialReal} (hoffers : s.Offers objective)
    (first : Option Generation) (hbox : Boxed unknowns limits before s.store.read) :
    let after := ((stepFormula objective unknowns limits size first).run.run s).2
    Boxed unknowns limits before after.store.read ∧ after.Offers objective := by
  obtain ⟨ds, s', -, hstore, hgradient, -, hcached, hkept⟩ :=
    stepFormula_run hoffers hvars limits size first
  have hfree : ∀ d ∈ ds, d.SolverFree := fun d hd =>
    (hgradient.inherits d hd _ solverless_inherited hsolverless).everywhere
  refine ⟨?_, hkept⟩
  rw [hcached]
  refine rounds_boxed hsize hvars hnodup ?_ _ _ _ s' (hstore ▸ hbox)
  exact fun n s => formulaCriterion_read hsolverless.everywhere hfree first n s

/-- Evaluating the objective in a pass of its own leaves the box alone. -/
theorem read_evaluate (hfree : objective.SolverFree) (s : Store PartialReal) :
    (objective.evaluate.run s).2.read = s.read :=
  (evaluateIn_fillsOnly hfree (Evaluation.nextGeneration.run s).2).read

/-- **The search never leaves the box.**  From values within the limits on the unknowns,
every step keeps to all these limits and writes no other variable, whatever it answers: a
step for any criterion that writes no variable, a step for a formula without solvers, and
every iteration of a search for one. -/
theorem search_boxed (hvars : ∀ e ∈ unknowns, e.isVariable = true)
    (hnodup : (unknowns.map Formula.id).Nodup) (hsize : size.Positive)
    (σ : Session PartialReal) (hfeasible : Feasible unknowns limits σ.store.read) :
    (∀ criterion : Nat → Action PartialReal (Criterion PartialReal),
      (∀ n s, ((criterion n).run.run s).2.store.read = s.store.read) →
      Boxed unknowns limits σ.store.read
        ((step criterion unknowns limits size).run.run σ).2.store.read) ∧
    ∀ objective : Formula PartialReal, σ.Offers objective → objective.Solverless →
      (∀ first, Boxed unknowns limits σ.store.read
        ((stepFormula objective unknowns limits size first).run.run σ).2.store.read) ∧
      ∀ settings : GradientSearch PartialReal,
        let search := { settings with objective := some objective, unknowns, limits, size }
        (search.run.run.run σ).2 = search.sessionAfter objective search.maxIterations σ ∧
        (∀ k, Boxed unknowns limits σ.store.read (search.sessionAfter objective k σ).store.read) ∧
        ∀ k m, search.sessionAfter objective (k + m) σ = search.sessionAfter objective k σ ∨
          ∃ last made, search.sessionAfter objective (k + m) σ =
            ((search.steps objective m last made).run.run
              (search.sessionAfter objective k σ)).2 := by
  have hbox : Boxed unknowns limits σ.store.read σ.store.read := ⟨hfeasible, fun _ _ => rfl⟩
  refine ⟨fun criterion hcriterion =>
    Step.rounds_boxed hsize hvars hnodup hcriterion _ _ _ σ hbox, ?_⟩
  intro objective hoffers hsolverless
  refine ⟨fun first =>
    (Step.stepFormula_boxed hsize hvars hnodup hsolverless hoffers first hbox).1, ?_⟩
  intro settings search
  have hevaluate : ∀ s : Session PartialReal,
      Boxed unknowns limits σ.store.read s.store.read ∧ s.Offers objective →
      Boxed unknowns limits σ.store.read (objective.evaluate.run s.store).2.read ∧
        Session.Offers { s with store := (objective.evaluate.run s.store).2 } objective := by
    rintro s ⟨hs, hoffers⟩
    exact ⟨by rwa [read_evaluate hsolverless.everywhere], hoffers⟩
  refine ⟨GradientSearch.run_session rfl σ, fun k => ?_,
    fun k m => search.sessionAfter_add objective hvars k m σ⟩
  exact (search.steps_keeps objective
    (P := fun s => Boxed unknowns limits σ.store.read s.store.read ∧ s.Offers objective) hvars
    (fun s hs => Step.stepFormula_boxed hsize hvars hnodup hsolverless hs.2 none hs.1)
    hevaluate k _ 0 _ (hevaluate σ ⟨hbox, hoffers⟩)).1

/-- A variable that starts on its lower limit and has an upper one as well, to be made
smaller. -/
theorem search_of_variable_boxed :
    let x : Formula PartialReal := .node 2 (.var "x")
    let limits : List (Limit PartialReal) := [⟨⟨2, "x"⟩, 0, .below⟩, ⟨⟨2, "x"⟩, 1, .above⟩]
    let size : StepSize PartialReal := ⟨1, 0⟩
    let σ : Session PartialReal := ⟨3, .empty, ∅, .empty⟩
    (∀ e ∈ [x], e.isVariable = true) ∧ ([x].map Formula.id).Nodup ∧ size.Positive ∧
      Feasible [x] limits σ.store.read ∧ σ.Offers x ∧ x.Solverless ∧
      Boxed [x] limits σ.store.read
        ((stepFormula x [x] limits size none).run.run σ).2.store.read := by
  intro x limits size σ
  have hvars : ∀ e ∈ [x], e.isVariable = true := by
    intro e he
    rw [List.mem_singleton.mp he]
    rfl
  have hnodup : ([x].map Formula.id).Nodup := List.nodup_singleton _
  have hsize : size.Positive :=
    ⟨(less_real 0 1).mpr one_pos, (atMost_real 0 0).mpr le_rfl⟩
  have hread : ∀ v, σ.store.read v = real 0 := fun v => by simp [σ, Store.read, Store.empty]
  have hfeasible : Feasible [x] limits σ.store.read := by
    intro l hl _
    rw [hread]
    rcases List.mem_cons.mp hl with rfl | hl
    · exact (Limit.exceeded_real (a := 0) rfl).mpr (by simp [Side.factor])
    · rw [List.mem_singleton.mp hl]
      exact (Limit.exceeded_real (a := 1) rfl).mpr (by simp [Side.factor])
  have hoffers : σ.Offers x :=
    ⟨[x, zero, one], Workbench.Reachable.start.perform (a := .node (.var "x"))
      (by simp [Workbench.Admits, Shape.refs, Shape.children]), List.mem_cons_self⟩
  have hsolverless : x.Solverless := by simp [x, throughout_node, Shape.refs, Shape.children]
  exact ⟨hvars, hnodup, hsize, hfeasible, hoffers, hsolverless,
    ((search_boxed hvars hnodup hsize σ hfeasible).2 x hoffers hsolverless).1 none⟩

end FormulaGraph
