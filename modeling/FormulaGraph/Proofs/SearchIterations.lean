import FormulaGraph.Proofs.SessionDerivatives

/-!
# The iterations of a search

A search makes one step after the other until the objective settles or the budget is spent.
What a step and an evaluation keep, the search keeps (`GradientSearch.steps_keeps`), and a
search with a greater budget begins like one with a smaller (`GradientSearch.steps_add`):
where the smaller budget ends is where the search is after as many iterations.
-/

namespace FormulaGraph

variable {α : Type} [Scalar α]

theorem Formula.getValues_run {unknowns : List (Formula α)}
    (hvars : ∀ e ∈ unknowns, e.isVariable = true) (σ : Session α) :
    (unknowns.mapM Formula.getValue : Action α (List α)).run.run σ =
      (.ok (unknowns.map fun e => σ.store.read e.id), σ) := by
  induction unknowns with
  | nil => rfl
  | cons e es ih =>
      rw [List.mapM_cons, Action.run_bind_ok (e.getValue_run (hvars e List.mem_cons_self) σ),
        Action.run_bind_ok (ih fun e' he' => hvars e' (List.mem_cons_of_mem e he'))]
      rfl

namespace GradientSearch

variable (search : GradientSearch α) (objective : Formula α)

/-- One iteration: the search has settled, or goes on from the value reached. -/
theorem steps_run (hvars : ∀ e ∈ search.unknowns, e.isVariable = true) (left : Nat) (previous : α)
    (made : Nat) (σ : Session α) :
    (search.steps objective (left + 1) previous made).run.run σ =
      match (stepFormula objective search.unknowns search.limits search.size none).run.run σ with
      | (.error fault, σ) => (.error fault, σ)
      | (.ok outcome, σ) =>
        if outcome.moved then
          let value := (objective.evaluate.run σ.store).1
          let σ := { σ with store := (objective.evaluate.run σ.store).2 }
          if Scalar.less (Scalar.abs (previous - value)) search.tolerance then
            (.ok ⟨some (search.unknowns.map fun e => σ.store.read e.id), made + 1⟩, σ)
          else (search.steps objective left value (made + 1)).run.run σ
        else (.ok ⟨some (search.unknowns.map fun e => σ.store.read e.id), made + 1⟩, σ) := by
  rw [steps]
  cases hstep :
    (stepFormula objective search.unknowns search.limits search.size none).run.run σ with
  | mk answer σ' =>
  cases answer with
  | error fault => exact Action.run_bind_error hstep
  | ok outcome =>
      rw [Action.run_bind_ok hstep]
      cases hmoved : outcome.moved with
      | false =>
          simp only [hmoved, Bool.not_false, if_true, Bool.false_eq_true, if_false]
          rw [Action.run_bind_ok (Formula.getValues_run hvars σ')]
          rfl
      | true =>
          simp only [hmoved, Bool.not_true, if_true, Bool.false_eq_true, if_false]
          rw [Action.run_bind_ok (objective.evaluate_lifted_run σ')]
          split
          · rw [Action.run_bind_ok (Formula.getValues_run hvars _)]
            rfl
          · rfl

/-- What holds of a session and is kept by every step for the objective and every evaluation
of it, holds after any number of iterations, however the search ends. -/
theorem steps_keeps {P : Session α → Prop} (hvars : ∀ e ∈ search.unknowns, e.isVariable = true)
    (hstep : ∀ σ, P σ →
      P ((stepFormula objective search.unknowns search.limits search.size none).run.run σ).2)
    (hevaluate : ∀ σ : Session α, P σ → P { σ with store := (objective.evaluate.run σ.store).2 })
    (left : Nat) (previous : α) (made : Nat) (σ : Session α) (hσ : P σ) :
    P ((search.steps objective left previous made).run.run σ).2 := by
  induction left generalizing previous made σ with
  | zero => exact hσ
  | succ left ih =>
      have hafter := hstep σ hσ
      rw [steps_run _ _ hvars]
      cases hrun :
        (stepFormula objective search.unknowns search.limits search.size none).run.run σ with
      | mk answer σ' =>
      rw [hrun] at hafter
      cases answer with
      | error fault => exact hafter
      | ok outcome =>
          dsimp only
          split
          · split
            · exact hevaluate σ' hafter
            · exact ih _ _ _ (hevaluate σ' hafter)
          · exact hafter

/-- A search goes on from where it is after `k` iterations, unless it ends before. -/
theorem steps_add (hvars : ∀ e ∈ search.unknowns, e.isVariable = true) (k m : Nat) (previous : α)
    (made : Nat) (σ : Session α) :
    match (search.steps objective k previous made).run.run σ with
    | (.ok ⟨none, made'⟩, σ') =>
      ∃ last, (search.steps objective (k + m) previous made).run.run σ =
        (search.steps objective m last made').run.run σ'
    | ended => (search.steps objective (k + m) previous made).run.run σ = ended := by
  induction k generalizing previous made σ with
  | zero =>
      rw [Nat.zero_add]
      exact ⟨previous, rfl⟩
  | succ k ih =>
      rw [Nat.succ_add, steps_run _ _ hvars, steps_run _ _ hvars]
      cases (stepFormula objective search.unknowns search.limits search.size none).run.run σ with
      | mk answer σ' =>
      cases answer with
      | error fault => rfl
      | ok outcome =>
          dsimp only
          by_cases hmoved : outcome.moved = true
          · simp only [if_pos hmoved]
            by_cases hsettled : Scalar.less (Scalar.abs (previous -
                (objective.evaluate.run σ'.store).1)) search.tolerance = true
            · simp only [if_pos hsettled]
            · simp only [if_neg hsettled]
              exact ih _ _ _
          · simp only [if_neg hmoved]

/-- The session a search is in after so many iterations, or when it ended, if that was
earlier. -/
def sessionAfter (iterations : Nat) (σ : Session α) : Session α :=
  ((search.steps objective iterations (objective.evaluate.run σ.store).1 0).run.run
    { σ with store := (objective.evaluate.run σ.store).2 }).2

/-- A run ends in the session after as many iterations as it may make. -/
theorem run_session {search : GradientSearch α} {objective : Formula α}
    (hobjective : search.objective = some objective) (σ : Session α) :
    (search.run.run.run σ).2 = search.sessionAfter objective search.maxIterations σ := by
  rw [run, hobjective]
  dsimp only
  rw [Action.run_bind_ok (objective.evaluate_lifted_run σ), sessionAfter]
  cases hsteps : (search.steps objective search.maxIterations (objective.evaluate.run σ.store).1
      0).run.run { σ with store := (objective.evaluate.run σ.store).2 } with
  | mk answer σ' =>
  cases answer with
  | error fault => rw [Action.run_bind_error hsteps]
  | ok outcome =>
      rw [Action.run_bind_ok hsteps]
      rfl

/-- Every session a run is in after some iterations is one from which it goes on, or the one
in which it ends. -/
theorem sessionAfter_add (hvars : ∀ e ∈ search.unknowns, e.isVariable = true) (k m : Nat)
    (σ : Session α) :
    search.sessionAfter objective (k + m) σ = search.sessionAfter objective k σ ∨
      ∃ last made, search.sessionAfter objective (k + m) σ =
        ((search.steps objective m last made).run.run (search.sessionAfter objective k σ)).2 := by
  have hsteps := search.steps_add objective hvars k m (objective.evaluate.run σ.store).1 0
    { σ with store := (objective.evaluate.run σ.store).2 }
  unfold sessionAfter
  split at hsteps
  · next made σ' hrun =>
      obtain ⟨last, hcontinued⟩ := hsteps
      rw [hrun, hcontinued]
      exact .inr ⟨last, made, rfl⟩
  · exact .inl (congrArg Prod.snd hsteps)

end GradientSearch

end FormulaGraph
