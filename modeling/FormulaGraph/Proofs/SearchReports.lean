import FormulaGraph.Proofs.SearchIterations
import FormulaGraph.Proofs.StepBudget

/-!
# What a search reports

A search that went on for ever would run through a course of sessions: the objective is evaluated,
a step is made, the objective is evaluated again, and so on (`GradientSearch.course`).  A run
follows this course up to the first iteration in which the step is not made or the objective
changes by less than the tolerance, if its budget allows for that iteration, and to the end of its
budget otherwise (`GradientSearch.run_ends`).  No run fails whose unknowns are variables.

A search keeps a result.  Requests of all kinds may be made of it, with anything done to the
session in between (`GradientSearch.History`).  After a run by `solve` the result is what the run
answered.  A run by `run` that answers nothing leaves the result of an earlier one in place
(`result_of_earlier_run`), so that the result is that of the last run that had one, unless a
`solve` without one came later (`search_reports`).
-/

namespace FormulaGraph

variable {α : Type} [Scalar α]

/-! ## Steps for a formula always answer -/

namespace Formula

theorem length_evaluateAllIn (g : Generation) (es : List (Formula α)) (s : Store α) :
    ((evaluateAllIn g es).run s).1.length = es.length := by
  induction es generalizing s with
  | nil => rfl
  | cons e es ih => exact congrArg Nat.succ (ih _)

theorem gradient_answers (e : Formula α) {xs : List (Formula α)}
    (hxs : ∀ x ∈ xs, x.isVariable = true) (s : Session α) :
    ∃ ds s', (e.gradient xs).run.run s = (.ok ds, s') ∧ ds.length = xs.length := by
  induction xs generalizing s with
  | nil => exact ⟨[], s, rfl, rfl⟩
  | cons x xs ih =>
      obtain ⟨n, r, hrun, -⟩ := derivativeBy_run (e := e) (s := s) (hxs x List.mem_cons_self) []
      obtain ⟨ds, s', hrest, hlength⟩ := ih (fun y hy => hxs y (List.mem_cons_of_mem x hy))
        { s with nextId := n, recollection := r }
      refine ⟨(s.bench []).derivative e x.id :: ds, s', ?_, congrArg Nat.succ hlength⟩
      rw [gradient, List.mapM_cons, Action.run_bind_ok hrun]
      exact Action.run_bind_ok hrest

end Formula

/-- The criterion given by a formula answers with as many numbers as it has derivatives. -/
theorem formulaCriterion_answers (objective : Formula α) (ds : List (Formula α))
    (first : Option Generation) :
    Step.Answers (formulaCriterion objective ds first) ds.length := by
  intro round s
  rw [formulaCriterion_run]
  exact ⟨_, _, rfl, Formula.length_evaluateAllIn _ ds _⟩

theorem stepFormula_answers (objective : Formula α) {unknowns : List (Formula α)}
    (hvars : ∀ e ∈ unknowns, e.isVariable = true) (limits : List (Limit α)) (size : StepSize α)
    (first : Option Generation) (s : Session α) :
    ∃ outcome s', (stepFormula objective unknowns limits size first).run.run s =
      (.ok outcome, s') := by
  obtain ⟨ds, s', hgradient, hlength⟩ := objective.gradient_answers hvars s
  have hanswers := formulaCriterion_answers objective ds first
  rw [hlength] at hanswers
  obtain ⟨outcome, after, hrun, -⟩ := Step.step_returns hvars hanswers limits size s'
  refine ⟨outcome, { after with
    recollection := { after.recollection with held := s.recollection.held } }, ?_⟩
  rw [stepFormula, Session.briefly_run, Action.run_bind_ok hgradient, hrun]

/-! ## The course of a search -/

namespace GradientSearch

section Course

variable (search : GradientSearch α) (objective : Formula α)

/-- The value of the objective, and the session after it was evaluated. -/
def evaluated (σ : Session α) : α × Session α :=
  ((objective.evaluate.run σ.store).1, { σ with store := (objective.evaluate.run σ.store).2 })

/-- What a step answers, and the session after it. -/
def stepped (σ : Session α) : Except (Fault α) StepOutcome × Session α :=
  (stepFormula objective search.unknowns search.limits search.size none).run.run σ

/-- The values of the objective before each iteration, and the sessions in which the iterations
begin, if the search never ended. -/
def course (σ : Session α) : ℕ → α × Session α
  | 0 => evaluated objective σ
  | k + 1 => evaluated objective (search.stepped objective (course σ k).2).2

/-- The step of an iteration is not made. -/
def Fails (σ : Session α) (k : ℕ) : Prop :=
  ∃ rounds, (search.stepped objective (search.course objective σ k).2).1 = .ok ⟨false, rounds⟩

/-- The step of an iteration is made, and the objective changes by less than the tolerance. -/
def Settles (σ : Session α) (k : ℕ) : Prop :=
  (∃ rounds, (search.stepped objective (search.course objective σ k).2).1 = .ok ⟨true, rounds⟩) ∧
    Scalar.less (Scalar.abs ((search.course objective σ k).1 -
      (search.course objective σ (k + 1)).1)) search.tolerance = true

/-- The iteration is the first in which the search has reason to end. -/
def StopsAt (σ : Session α) (k : ℕ) : Prop :=
  (search.Fails objective σ k ∨ search.Settles objective σ k) ∧
    ∀ j < k, ¬ search.Fails objective σ j ∧ ¬ search.Settles objective σ j

/-- The values of the unknowns. -/
def found (σ : Session α) : List α := search.unknowns.map fun e => σ.store.read e.id

/-- A run begun in a session ends: what it answers, and the session it leaves. -/
inductive Ends (σ : Session α) : Run α → Session α → Prop
  | failed {k : ℕ} (hk : k < search.maxIterations) (hfails : search.Fails objective σ k)
      (hfirst : search.StopsAt objective σ k) {after : Session α}
      (hafter : after = (search.stepped objective (search.course objective σ k).2).2) :
      Ends σ ⟨some (search.found after), k + 1⟩ after
  | settled {k : ℕ} (hk : k < search.maxIterations) (hsettles : search.Settles objective σ k)
      (hfirst : search.StopsAt objective σ k) {after : Session α}
      (hafter : after = (search.course objective σ (k + 1)).2) :
      Ends σ ⟨some (search.found after), k + 1⟩ after
  | spent (hgoes : ∀ k < search.maxIterations, ¬ search.StopsAt objective σ k) :
      Ends σ ⟨none, search.maxIterations⟩ (search.course objective σ search.maxIterations).2

end Course

variable {search : GradientSearch α} {objective : Formula α} {σ σ' : Session α} {r : Run α}

theorem Ends.iterations_le (h : search.Ends objective σ r σ') :
    r.iterations ≤ search.maxIterations := by
  cases h with
  | failed hk => exact hk
  | settled hk => exact hk
  | spent => exact le_rfl

/-- A run has a result exactly if the search stops within the budget. -/
theorem Ends.isSome_iff (h : search.Ends objective σ r σ') :
    r.result.isSome = true ↔ ∃ k < search.maxIterations, search.StopsAt objective σ k := by
  cases h with
  | failed hk _ hfirst _ => exact ⟨fun _ => ⟨_, hk, hfirst⟩, fun _ => rfl⟩
  | settled hk _ hfirst _ => exact ⟨fun _ => ⟨_, hk, hfirst⟩, fun _ => rfl⟩
  | spent hgoes =>
      refine ⟨nofun, ?_⟩
      rintro ⟨k, hk, hstops⟩
      exact absurd hstops (hgoes k hk)

/-- The result is where the unknowns are. -/
theorem Ends.eq_found (h : search.Ends objective σ r σ') {values : List α}
    (hvalues : r.result = some values) : values = search.found σ' := by
  cases h with
  | failed => exact (Option.some.inj hvalues).symm
  | settled => exact (Option.some.inj hvalues).symm
  | spent => cases hvalues

/-- From every iteration it comes to, a run goes on to its end. -/
theorem steps_ends (hvars : ∀ e ∈ search.unknowns, e.isVariable = true) {left made : ℕ}
    (hbudget : made + left = search.maxIterations)
    (hgone : ∀ j < made, ¬ search.Fails objective σ j ∧ ¬ search.Settles objective σ j) :
    ∃ r σ', (search.steps objective left (search.course objective σ made).1 made).run.run
        (search.course objective σ made).2 = (.ok r, σ') ∧ search.Ends objective σ r σ' := by
  induction left generalizing made with
  | zero =>
      obtain rfl : made = search.maxIterations := hbudget
      refine ⟨_, _, rfl, .spent fun k hk hstops => ?_⟩
      obtain ⟨hfails, hsettles⟩ := hgone k hk
      exact hstops.1.elim hfails hsettles
  | succ left ih =>
      have hmade : made < search.maxIterations := by omega
      obtain ⟨⟨moved, rounds⟩, after, hstep⟩ := stepFormula_answers objective hvars search.limits
        search.size none (search.course objective σ made).2
      have hstepped : search.stepped objective (search.course objective σ made).2 =
        (.ok ⟨moved, rounds⟩, after) := hstep
      have hnext : search.course objective σ (made + 1) = evaluated objective after := by
        rw [course, hstepped]
      rw [steps_run _ _ hvars, hstep]
      cases moved with
      | false =>
          have hfails : search.Fails objective σ made := ⟨rounds, by rw [hstepped]⟩
          exact ⟨_, _, rfl, .failed hmade hfails ⟨.inl hfails, hgone⟩ (by rw [hstepped])⟩
      | true =>
          dsimp only
          rw [if_pos rfl]
          split
          · next hless =>
              have hsettles : search.Settles objective σ made :=
                ⟨⟨rounds, by rw [hstepped]⟩, by rw [hnext]; exact hless⟩
              have hends := Ends.settled hmade hsettles ⟨.inr hsettles, hgone⟩ rfl
              rw [hnext] at hends
              exact ⟨_, _, rfl, hends⟩
          · next hless =>
              have hgone' : ∀ j < made + 1,
                  ¬ search.Fails objective σ j ∧ ¬ search.Settles objective σ j := by
                intro j hj
                rcases Nat.lt_or_eq_of_le (Nat.le_of_lt_succ hj) with hlt | rfl
                · exact hgone j hlt
                · constructor
                  · rintro ⟨rounds', hfails⟩
                    rw [hstepped] at hfails
                    cases hfails
                  · intro hsettles
                    have hchange := hsettles.2
                    rw [hnext] at hchange
                    exact hless hchange
              have hrest := @ih (made + 1) (by omega) hgone'
              rw [hnext] at hrest
              exact hrest

/-- **A run comes to its end**, and keeps its result if it has one, the earlier one otherwise. -/
theorem run_ends (hobjective : search.objective = some objective)
    (hvars : ∀ e ∈ search.unknowns, e.isVariable = true) (σ : Session α) :
    ∃ r σ', search.run.run.run σ = (.ok (r, { search with
        iterations := r.iterations
        result := r.result <|> search.result }), σ') ∧ search.Ends objective σ r σ' := by
  have hgone : ∀ j < 0, ¬ search.Fails objective σ j ∧ ¬ search.Settles objective σ j :=
    fun j hj => absurd hj (Nat.not_lt_zero j)
  obtain ⟨r, σ', hrun, hends⟩ := steps_ends hvars (Nat.zero_add _) hgone
  refine ⟨r, σ', ?_, hends⟩
  rw [run, hobjective]
  dsimp only
  rw [Action.run_bind_ok (objective.evaluate_lifted_run σ)]
  exact Action.run_bind_ok hrun

/-- With reports asked for at a level that is known, a run comes to its end as well; its result
replaces the earlier one. -/
theorem solve_ends (hobjective : search.objective = some objective)
    (hvars : ∀ e ∈ search.unknowns, e.isVariable = true)
    (hlevel : ∃ level, LogLevel.parse (α := α) search.logLevel = .ok level) (σ : Session α) :
    ∃ r σ', search.solve.run.run σ = (.ok (r, { search with
        iterations := r.iterations
        result := r.result }), σ') ∧ search.Ends objective σ r σ' := by
  obtain ⟨level, hlevel⟩ := hlevel
  obtain ⟨r, σ', hrun, hends⟩ := run_ends hobjective hvars σ
  refine ⟨r, σ', ?_, hends⟩
  rw [solve, hlevel]
  refine (Action.run_bind_ok (b := level) rfl).trans ?_
  exact Action.run_bind_ok hrun

theorem run_without_objective (h : search.objective = none) (σ : Session α) :
    search.run.run.run σ = (.error .objectiveMissing, σ) := by
  rw [run, h]
  rfl

/-! ## Requests -/

end GradientSearch

/-- What can be asked of a search. -/
inductive SearchRequest (α : Type) where
  | problem (objective : Formula α) (unknowns : List (Formula α)) (limits : List (Limit α))
  | settings (c : SearchSettings α)
  | run
  | solve

namespace GradientSearch

/-- What a request came to: the run that was made, if one was asked for, or why the request was
refused. -/
abbrev Answer (α : Type) := Except (Fault α) (Option (Run α))

/-- Does what is asked for in a session.  A search that is refused stays as it was, settings
changed before the refusal apart. -/
def perform (search : GradientSearch α) (σ : Session α) :
    SearchRequest α → Answer α × GradientSearch α × Session α
  | .problem objective unknowns limits =>
    match search.withProblem objective unknowns limits with
    | .ok search => (.ok none, search, σ)
    | .error fault => (.error fault, search, σ)
  | .settings c =>
    match (configure c).run.run search with
    | (.ok _, search) => (.ok none, search, σ)
    | (.error fault, search) => (.error fault, search, σ)
  | .run => made (search.run.run.run σ)
  | .solve => made (search.solve.run.run σ)
where
  made : Except (Fault α) (Run α × GradientSearch α) × Session α →
      Answer α × GradientSearch α × Session α
    | (.ok (r, search), σ) => (.ok (some r), search, σ)
    | (.error fault, σ) => (.error fault, search, σ)

/-- The requests made of a search since it was new, each with its answer.  Every request finds
the session as it happens to be. -/
inductive History (defaults : SearchDefaults α) :
    List (SearchRequest α × Answer α) → GradientSearch α → Prop
  | start : History defaults [] (start defaults)
  | request {log : List (SearchRequest α × Answer α)} {search : GradientSearch α}
      (h : History defaults log search) (q : SearchRequest α) (σ : Session α) :
      History defaults (log ++ [(q, (search.perform σ q).1)]) (search.perform σ q).2.1

/-- The result after one more request. -/
def resultAfter (standing : Option (List α)) : SearchRequest α × Answer α → Option (List α)
  | (.run, .ok (some r)) => r.result <|> standing
  | (.solve, .ok (some r)) => r.result
  | _ => standing

/-- What holds of every search, whatever was asked of it: which result it keeps, and that it is
ready for a run as soon as it has an objective. -/
structure Standing (search : GradientSearch α) (result : Option (List α)) : Prop where
  result_eq : search.result = result
  unknowns : ∀ e ∈ search.unknowns, e.isVariable = true
  level : ∃ level, LogLevel.parse (α := α) search.logLevel = .ok level

/-! ## Settings -/

section Settings

variable {P : GradientSearch α → Prop} {β γ : Type}

omit [Scalar α] in
/-- A change keeps what setting any admitted value keeps, also if it is refused. -/
theorem change_keeps {given : Option β} {admitted : β → Bool} {fault : Fault α}
    {set : GradientSearch α → β → GradientSearch α}
    (hset : ∀ search v, admitted v = true → P search → P (set search v))
    (search : GradientSearch α) (h : P search) :
    P ((change given admitted fault set).run.run search).2 := by
  cases given with
  | none => exact h
  | some v =>
      rw [change]
      split
      · next hadmitted => exact hset search v hadmitted h
      · exact h

omit [Scalar α] in
theorem Change.bind_keeps {x : Change α β} {f : β → Change α γ}
    (hx : ∀ search, P search → P (x.run.run search).2)
    (hf : ∀ b search, P search → P ((f b).run.run search).2)
    (search : GradientSearch α) (h : P search) : P ((x >>= f).run.run search).2 := by
  have hfirst := hx search h
  rw [ExceptT.run_bind, StateT.run_bind]
  cases hrun : x.run.run search with
  | mk answer after =>
  rw [hrun] at hfirst
  cases answer with
  | error fault => exact hfirst
  | ok b => exact hf b after hfirst

/-- Settings are not the unknowns and not the result, and a level is set only if it is known. -/
theorem Standing.configured {result : Option (List α)} (h : Standing search result)
    (c : SearchSettings α) : Standing ((configure c).run.run search).2 result := by
  refine Change.bind_keeps (P := (Standing · result)) (change_keeps ?_) (fun _ =>
    Change.bind_keeps (change_keeps ?_) fun _ => Change.bind_keeps (change_keeps ?_) fun _ =>
      Change.bind_keeps (change_keeps ?_) fun _ => ?_) search h
  · intro search name hname h
    obtain ⟨level, hlevel⟩ := Option.isSome_iff_exists.mp hname
    exact ⟨h.result_eq, h.unknowns, level, by rw [LogLevel.parse, hlevel]⟩
  · exact fun _ _ _ h => ⟨h.result_eq, h.unknowns, h.level⟩
  · exact fun _ _ _ h => ⟨h.result_eq, h.unknowns, h.level⟩
  · exact fun _ _ _ h => ⟨h.result_eq, h.unknowns, h.level⟩
  · exact fun _ h => ⟨h.result_eq, h.unknowns, h.level⟩

end Settings

/-! ## Runs -/

omit [Scalar α] in
theorem Standing.started (defaults : SearchDefaults α) :
    Standing (start defaults) (none : Option (List α)) :=
  ⟨rfl, by simp [start], some .info, rfl⟩

/-- A run that was made of a search for an objective: how it ended, and what is kept of it. -/
structure Reported (search : GradientSearch α) (objective : Formula α) (σ : Session α)
    (q : SearchRequest α) (r : Run α) (after : GradientSearch α) (σ' : Session α) : Prop where
  ends : search.Ends objective σ r σ'
  iterations : after.iterations = r.iterations
  unknowns : after.unknowns = search.unknowns
  level : after.logLevel = search.logLevel
  result : after.result = resultAfter search.result (q, .ok (some r))

/-- A search that stands answers every run, unless it has no objective. -/
theorem Standing.performs {result : Option (List α)} (h : Standing search result) (σ : Session α)
    {q : SearchRequest α} (hq : q = .run ∨ q = .solve) :
    (search.objective = none → search.perform σ q = (.error .objectiveMissing, search, σ)) ∧
      ∀ objective, search.objective = some objective → ∃ r,
        (search.perform σ q).1 = .ok (some r) ∧
          Reported search objective σ q r (search.perform σ q).2.1 (search.perform σ q).2.2 := by
  rcases hq with rfl | rfl
  · constructor
    · intro hnone
      rw [perform, run_without_objective hnone]
      rfl
    · intro objective hobjective
      obtain ⟨r, σ', hrun, hends⟩ := run_ends hobjective h.unknowns σ
      rw [perform, hrun]
      exact ⟨r, rfl, hends, rfl, rfl, rfl, rfl⟩
  · constructor
    · intro hnone
      obtain ⟨level, hlevel⟩ := h.level
      have hsolve : search.solve.run.run σ = (.error .objectiveMissing, σ) := by
        rw [solve, hlevel]
        refine (Action.run_bind_ok (b := level) rfl).trans ?_
        exact Action.run_bind_error (run_without_objective hnone σ)
      rw [perform, hsolve]
      rfl
    · intro objective hobjective
      obtain ⟨r, σ', hrun, hends⟩ := solve_ends hobjective h.unknowns h.level σ
      rw [perform, hrun]
      exact ⟨r, rfl, hends, rfl, rfl, rfl, rfl⟩

/-- After any request the search stands. -/
theorem Standing.request {result : Option (List α)} (h : Standing search result) (σ : Session α)
    (q : SearchRequest α) :
    Standing (search.perform σ q).2.1 (resultAfter result (q, (search.perform σ q).1)) := by
  have hrun : q = .run ∨ q = .solve →
      Standing (search.perform σ q).2.1 (resultAfter result (q, (search.perform σ q).1)) := by
    intro hq
    obtain ⟨hnone, hsome⟩ := h.performs σ hq
    cases hobjective : search.objective with
    | none =>
        rw [hnone hobjective]
        rcases hq with rfl | rfl <;> exact h
    | some objective =>
        obtain ⟨r, hanswer, hreported⟩ := hsome objective hobjective
        rw [hanswer]
        refine ⟨?_, ?_, ?_⟩
        · rw [hreported.result, h.result_eq]
        · rw [hreported.unknowns]
          exact h.unknowns
        · rw [hreported.level]
          exact h.level
  cases q with
  | problem objective unknowns limits =>
      rw [perform, withProblem]
      split
      · next hsearch =>
          split at hsearch
          · next hvars =>
              cases hsearch
              exact ⟨h.result_eq, by simpa using hvars, h.level⟩
          · cases hsearch
      · exact h
  | settings c =>
      have hconfigured := h.configured c
      rw [perform]
      split
      · next hrun =>
          rw [hrun] at hconfigured
          exact hconfigured
      · next hrun =>
          rw [hrun] at hconfigured
          exact hconfigured
  | run => exact hrun (.inl rfl)
  | solve => exact hrun (.inr rfl)

theorem History.standing {defaults : SearchDefaults α}
    {log : List (SearchRequest α × Answer α)} (h : History defaults log search) :
    Standing search (log.foldl resultAfter none) := by
  induction h with
  | start => exact .started defaults
  | request h q σ ih =>
      rw [List.foldl_append]
      exact ih.request σ q

/-- **A search reports the run it made.**  Whatever was asked of a search, a run is refused only
if there is no objective.  Otherwise it answers after at most as many iterations as its budget
allows; it has a result exactly if a step is not made or the objective changes by less than the
tolerance within the budget, and then the result is where the unknowns are.  The search keeps what
`solve` answers, and what `run` answers if that is a result; after a `run` without one it keeps
the result it had. -/
theorem search_reports {defaults : SearchDefaults α} {log : List (SearchRequest α × Answer α)}
    (h : History defaults log search) :
    search.result = log.foldl resultAfter none ∧
    ∀ (σ : Session α) (q : SearchRequest α), q = .run ∨ q = .solve →
      let done := search.perform σ q
      (search.objective = none → done.1 = .error .objectiveMissing ∧ done.2.1 = search) ∧
      ∀ objective, search.objective = some objective → ∃ r,
        done.1 = .ok (some r) ∧ search.Ends objective σ r done.2.2 ∧
        r.iterations ≤ search.maxIterations ∧ done.2.1.iterations = r.iterations ∧
        (r.result.isSome = true ↔ ∃ k < search.maxIterations, search.StopsAt objective σ k) ∧
        (∀ values, r.result = some values →
          values = search.unknowns.map fun e => done.2.2.store.read e.id) ∧
        (q = .solve ∨ r.result.isSome = true → done.2.1.result = r.result) ∧
        (q = .run → r.result = none → done.2.1.result = search.result) := by
  have hstanding := h.standing
  refine ⟨hstanding.result_eq, fun σ q hq => ?_⟩
  obtain ⟨hnone, hsome⟩ := hstanding.performs σ hq
  intro done
  refine ⟨fun hobjective => ?_, fun objective hobjective => ?_⟩
  · rw [show done = _ from hnone hobjective]
    exact ⟨rfl, rfl⟩
  obtain ⟨r, hanswer, hreported⟩ := hsome objective hobjective
  have hends := hreported.ends
  have hresult : done.2.1.result = _ := hreported.result
  refine ⟨r, hanswer, hends, hends.iterations_le, hreported.iterations, hends.isSome_iff,
    fun values hvalues => hends.eq_found hvalues, ?_, ?_⟩
  · intro hkept
    rw [hresult]
    rcases hq with rfl | rfl
    · obtain ⟨values, hvalues⟩ := Option.isSome_iff_exists.mp (hkept.resolve_left nofun)
      rw [resultAfter, hvalues]
      rfl
    · rfl
  · rintro rfl hmissing
    rw [hresult, resultAfter, hmissing]
    rfl

/-- A variable holding 5 that is to be made smaller, with one iteration allowed for: the search
does not settle in it, and `solve` answers that there is no result. -/
theorem search_reports_of_variable :
    let x : Formula Int := .node 2 (.var "x")
    let σ : Session Int := ⟨3, Store.empty.write 2 5, ∅, .empty⟩
    let posed := (start ⟨1, 0, 1⟩).perform σ (.problem x [x] [])
    let limited := posed.2.1.perform σ (.settings ⟨none, none, none, none, some 1⟩)
    let search := limited.2.1
    let done := search.perform σ .solve
    History ⟨1, 0, 1⟩ [(.problem x [x] [], posed.1),
        (.settings ⟨none, none, none, none, some 1⟩, limited.1)] search ∧
      search.objective = some x ∧ ∃ r, done.1 = .ok (some r) ∧ search.Ends x σ r done.2.2 ∧
        r.iterations ≤ search.maxIterations ∧
        (r.result.isSome = true ↔ ∃ k < search.maxIterations, search.StopsAt x σ k) ∧
        done.2.1.result = r.result := by
  intro x σ posed limited search done
  have hhistory : History ⟨1, 0, 1⟩ [(.problem x [x] [], posed.1),
      (.settings ⟨none, none, none, none, some 1⟩, limited.1)] search :=
    (History.start.request (.problem x [x] []) σ).request _ σ
  have hobjective : search.objective = some x := rfl
  obtain ⟨r, hanswer, hends, hle, -, hiff, -, hkept, -⟩ :=
    ((search_reports hhistory).2 σ .solve (.inr rfl)).2 x hobjective
  exact ⟨hhistory, hobjective, r, hanswer, hends, hle, hiff, hkept (.inl rfl)⟩

/-- A result may be that of an earlier run: a search for a constant settles where `x` is, at 5;
the next run, for `x` itself with one iteration allowed for, takes `x` to 4 and has no result, and
the search still has the first one. -/
theorem result_of_earlier_run :
    let x : Formula Int := .node 2 (.var "x")
    let seven : Formula Int := .node 3 (.const 7)
    let σ : Session Int := ⟨4, Store.empty.write 2 5, ∅, .empty⟩
    let posed := (start ⟨1, 0, 1⟩).perform σ (.problem seven [x] [])
    let first := posed.2.1.perform σ .run
    let posedAnew := first.2.1.perform first.2.2 (.problem x [x] [])
    let limited :=
      posedAnew.2.1.perform first.2.2 (.settings ⟨none, none, none, none, some 1⟩)
    let second := limited.2.1.perform first.2.2 .run
    History ⟨1, 0, 1⟩ [(.problem seven [x] [], posed.1), (.run, first.1),
        (.problem x [x] [], posedAnew.1),
        (.settings ⟨none, none, none, none, some 1⟩, limited.1), (.run, second.1)] second.2.1 ∧
      first.1 = .ok (some ⟨some [5], 1⟩) ∧ second.1 = .ok (some ⟨none, 1⟩) ∧
      second.2.2.store.read 2 = 4 ∧ second.2.1.result = some [5] := by
  intro x seven σ posed first posedAnew limited second
  refine ⟨((((History.start.request (.problem seven [x] []) σ).request .run σ).request _
    first.2.2).request _ first.2.2).request .run first.2.2, ?_, ?_, ?_, ?_⟩
  all_goals
    simp only [second, limited, posedAnew, first, posed, σ, x, seven]
    cbv

end GradientSearch

end FormulaGraph
