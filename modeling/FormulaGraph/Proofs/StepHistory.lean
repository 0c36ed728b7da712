import FormulaGraph.Proofs.FeasibleSearch
import FormulaGraph.Proofs.WholeNumbers

/-!
# The history of a step

A step goes through rounds, and every round but the last puts one variable on one of its
limits.  The variables put on limits so far, with the limits, are the history of the step
(`Step.Enters`); the last round says how the step ends (`Step.Ends`).  Every step has a
last round (`Step.exists_last_round`), and whatever the variables hold in a round follows
from the history, if the criterion writes none.

One consequence concerns the answer that no step was made.  It is given where the gradient
vanishes, and this may come to pass after variables were put on limits: then they stay
there (`unmade_step`).  Nothing is moved exactly if every variable in the history was on
its limit to begin with, in particular if the first round ends the step.
-/

namespace FormulaGraph

variable {α : Type} [Scalar α]

namespace Step

/-- A limit, and the place of the variable that was put on it. -/
abbrev Stop (α : Type) := Limit α × Nat

section History

variable (criterion : Nat → Action α (Criterion α)) (unknowns : List (Formula α))
  (limits : List (Limit α)) (size : StepSize α)

/-- A step begun in the session `before` comes to a round in the session `s`: the variables
in the history were put on their limits one by one, one a round, and the others are still
active. -/
inductive Enters (before : Session α) : List (Stop α) → List Bool → Session α → Prop
  | first : Enters before [] (unknowns.map fun _ => true) before
  | next {history : List (Stop α)} {active : List Bool} {s s' : Session α} {c : Criterion α}
      {l : Limit α} {i : Nat} (h : Enters before history active s)
      (hleft : history.length + 1 < unknowns.length)
      (hasked : (criterion history.length).run.run s = (.ok c, s'))
      (hverdict : verdict unknowns limits size active c s'.store.read = .stopped l i) :
      Enters before (history ++ [(l, i)]) (active.set i false) (s'.write l.bounded.id l.value)

/-- A round entered in the session `s` is the last one: what it answers, which variables
are active in the end, and the session it leaves. -/
inductive Ends (history : List (Stop α)) (active : List Bool) (s : Session α) :
    Except (Fault α) StepOutcome → List Bool → Session α → Prop
  | failed {fault : Fault α} {s' : Session α}
      (hasked : (criterion history.length).run.run s = (.error fault, s')) :
      Ends history active s (.error fault) active s'
  | refused {c : Criterion α} {s' : Session α}
      (hasked : (criterion history.length).run.run s = (.ok c, s'))
      (hverdict : verdict unknowns limits size active c s'.store.read = .refused) :
      Ends history active s (.error .derivativeCount) active s'
  | level {c : Criterion α} {s' : Session α}
      (hasked : (criterion history.length).run.run s = (.ok c, s'))
      (hverdict : verdict unknowns limits size active c s'.store.read = .level) :
      Ends history active s (.ok ⟨false, history.length + 1⟩) active s'
  | stopped {c : Criterion α} {s' : Session α} {l : Limit α} {i : Nat}
      (hasked : (criterion history.length).run.run s = (.ok c, s'))
      (hverdict : verdict unknowns limits size active c s'.store.read = .stopped l i)
      (hlast : unknowns.length ≤ history.length + 1) :
      Ends history active s (.ok ⟨true, history.length + 1⟩) (active.set i false)
        (s'.write l.bounded.id l.value)
  | moved {c : Criterion α} {s' : Session α} {coeff : α} {store : Store α}
      (hasked : (criterion history.length).run.run s = (.ok c, s'))
      (hverdict : verdict unknowns limits size active c s'.store.read = .moved coeff)
      (hread : store.read =
        movedValues coeff unknowns (direction c.derivatives active) active s'.store.read) :
      Ends history active s (.ok ⟨true, history.length + 1⟩) active { s' with store }

end History

variable {criterion : Nat → Action α (Criterion α)} {unknowns : List (Formula α)}
  {limits : List (Limit α)} {size : StepSize α} {before s : Session α}
  {history : List (Stop α)} {active : List Bool}

/-- What is left of a step, once it comes to a round, are the rounds from there. -/
theorem Enters.step_run (h : Enters criterion unknowns limits size before history active s) :
    (step criterion unknowns limits size).run.run before =
      (rounds criterion unknowns limits size (unknowns.length - history.length) active
        history.length).run.run s := by
  induction h with
  | first => rfl
  | @next history active s s' c l i h hleft hasked hverdict ih =>
      obtain ⟨left, hcount⟩ : ∃ left, unknowns.length - history.length = left + 2 :=
        ⟨unknowns.length - history.length - 2, by omega⟩
      have hrest : unknowns.length - (history ++ [(l, i)]).length = left + 1 := by
        rw [List.length_append, List.length_singleton]
        omega
      rw [ih, rounds_run, hasked, hcount, hrest]
      simp only [hverdict, List.length_append, List.length_singleton]

/-- From every round it comes to, a step goes on to a last one. -/
theorem Enters.exists_last (hvars : ∀ e ∈ unknowns, e.isVariable = true)
    (h : Enters criterion unknowns limits size before history active s) :
    ∃ history active s flags,
      Enters criterion unknowns limits size before history active s ∧
      Ends criterion unknowns limits size history active s
        ((step criterion unknowns limits size).run.run before).1 flags
        ((step criterion unknowns limits size).run.run before).2 := by
  rw [h.step_run]
  generalize hcount : unknowns.length - history.length = activeCount
  induction activeCount using Nat.strongRecOn generalizing history active s with
  | ind activeCount ih =>
      rw [rounds_run]
      cases hasked : (criterion history.length).run.run s with
      | mk answer s' =>
      cases answer with
      | error fault => exact ⟨history, active, s, active, h, .failed hasked⟩
      | ok c =>
          cases hverdict : verdict unknowns limits size active c s'.store.read with
          | refused =>
              simp only [hverdict]
              exact ⟨history, active, s, active, h, .refused hasked hverdict⟩
          | level =>
              simp only [hverdict]
              exact ⟨history, active, s, active, h, .level hasked hverdict⟩
          | stopped l i =>
              simp only [hverdict]
              match activeCount with
              | 0 | 1 =>
                  exact ⟨history, active, s, active.set i false, h,
                    .stopped hasked hverdict (by omega)⟩
              | left + 2 =>
                  have hnext := ih (left + 1) (Nat.lt_succ_self _)
                    (h.next (by omega) hasked hverdict)
                    (by rw [List.length_append, List.length_singleton]; omega)
                  rwa [List.length_append, List.length_singleton] at hnext
          | moved coeff =>
              obtain ⟨store, hrun, -, hread⟩ :=
                move_run coeff hvars (direction c.derivatives active) active s'
              simp only [hverdict]
              rw [Action.run_bind_ok hrun]
              exact ⟨history, active, s, active, h, .moved hasked hverdict hread⟩

variable (criterion limits size) in
/-- Every step has a last round. -/
theorem exists_last_round (hvars : ∀ e ∈ unknowns, e.isVariable = true) (before : Session α) :
    ∃ history active s flags,
      Enters criterion unknowns limits size before history active s ∧
      Ends criterion unknowns limits size history active s
        ((step criterion unknowns limits size).run.run before).1 flags
        ((step criterion unknowns limits size).run.run before).2 :=
  Enters.exists_last hvars .first

/-! ## Who is active -/

/-- The step is stopped by a limit of its list, on a variable still active. -/
theorem of_verdict_stopped {c : Criterion α} {ρ : Valuation α} {l : Limit α} {i : Nat}
    (h : verdict unknowns limits size active c ρ = .stopped l i) :
    l ∈ limits ∧ place? unknowns l.bounded.id = some i ∧ active[i]? = some true := by
  refine reach_induction (P := fun _ r => ∀ l i, r.stopped = some (l, i) →
    l ∈ limits ∧ place? unknowns l.bounded.id = some i ∧ active[i]? = some true)
    (by simp) ?_ l i (stopped_of_verdict h).2
  intro seen r l' hseen hr l i hstopped
  have hl' : l' ∈ limits := hseen l' (by simp)
  unfold Reach.shorten at hstopped
  grind

/-- A limit that stops the step takes out one variable. -/
theorem count_of_stopped {c : Criterion α} {ρ : Valuation α} {l : Limit α} {i : Nat}
    (h : verdict unknowns limits size active c ρ = .stopped l i) :
    (active.set i false).count true + 1 = active.count true := by
  obtain ⟨-, -, hactive⟩ := of_verdict_stopped h
  obtain ⟨hlt, hget⟩ := List.getElem?_eq_some_iff.mp hactive
  have hpos : 0 < active.count true := List.count_pos_iff.mpr (List.mem_of_getElem? hactive)
  rw [List.count_set hlt, hget, if_pos (by decide), if_neg (by decide)]
  omega

namespace Enters

/-- Every round before took one variable out. -/
theorem count_active (h : Enters criterion unknowns limits size before history active s) :
    active.count true + history.length = unknowns.length := by
  induction h with
  | first => simp
  | @next history active s s' c l i h hleft hasked hverdict ih =>
      have hstopped := count_of_stopped hverdict
      rw [List.length_append, List.length_singleton]
      omega

/-- The variables in the history are not active any more. -/
theorem inactive (h : Enters criterion unknowns limits size before history active s) :
    ∀ p ∈ history, place? unknowns p.1.bounded.id = some p.2 ∧ active[p.2]? = some false := by
  induction h with
  | first => simp
  | @next history active s s' c l i h hleft hasked hverdict ih =>
      obtain ⟨-, hplace, hactive⟩ := of_verdict_stopped hverdict
      intro p hp
      rcases List.mem_append.mp hp with hp | hp
      · obtain ⟨hplace', hinactive⟩ := ih p hp
        refine ⟨hplace', ?_⟩
        rw [List.getElem?_set]
        grind
      · rw [List.mem_singleton.mp hp]
        refine ⟨hplace, ?_⟩
        rw [List.getElem?_set]
        grind

/-- No variable is put on a limit twice. -/
theorem nodup (h : Enters criterion unknowns limits size before history active s) :
    (history.map (·.1.bounded.id)).Nodup := by
  induction h with
  | first => exact List.nodup_nil
  | @next history active s s' c l i h hleft hasked hverdict ih =>
      obtain ⟨-, hplace, hactive⟩ := of_verdict_stopped hverdict
      rw [List.map_append, List.nodup_append]
      refine ⟨ih, List.nodup_singleton _, ?_⟩
      intro v hv w hw
      obtain ⟨p, hp, rfl⟩ := List.mem_map.mp hv
      obtain ⟨hplace', hinactive⟩ := h.inactive p hp
      rintro rfl
      rw [List.mem_singleton.mp hw] at hplace'
      cases hplace.symm.trans hplace'
      cases hactive.symm.trans hinactive

end Enters

/-! ## What the variables hold -/

/-- The values after the variables in a history were put on their limits. -/
def stoppedValues (history : List (Stop α)) (ρ : Valuation α) : Valuation α :=
  history.foldl (fun ρ p => ρ.set p.1.bounded.id p.1.value) ρ

omit [Scalar α] in
theorem stoppedValues_other {ρ : Valuation α} {v : NodeId}
    (h : v ∉ history.map (·.1.bounded.id)) : stoppedValues history ρ v = ρ v := by
  induction history generalizing ρ with
  | nil => rfl
  | cons p history ih =>
      obtain ⟨hp, hhistory⟩ := not_or.mp (List.mem_cons.not.mp h)
      show stoppedValues history _ v = _
      rw [ih hhistory]
      exact if_neg hp

omit [Scalar α] in
theorem stoppedValues_mem {ρ : Valuation α} (hnodup : (history.map (·.1.bounded.id)).Nodup)
    {p : Stop α} (hp : p ∈ history) : stoppedValues history ρ p.1.bounded.id = p.1.value := by
  induction history generalizing ρ with
  | nil => cases hp
  | cons q history ih =>
      obtain ⟨hq, hnodup⟩ := List.nodup_cons.mp hnodup
      show stoppedValues history _ _ = _
      rcases List.mem_cons.mp hp with rfl | hp
      · rw [stoppedValues_other hq]
        exact if_pos rfl
      · exact ih hnodup hp

omit [Scalar α] in
/-- Nothing has moved exactly if every variable put on its limit was there. -/
theorem stoppedValues_eq_iff {ρ : Valuation α} (hnodup : (history.map (·.1.bounded.id)).Nodup) :
    stoppedValues history ρ = ρ ↔ ∀ p ∈ history, p.1.value = ρ p.1.bounded.id := by
  constructor
  · intro h p hp
    rw [← stoppedValues_mem hnodup hp (ρ := ρ), h]
  · intro h
    funext v
    by_cases hv : v ∈ history.map (·.1.bounded.id)
    · obtain ⟨p, hp, rfl⟩ := List.mem_map.mp hv
      rw [stoppedValues_mem hnodup hp, h p hp]
    · exact stoppedValues_other hv

/-- In every round the variables hold what the history says, if the criterion writes none. -/
theorem Enters.read (h : Enters criterion unknowns limits size before history active s)
    (hcriterion : ∀ n s, ((criterion n).run.run s).2.store.read = s.store.read) :
    s.store.read = stoppedValues history before.store.read := by
  induction h with
  | first => rfl
  | @next history active s s' c l i h hleft hasked hverdict ih =>
      have hkept := hcriterion history.length s
      rw [hasked] at hkept
      rw [Session.write, Store.read_write, hkept, ih, stoppedValues, stoppedValues,
        List.foldl_append]
      rfl

/-! ## Steps that are not made -/

/-- A step that was not made, after `n` rounds: the gradient vanished in the last one, and
what the variables hold afterwards is what the history says.  That is what they held before
exactly if all in the history were on their limits. -/
def Unmade (criterion : Nat → Action α (Criterion α)) (unknowns : List (Formula α))
    (limits : List (Limit α)) (size : StepSize α) (before : Session α) (n : Nat)
    (after : Valuation α) : Prop :=
  ∃ history active s c s',
    Enters criterion unknowns limits size before history active s ∧ history.length + 1 = n ∧
    (criterion history.length).run.run s = (.ok c, s') ∧
    verdict unknowns limits size active c s'.store.read = .level ∧
    after = stoppedValues history before.store.read ∧
    (after = before.store.read ↔ ∀ p ∈ history, p.1.value = before.store.read p.1.bounded.id)

theorem unmade_of_run (hvars : ∀ e ∈ unknowns, e.isVariable = true)
    (hcriterion : ∀ n s, ((criterion n).run.run s).2.store.read = s.store.read) {n : Nat}
    {after : Session α}
    (h : (step criterion unknowns limits size).run.run before = (.ok ⟨false, n⟩, after)) :
    Unmade criterion unknowns limits size before n after.store.read := by
  obtain ⟨history, active, s, flags, henters, hends⟩ :=
    exists_last_round criterion limits size hvars before
  rw [h] at hends
  cases hends with
  | @level c s' hasked hverdict =>
      have hkept := hcriterion history.length s
      rw [hasked, henters.read hcriterion] at hkept
      refine ⟨history, active, s, c, _, henters, rfl, hasked, hverdict, hkept, ?_⟩
      rw [hkept]
      exact stoppedValues_eq_iff henters.nodup

end Step

/-- **A step that is not made.**  Where a step answers that it was not made, every variable
it put on a limit before the gradient vanished stays there, and no other variable has
changed: for any criterion that writes no variable, and for any formula without solvers. -/
theorem unmade_step {unknowns : List (Formula α)} (hvars : ∀ e ∈ unknowns, e.isVariable = true)
    (limits : List (Limit α)) (size : StepSize α) (σ : Session α) :
    (∀ criterion : Nat → Action α (Criterion α),
      (∀ n s, ((criterion n).run.run s).2.store.read = s.store.read) →
      ∀ n after, (step criterion unknowns limits size).run.run σ = (.ok ⟨false, n⟩, after) →
        Step.Unmade criterion unknowns limits size σ n after.store.read) ∧
    ∀ objective : Formula α, σ.Offers objective → objective.Solverless → ∀ first n after,
      (stepFormula objective unknowns limits size first).run.run σ = (.ok ⟨false, n⟩, after) →
      ∃ ds σ', (objective.gradient unknowns).run.run σ = (.ok ds, σ') ∧ σ'.store = σ.store ∧
        Step.Unmade (formulaCriterion objective ds first) unknowns limits size σ' n
          after.store.read := by
  refine ⟨fun criterion hcriterion n after h => Step.unmade_of_run hvars hcriterion h, ?_⟩
  intro objective hoffers hsolverless first n after h
  obtain ⟨ds, σ', hgradient, hstore, hisGradient, hanswer, hafter, -⟩ :=
    stepFormula_run hoffers hvars limits size first
  rw [h] at hanswer hafter
  have hfree : ∀ d ∈ ds, d.SolverFree := fun d hd =>
    (hisGradient.inherits d hd _ Formula.solverless_inherited hsolverless).everywhere
  refine ⟨ds, σ', hgradient, hstore, ?_⟩
  rw [hafter]
  exact Step.unmade_of_run hvars
    (fun n s => formulaCriterion_read hsolverless.everywhere hfree first n s)
    (Prod.ext hanswer.symm rfl)

/-- One round puts a variable on its limit, and in the next one the gradient vanishes: two
rounds, of which the history explains what is left. -/
theorem unmade_step_after_limit :
    let x : Formula Int := .node 2 (.var "x")
    let y : Formula Int := .node 3 (.var "y")
    let limits : List (Limit Int) := [⟨⟨2, "x"⟩, 0, .below⟩]
    let σ : Session Int := ⟨4, Store.empty.write 2 1, ∅, .empty⟩
    let criterion : Nat → Action Int (Criterion Int) := fun _ => pure ⟨1, [1, 0]⟩
    let run := (step criterion [x, y] limits ⟨5, 0⟩).run.run σ
    (∀ e ∈ [x, y], e.isVariable = true) ∧
      (∀ n s, ((criterion n).run.run s).2.store.read = s.store.read) ∧
      run = (.ok ⟨false, 2⟩, run.2) ∧
      Step.Unmade criterion [x, y] limits ⟨5, 0⟩ σ 2 run.2.store.read := by
  intro x y limits σ criterion run
  have hvars : ∀ e ∈ [x, y], e.isVariable = true := by simp [x, y]; exact ⟨rfl, rfl⟩
  have hcriterion : ∀ n s, ((criterion n).run.run s).2.store.read = s.store.read :=
    fun _ _ => rfl
  have hrun : run = (.ok ⟨false, 2⟩, run.2) := Prod.ext (by simp only [run, criterion]; cbv) rfl
  exact ⟨hvars, hcriterion, hrun,
    (unmade_step hvars limits ⟨5, 0⟩ σ).1 criterion hcriterion 2 run.2 hrun⟩

/-- A step that is not made may have moved a variable: to make `x` smaller, where it may not
fall below zero, `x` is put on its limit before it turns out that `y` makes no difference. -/
theorem unmade_step_moves :
    let x : Formula Int := .node 2 (.var "x")
    let y : Formula Int := .node 3 (.var "y")
    let limits : List (Limit Int) := [⟨⟨2, "x"⟩, 0, .below⟩]
    let σ : Session Int := ⟨4, Store.empty.write 2 1, ∅, .empty⟩
    let run := (stepFormula x [x, y] limits ⟨5, 0⟩ none).run.run σ
    x.Solverless ∧ σ.Offers x ∧ run = (.ok ⟨false, 2⟩, run.2) ∧
      σ.store.read 2 = 1 ∧ run.2.store.read 2 = 0 := by
  intro x y limits σ run
  have hsolverless : x.Solverless := by
    simp [x, Formula.throughout_node, Shape.refs, Shape.children]
  have hoffers : σ.Offers x :=
    ⟨[y, x, .zero, .one], (Workbench.Reachable.start.perform (a := .node (.var "x"))
      (by simp [Workbench.Admits, Shape.refs, Shape.children])).perform (a := .node (.var "y"))
      (by simp [Workbench.Admits, Shape.refs, Shape.children]), by simp⟩
  exact ⟨hsolverless, hoffers, Prod.ext (by cbv) rfl, by cbv, by cbv⟩

end FormulaGraph
