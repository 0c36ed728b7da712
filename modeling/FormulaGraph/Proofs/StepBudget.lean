import FormulaGraph.Proofs.StepHistory
import FormulaGraph.Scalar.Binary64

/-!
# The budget of a step

The loop of a step has no bound of its own.  It ends because every round but the last takes out a
variable that is still active, whatever the limits say and whatever the criterion answers: a limit
stops the step only at a variable whose flag is set, and clears that flag.

`Step.Reaches` follows the loop from round to round together with its counter of active variables.
The counter is the number of flags that are set, and with the number of the round it makes up the
number of variables (`Step.Reaches.count_active`).  So the counter is positive whenever a variable
is taken out, and a step for `n` variables returns after it has asked its criterion at most `n`
times, or once if there are no variables (`step_within_budget`).
-/

namespace FormulaGraph

variable {α : Type} [Scalar α]

namespace Step

section Loop

variable (criterion : Nat → Action α (Criterion α)) (unknowns : List (Formula α))
  (limits : List (Limit α)) (size : StepSize α)

/-- The loop of a step begun in the session `before` comes to a round: the number of variables
it counts as active, their flags, the number of the round, and the session in which the
criterion is asked. -/
inductive Reaches (before : Session α) : ℕ → List Bool → ℕ → Session α → Prop
  | first : Reaches before unknowns.length (unknowns.map fun _ => true) 0 before
  | next {left round : ℕ} {active : List Bool} {s s' : Session α} {c : Criterion α}
      {l : Limit α} {i : ℕ} (h : Reaches before (left + 2) active round s)
      (hasked : (criterion round).run.run s = (.ok c, s'))
      (hverdict : verdict unknowns limits size active c s'.store.read = .stopped l i) :
      Reaches before (left + 1) (active.set i false) (round + 1)
        (s'.write l.bounded.id l.value)

end Loop

variable {criterion : Nat → Action α (Criterion α)} {unknowns : List (Formula α)}
  {limits : List (Limit α)} {size : StepSize α} {before s : Session α} {active : List Bool}
  {counter round : ℕ}

/-- What is left of a step, once its loop comes to a round, is the loop from there. -/
theorem Reaches.step_run
    (h : Reaches criterion unknowns limits size before counter active round s) :
    (step criterion unknowns limits size).run.run before =
      (rounds criterion unknowns limits size counter active round).run.run s := by
  induction h with
  | first => rfl
  | next h hasked hverdict ih =>
      rw [ih, rounds_run, hasked]
      simp only [hverdict]

/-! ## Counting the active variables -/

/-- The counter is the number of flags set, and every round before took one out. -/
theorem Reaches.count_active
    (h : Reaches criterion unknowns limits size before counter active round s) :
    active.count true = counter ∧ counter + round = unknowns.length := by
  induction h with
  | first => simp
  | next h hasked hverdict ih =>
      obtain ⟨hcount, hround⟩ := ih
      have hstopped := count_of_stopped hverdict
      exact ⟨by omega, by omega⟩

/-- A variable is counted before it is taken out. -/
theorem Reaches.counted (h : Reaches criterion unknowns limits size before counter active round s)
    {c : Criterion α} {ρ : Valuation α} {l : Limit α} {i : ℕ}
    (hverdict : verdict unknowns limits size active c ρ = .stopped l i) :
    ∃ left, counter = left + 1 ∧ (active.set i false).count true = left := by
  obtain ⟨hcount, -⟩ := h.count_active
  have hstopped := count_of_stopped hverdict
  exact ⟨(active.set i false).count true, by omega, rfl⟩

/-- The criterion is asked in no more rounds than there are variables, and in one if there are
none. -/
theorem Reaches.round_lt
    (h : Reaches criterion unknowns limits size before counter active round s) :
    round < max 1 unknowns.length := by
  cases h with
  | first => omega
  | next h _ _ =>
      obtain ⟨-, hround⟩ := h.count_active
      omega

/-- The loop comes to every round before one it comes to. -/
theorem Reaches.earlier (h : Reaches criterion unknowns limits size before counter active round s)
    {r : ℕ} (hr : r ≤ round) :
    ∃ counter active s, Reaches criterion unknowns limits size before counter active r s := by
  induction h with
  | first =>
      obtain rfl := Nat.le_zero.mp hr
      exact ⟨_, _, _, .first⟩
  | next h hasked hverdict ih =>
      rcases Nat.lt_or_eq_of_le hr with hlt | rfl
      · exact ih (Nat.le_of_lt_succ hlt)
      · exact ⟨_, _, _, .next h hasked hverdict⟩

/-! ## Returning -/

/-- The criterion answers whenever it is asked, with so many derivatives. -/
def Answers (criterion : Nat → Action α (Criterion α)) (n : ℕ) : Prop :=
  ∀ round s, ∃ c s', (criterion round).run.run s = (.ok c, s') ∧ c.derivatives.length = n

/-- An answer with a derivative for each variable is not refused. -/
theorem verdict_ne_refused {c : Criterion α} {ρ : Valuation α}
    (h : c.derivatives.length = unknowns.length) :
    verdict unknowns limits size active c ρ ≠ .refused := by
  have hlength : (c.derivatives.length != unknowns.length) = false := by simp [h]
  unfold verdict
  rw [hlength]
  grind

/-- From every round it comes to, the loop goes on to a last one and returns. -/
theorem Reaches.returns (hvars : ∀ e ∈ unknowns, e.isVariable = true)
    (hanswers : Answers criterion unknowns.length)
    (h : Reaches criterion unknowns limits size before counter active round s) :
    ∃ moved last after, (rounds criterion unknowns limits size counter active round).run.run s =
        (.ok ⟨moved, last + 1⟩, after) ∧ round ≤ last ∧
      ∃ counter active s, Reaches criterion unknowns limits size before counter active last s := by
  induction counter using Nat.strongRecOn generalizing active round s with
  | ind counter ih =>
      obtain ⟨c, s', hasked, hlength⟩ := hanswers round s
      rw [rounds_run, hasked]
      cases hverdict : verdict unknowns limits size active c s'.store.read with
      | refused => exact absurd hverdict (verdict_ne_refused hlength)
      | level =>
          simp only [hverdict]
          exact ⟨false, round, s', rfl, le_rfl, _, _, _, h⟩
      | stopped l i =>
          simp only [hverdict]
          match counter, h with
          | 0, h | 1, h => exact ⟨true, round, _, rfl, le_rfl, _, _, _, h⟩
          | left + 2, h =>
              obtain ⟨moved, last, after, hrest, hle, hlast⟩ :=
                ih (left + 1) (Nat.lt_succ_self _) (h.next hasked hverdict)
              exact ⟨moved, last, after, hrest, by omega, hlast⟩
      | moved coeff =>
          obtain ⟨store, hrun, -, -⟩ :=
            move_run coeff hvars (direction c.derivatives active) active s'
          simp only [hverdict]
          exact ⟨true, round, _, Action.run_bind_ok hrun, le_rfl, _, _, _, h⟩

/-- A step whose criterion answers returns, and tells in how many rounds it asked. -/
theorem step_returns (hvars : ∀ e ∈ unknowns, e.isVariable = true)
    (hanswers : Answers criterion unknowns.length) (limits : List (Limit α)) (size : StepSize α)
    (before : Session α) :
    ∃ outcome after, (step criterion unknowns limits size).run.run before =
        (.ok outcome, after) ∧
      ∀ r, (∃ counter active s, Reaches criterion unknowns limits size before counter active r s) ↔
        r < outcome.rounds := by
  have hfirst : Reaches criterion unknowns limits size before unknowns.length
      (unknowns.map fun _ => true) 0 before := .first
  obtain ⟨moved, last, after, hrun, -, _, _, _, hlast⟩ := hfirst.returns hvars hanswers
  rw [← hfirst.step_run] at hrun
  refine ⟨_, after, hrun, fun r => ⟨?_, fun hr => hlast.earlier (Nat.le_of_lt_succ hr)⟩⟩
  rintro ⟨counter, active, s, h⟩
  obtain ⟨moved', last', after', hrun', hle, -⟩ := h.returns hvars hanswers
  rw [← h.step_run, hrun] at hrun'
  cases hrun'
  exact Nat.lt_succ_of_le hle

end Step

/-- **A step keeps to its budget.**  For every list of variables, with repetitions or without,
every list of limits, every size and every criterion that answers with one number for each
variable, the step returns.  The rounds in which it asks the criterion are at most as many as the
variables, or one if there are none; in each of them the counter is the number of variables still
active; and a variable is taken out only where the counter is positive, and leaves it the number
of the others. -/
theorem step_within_budget {unknowns : List (Formula α)}
    (hvars : ∀ e ∈ unknowns, e.isVariable = true) (limits : List (Limit α)) (size : StepSize α)
    {criterion : Nat → Action α (Criterion α)} (hanswers : Step.Answers criterion unknowns.length)
    (before : Session α) :
    (∃ outcome after, (step criterion unknowns limits size).run.run before =
        (.ok outcome, after) ∧
      (∀ r, (∃ counter active s,
          Step.Reaches criterion unknowns limits size before counter active r s) ↔
        r < outcome.rounds) ∧
      outcome.rounds ≤ max 1 unknowns.length) ∧
    ∀ counter active round s,
      Step.Reaches criterion unknowns limits size before counter active round s →
      (step criterion unknowns limits size).run.run before =
        (Step.rounds criterion unknowns limits size counter active round).run.run s ∧
      counter = active.count true ∧
      ∀ c s' l i, (criterion round).run.run s = (.ok c, s') →
        Step.verdict unknowns limits size active c s'.store.read = .stopped l i →
        ∃ left, counter = left + 1 ∧ (active.set i false).count true = left := by
  refine ⟨?_, fun counter active round s h =>
    ⟨h.step_run, h.count_active.1.symm, fun c s' l i _ hverdict => h.counted hverdict⟩⟩
  obtain ⟨outcome, after, hrun, hasked⟩ := Step.step_returns hvars hanswers limits size before
  refine ⟨outcome, after, hrun, hasked, ?_⟩
  by_contra hmore
  obtain ⟨counter, active, s, h⟩ := (hasked (max 1 unknowns.length)).mpr (by omega)
  exact absurd h.round_lt (lt_irrefl _)

/-- A variable listed twice, past one of its limits, the limits contradicting each other, and
another limit on a variable that is not listed. -/
theorem step_within_budget_of_contradiction :
    let x : Formula Float := .node 2 (.var "x")
    let limits : List (Limit Float) :=
      [⟨⟨2, "x"⟩, 6.75, .below⟩, ⟨⟨3, "y"⟩, 5, .below⟩, ⟨⟨2, "x"⟩, 0, .above⟩]
    let criterion : Nat → Action Float (Criterion Float) := fun _ => pure ⟨10, [1, 1]⟩
    let σ : Session Float := ⟨4, Store.empty.write 2 7, ∅, .empty⟩
    (∀ e ∈ [x, x], e.isVariable = true) ∧ Step.Answers criterion [x, x].length ∧
      ∃ outcome after, (step criterion [x, x] limits ⟨1, 0⟩).run.run σ = (.ok outcome, after) ∧
        (∀ r, (∃ counter active s,
            Step.Reaches criterion [x, x] limits ⟨1, 0⟩ σ counter active r s) ↔
          r < outcome.rounds) ∧
        outcome.rounds ≤ max 1 [x, x].length := by
  intro x limits criterion σ
  have hvars : ∀ e ∈ [x, x], e.isVariable = true := by simp [x, Formula.isVariable]; rfl
  have hanswers : Step.Answers criterion [x, x].length := fun _ s => ⟨_, s, rfl, rfl⟩
  exact ⟨hvars, hanswers, (step_within_budget hvars limits ⟨1, 0⟩ hanswers σ).1⟩

end FormulaGraph
