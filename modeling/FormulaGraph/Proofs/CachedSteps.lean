import FormulaGraph.Proofs.Definedness
import FormulaGraph.Proofs.SessionDerivatives
import FormulaGraph.Scalar.Binary64

/-!
# Steps with and without stored values

A step for a formula evaluates it and its derivatives in one pass a round, so that they
share what they have in common, and writes variables between the rounds.  It comes to the
same as a step that computes all values anew at every round (`step_cached`).

The relation carried from round to round is that the variables have the same values on both
sides, and that the pass of the next round finds nothing in the slots (`PassReady`).  The
writes in between spoil every slot filled so far, and spoil nothing, since a new pass reads
none of them.
-/

namespace FormulaGraph

open Formula

variable {α : Type} [Scalar α] {objective : Formula α} {ds unknowns : List (Formula α)}
  {limits : List (Limit α)} {size : StepSize α} {first : Option Generation}

/-- The criterion computed without slots, each time anew. -/
def plainCriterion (objective : Formula α) (ds : List (Formula α)) (_round : Nat) :
    Action α (Criterion α) := do
  let ρ := (← get).store.read
  return ⟨objective.value ρ, values ρ ds⟩

theorem plainCriterion_run (objective : Formula α) (ds : List (Formula α)) (round : Nat)
    (s : Session α) : (plainCriterion objective ds round).run.run s =
      (.ok ⟨objective.value s.store.read, values s.store.read ds⟩, s) := rfl

/-! ## The passes of a step -/

/-- A pass given for the first round was begun, and nothing was evaluated in it. -/
structure PassReady (first : Option Generation) (round : Nat) (s : Store α) : Prop where
  issued : s.Issued
  given : ∀ g, first = some g → round = 0 →
    g ≤ s.generation ∧ ∀ id, (s.slot id).holds g = false

/-- The pass of the round is a good one. -/
theorem PassReady.pass {round : Nat} {s : Store α} (h : PassReady first round s)
    (D : Directory α) :
    let pass := criterionPass first round s
    pass.2.read = s.read ∧ pass.2.Issued ∧ pass.1 ≤ pass.2.generation ∧
      pass.2.Agrees D pass.1 := by
  have hnext : let pass := Evaluation.nextGeneration.run s
      pass.2.read = s.read ∧ pass.2.Issued ∧ pass.1 ≤ pass.2.generation ∧
        pass.2.Agrees D pass.1 :=
    ⟨rfl, h.issued.next, Nat.le_refl _, h.issued.agrees_next D⟩
  cases first with
  | none => exact hnext
  | some g =>
      cases round with
      | succ round => exact hnext
      | zero =>
          obtain ⟨hle, hunheld⟩ := h.given g rfl rfl
          refine ⟨rfl, h.issued, hle, fun id hid => ?_⟩
          simp [criterionPass, hunheld id] at hid

/-- After any round, the next one begins a pass of its own. -/
theorem PassReady.next {round : Nat} {s : Store α} (h : s.Issued) :
    PassReady first (round + 1) s :=
  ⟨h, fun _ _ hround => by omega⟩

/-- The criterion evaluated in one pass is the criterion computed anew. -/
theorem formulaCriterion_plain {D : Directory α} (hobjective : objective.SolverFree)
    (hlisted : objective.ListedIn D) (hds : ∀ d ∈ ds, d.SolverFree)
    (hdsListed : ∀ d ∈ ds, d.ListedIn D) {round : Nat} {s : Session α}
    (hready : PassReady first round s.store) :
    ∃ store, (formulaCriterion objective ds first round).run.run s =
        (.ok ⟨objective.value s.store.read, values s.store.read ds⟩, { s with store }) ∧
      store.read = s.store.read ∧ store.Issued := by
  obtain ⟨hread, hissued, hle, hagrees⟩ := hready.pass D
  rw [formulaCriterion_run]
  generalize criterionPass first round s.store = pass at hread hissued hle hagrees ⊢
  obtain ⟨hvalue, hread', hagrees'⟩ := evaluateIn_computes hobjective hlisted pass.2 hread hagrees
  obtain ⟨hissued', hle'⟩ := objective.evaluateIn_keepsIssued pass.1 pass.2 hissued hle
  obtain ⟨hvalues, hread'', -⟩ := Computes.answering.evaluateAllIn
    (fun d hd => evaluateIn_computes (hds d hd) (hdsListed d hd)) _ hread' hagrees'
  have hadvanced := (Advances.evaluationProperty.pass pass.1).evaluateAllIn
    (fun d (_ : d ∈ ds) => Advances.evaluationProperty.evaluateIn d pass.1)
    ((objective.evaluateIn pass.1).run pass.2).2
  refine ⟨_, ?_, hread'', hadvanced.issued hissued' (Nat.le_trans hle hle')⟩
  dsimp only
  rw [hvalue, hvalues]

/-! ## Round by round -/

namespace Step

/-- From sessions with the same values in the variables, the rounds with stored values and
those without give the same answer and leave the same values. -/
theorem rounds_cached {D : Directory α} (hvars : ∀ e ∈ unknowns, e.isVariable = true)
    (hlength : ds.length = unknowns.length) (hobjective : objective.SolverFree)
    (hlisted : objective.ListedIn D) (hds : ∀ d ∈ ds, d.SolverFree)
    (hdsListed : ∀ d ∈ ds, d.ListedIn D) (activeCount : Nat) (active : List Bool) (round : Nat)
    (s t : Session α) (hread : s.store.read = t.store.read)
    (hready : PassReady first round s.store) :
    ∃ outcome s' t',
      (rounds (formulaCriterion objective ds first) unknowns limits size activeCount active
        round).run.run s = (.ok outcome, s') ∧
      (rounds (plainCriterion objective ds) unknowns limits size activeCount active
        round).run.run t = (.ok outcome, t') ∧
      s'.store.read = t'.store.read := by
  induction activeCount using Nat.strongRecOn generalizing active round s t with
  | ind activeCount ih =>
      obtain ⟨store, hasked, hstore, hissued⟩ :=
        formulaCriterion_plain hobjective hlisted hds hdsListed hready
      rw [rounds_run, rounds_run, hasked, plainCriterion_run, ← hread]
      generalize hc : (⟨objective.value s.store.read, values s.store.read ds⟩ : Criterion α) = c
      dsimp only
      rw [hstore, ← hread]
      have hderivatives : (c.derivatives.length != unknowns.length) = false := by
        rw [← hc, values_eq_map]
        simpa using hlength
      cases hverdict : verdict unknowns limits size active c s.store.read with
      | refused =>
          unfold verdict at hverdict
          grind
      | level => exact ⟨_, _, _, rfl, rfl, hstore.trans hread⟩
      | stopped l i =>
          have hwritten : (store.write l.bounded.id l.value).read =
              (t.store.write l.bounded.id l.value).read := by
            rw [Store.read_write, Store.read_write, hstore, hread]
          cases activeCount with
          | zero => exact ⟨_, _, _, rfl, rfl, hwritten⟩
          | succ others =>
              cases others with
              | zero => exact ⟨_, _, _, rfl, rfl, hwritten⟩
              | succ left =>
                  exact ih (left + 1) (Nat.lt_succ_self _) _ _ _ _ hwritten
                    (.next (hissued.write l.bounded.id l.value))
      | moved coeff =>
          obtain ⟨store', hrun, -, hread'⟩ :=
            move_run coeff hvars (direction c.derivatives active) active { s with store }
          obtain ⟨store'', hrun', -, hread''⟩ :=
            move_run coeff hvars (direction c.derivatives active) active t
          refine ⟨_, _, _, Action.run_bind_ok hrun, Action.run_bind_ok hrun', ?_⟩
          show store'.read = store''.read
          rw [hread', hread'', hstore, hread]

end Step

/-- **Stored values do not show.**  In a session that came about by work on formulas and by
evaluations of any kind, a step for a formula without solvers, in passes of its own or with
a first pass that was begun and not used, answers what a step answers that computes the
formula and its derivatives anew each time, and leaves the same values in all variables. -/
theorem step_cached {σ : Session α} (hoffers : σ.Offers objective) (hstore : σ.store.Reachable)
    (hsolverless : objective.Solverless) (hvars : ∀ e ∈ unknowns, e.isVariable = true)
    (limits : List (Limit α)) (size : StepSize α)
    (hfirst : ∀ g, first = some g →
      g ≤ σ.store.generation ∧ ∀ id, (σ.store.slot id).holds g = false) :
    ∃ ds, ((objective.gradient unknowns).run.run σ).1 = .ok ds ∧ ds.length = unknowns.length ∧
      let cached := (stepFormula objective unknowns limits size first).run.run σ
      let plain := (step (plainCriterion objective ds) unknowns limits size).run.run σ
      ∃ outcome, cached.1 = .ok outcome ∧ plain.1 = .ok outcome ∧
        cached.2.store.read = plain.2.store.read := by
  obtain ⟨ds, σ', hrun, hsame, hgradient, hanswer, hcached, -⟩ :=
    stepFormula_run hoffers hvars limits size first
  obtain ⟨D, hlisted, hdsListed⟩ := hgradient.listed
  have hds : ∀ d ∈ ds, d.SolverFree := fun d hd =>
    (hgradient.inherits d hd _ solverless_inherited hsolverless).everywhere
  have hready : PassReady first 0 σ'.store := by
    rw [hsame]
    exact ⟨hstore.issued, fun g hg _ => hfirst g hg⟩
  obtain ⟨outcome, s', t', hmade, hplain, hread⟩ : ∃ outcome s' t',
      (Step.rounds (formulaCriterion objective ds first) unknowns limits size unknowns.length
        (unknowns.map fun _ => true) 0).run.run σ' = (.ok outcome, s') ∧
      (Step.rounds (plainCriterion objective ds) unknowns limits size unknowns.length
        (unknowns.map fun _ => true) 0).run.run σ = (.ok outcome, t') ∧
      s'.store.read = t'.store.read :=
    Step.rounds_cached hvars hgradient.length hsolverless.everywhere hlisted hds hdsListed
      unknowns.length _ 0 σ' σ (congrArg Store.read hsame) hready
  refine ⟨ds, congrArg Prod.fst hrun, hgradient.length, outcome, ?_, ?_, ?_⟩
  · rw [hanswer]
    exact congrArg Prod.fst hmade
  · exact congrArg Prod.fst hplain
  · rw [hcached]
    calc
      _ = s'.store.read := congrArg (·.2.store.read) hmade
      _ = t'.store.read := hread
      _ = _ := (congrArg (·.2.store.read) hplain).symm

/-- A square to be made smaller in a pass that was begun before, its variable having a lower
limit. -/
theorem step_cached_in_given_pass :
    let x : Formula Float := .node 2 (.var "x")
    let e : Formula Float := .node 3 (.unary .square x)
    let limits : List (Limit Float) := [⟨⟨2, "x"⟩, 1, .below⟩]
    let size : StepSize Float := ⟨100, 0⟩
    let σ : Session Float :=
      ⟨4, (Evaluation.nextGeneration.run (Store.empty.write 2 3)).2, ∅, .empty⟩
    σ.Offers e ∧ σ.store.Reachable ∧ e.Solverless ∧ (∀ y ∈ [x], y.isVariable = true) ∧
      (∀ g, some 1 = some g →
        g ≤ σ.store.generation ∧ ∀ id, (σ.store.slot id).holds g = false) ∧
      ∃ ds, ((e.gradient [x]).run.run σ).1 = .ok ds ∧ ds.length = [x].length ∧
        let cached := (stepFormula e [x] limits size (some 1)).run.run σ
        let plain := (step (plainCriterion e ds) [x] limits size).run.run σ
        ∃ outcome, cached.1 = .ok outcome ∧ plain.1 = .ok outcome ∧
          cached.2.store.read = plain.2.store.read := by
  intro x e limits size σ
  have hvariable : Workbench.Reachable (α := Float) ⟨[x, zero, one], 3, .empty⟩ :=
    Workbench.Reachable.start.perform (a := .node (.var "x"))
      (by simp [Workbench.Admits, Shape.refs, Shape.children])
  have hoffers : σ.Offers e :=
    ⟨[e, x, zero, one], hvariable.perform (a := .node (.unary .square x))
      (by simp [Workbench.Admits, Shape.refs, Shape.children]), List.mem_cons_self⟩
  have hstore : σ.store.Reachable := (Store.Reachable.empty.write 2 3).nextGeneration
  have hsolverless : e.Solverless := by
    simp [e, x, throughout_node, Shape.refs, Shape.children]
  have hvars : ∀ y ∈ [x], y.isVariable = true := by
    intro y hy
    rw [List.mem_singleton.mp hy]
    rfl
  have hfirst : ∀ g, some 1 = some g →
      g ≤ σ.store.generation ∧ ∀ id, (σ.store.slot id).holds g = false := by
    rintro g ⟨⟩
    refine ⟨Nat.le_refl 1, fun id => ?_⟩
    show ((Store.empty : Store Float).slot id).holds 1 = false
    simp [Store.slot, Store.empty, Slot.empty, Slot.holds]
  exact ⟨hoffers, hstore, hsolverless, hvars, hfirst,
    step_cached hoffers hstore hsolverless hvars limits size hfirst⟩

end FormulaGraph
