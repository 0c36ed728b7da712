import FormulaGraph.Proofs.StepRounds
import FormulaGraph.Proofs.Workbench

/-!
# Derivatives taken in a session

A session holds a workbench among other things: the number free next and the derivatives
remembered.  Taking derivatives is work at this bench and changes nothing else, in
particular no variable and no slot.  So a gradient is made of derivatives that inherit
whatever can be inherited from the formula (`Formula.gradient_run`), and the bench stays one
that came about by work.

A step for a formula takes the gradient first; its rounds change the store alone
(`stepFormula_run`).
-/

namespace FormulaGraph

open Formula

variable {α : Type}

/-! ## Sessions -/

/-- Holding formulas for a while is undone at the end. -/
theorem Session.briefly_run {β : Type} (x : Action α β) (s : Session α) :
    (Session.briefly x).run.run s =
      ((x.run.run s).1, { (x.run.run s).2 with
        recollection := { (x.run.run s).2.recollection with held := s.recollection.held } }) :=
  rfl

/-- The session with another store. -/
def Session.Evaluated (s s' : Session α) : Prop := ∃ store, s' = { s with store }

theorem Session.Evaluated.refl (s : Session α) : s.Evaluated s := ⟨s.store, rfl⟩

theorem Session.Evaluated.trans {s t u : Session α} (h : s.Evaluated t) (h' : t.Evaluated u) :
    s.Evaluated u := by
  obtain ⟨store, rfl⟩ := h
  obtain ⟨store', rfl⟩ := h'
  exact ⟨store', rfl⟩

/-! ## The bench of a session -/

/-- The workbench of a session, with formulas at hand. -/
def Session.bench (s : Session α) (atHand : List (Formula α)) : Workbench α :=
  ⟨atHand, s.nextId, s.recollection⟩

/-- The formula came about by work at the bench of the session, maybe among others. -/
def Session.Offers [Scalar α] (s : Session α) (e : Formula α) : Prop :=
  ∃ atHand, (s.bench atHand).Reachable ∧ e ∈ atHand

variable [Scalar α] {s : Session α} {atHand : List (Formula α)} {e x : Formula α}

/-- All formulas at hand are entered in one directory. -/
theorem Workbench.Reachable.listed {w : Workbench α} (hw : w.Reachable) :
    ∃ D : Directory α, ∀ e ∈ w.atHand, e.ListedIn D := by
  obtain ⟨L, hL⟩ := hw.accounted trivial_handedOn
  exact ⟨L.directory, fun e he => (hL.known e he).listed⟩

theorem Workbench.Reachable.bequeaths {w : Workbench α} (hw : w.Reachable) (he : e ∈ w.atHand)
    (v : NodeId) : e.Bequeaths (w.derivative e v) := by
  obtain ⟨L, -, hderivative⟩ := hw.isDerivative trivial_handedOn he v
  exact hderivative.inherits

/-! ## One derivative, and several -/

/-- Taking a derivative in a session is work at its bench. -/
theorem Formula.derivativeBy_run (hx : x.isVariable = true) (atHand : List (Formula α)) :
    ∃ n r, (e.derivativeBy x).run.run s =
        (.ok ((s.bench atHand).derivative e x.id), { s with nextId := n, recollection := r }) ∧
      Session.bench { s with nextId := n, recollection := r }
          ((s.bench atHand).derivative e x.id :: atHand) =
        (s.bench atHand).perform (.derivative e x.id) := by
  obtain ⟨id, shape⟩ := x
  cases shape with
  | var name => exact ⟨_, _, rfl, rfl⟩
  | _ => cases hx

/-- The gradient with respect to variables is taken without fail.  It is at hand afterwards,
together with what was at hand before, and inherits from the formula. -/
theorem Formula.gradient_run (hw : (s.bench atHand).Reachable) (he : e ∈ atHand)
    {xs : List (Formula α)} (hxs : ∀ x ∈ xs, x.isVariable = true) :
    ∃ ds n r atHand', (e.gradient xs).run.run s =
        (.ok ds, { s with nextId := n, recollection := r }) ∧
      (Session.bench { s with nextId := n, recollection := r } atHand').Reachable ∧
      atHand ⊆ atHand' ∧ ds ⊆ atHand' ∧ (∀ d ∈ ds, e.Bequeaths d) ∧
      ds.length = xs.length := by
  induction xs generalizing s atHand with
  | nil => exact ⟨[], s.nextId, s.recollection, atHand, rfl, hw, by simp, by simp, by simp, rfl⟩
  | cons x xs ih =>
      obtain ⟨n, r, hrun, hbench⟩ :=
        derivativeBy_run (e := e) (s := s) (hxs x List.mem_cons_self) atHand
      have hd := hw.bequeaths he x.id
      have hw' := Workbench.Reachable.perform hw (a := .derivative e x.id) he
      rw [← hbench] at hw'
      generalize (s.bench atHand).derivative e x.id = d at hrun hd hw'
      obtain ⟨ds, n', r', atHand', hrest, hreachable, hkept, hds, hinherits, hlength⟩ :=
        ih hw' (List.mem_cons_of_mem d he) fun y hy => hxs y (List.mem_cons_of_mem x hy)
      refine ⟨d :: ds, n', r', atHand', ?_, hreachable, fun c hc => hkept (by simp [hc]), ?_, ?_,
        by simp [hlength]⟩
      · rw [gradient, List.mapM_cons, Action.run_bind_ok hrun]
        exact Action.run_bind_ok hrest
      · exact List.cons_subset.mpr ⟨hkept List.mem_cons_self, hds⟩
      · simpa using ⟨hd, hinherits⟩

/-- One derivative for each variable, all inheriting from the formula, and none bearing the
number of another node. -/
structure Formula.IsGradient (e : Formula α) (xs ds : List (Formula α)) : Prop where
  length : ds.length = xs.length
  inherits : ∀ d ∈ ds, e.Bequeaths d
  listed : ∃ D : Directory α, e.ListedIn D ∧ ∀ d ∈ ds, d.ListedIn D

/-! ## The criterion given by a formula -/

/-- The pass a round evaluates in, and the store it begins with. -/
def criterionPass (first : Option Generation) (round : Nat) (s : Store α) :
    Generation × Store α :=
  match first, round with
  | some g, 0 => (g, s)
  | _, _ => Evaluation.nextGeneration.run s

/-- The formula and its derivatives are evaluated one after the other in one pass. -/
theorem formulaCriterion_run (objective : Formula α) (ds : List (Formula α))
    (first : Option Generation) (round : Nat) (s : Session α) :
    (formulaCriterion objective ds first round).run.run s =
      let pass := criterionPass first round s.store
      let value := (objective.evaluateIn pass.1).run pass.2
      let values := (evaluateAllIn pass.1 ds).run value.2
      (.ok ⟨value.1, values.1⟩, { s with store := values.2 }) := by
  cases first with
  | none => rfl
  | some g =>
      cases round with
      | zero => rfl
      | succ round => rfl

/-- The rounds of a step for a formula change the store alone. -/
theorem step_evaluated (objective : Formula α) (ds : List (Formula α)) {unknowns : List (Formula α)}
    (hvars : ∀ e ∈ unknowns, e.isVariable = true) (limits : List (Limit α)) (size : StepSize α)
    (first : Option Generation) (s : Session α) :
    s.Evaluated
      ((step (formulaCriterion objective ds first) unknowns limits size).run.run s).2 := by
  refine Step.rounds_keeps (P := s.Evaluated) hvars ?_ ?_ ?_ _ _ _ s (.refl s)
  · intro n s' hs
    rw [formulaCriterion_run]
    exact hs.trans ⟨_, rfl⟩
  · intro s' _ _ l _ hs _
    exact hs.trans ⟨_, rfl⟩
  · intro s' _ _ _ store hs _ _ _
    exact hs.trans ⟨store, rfl⟩

/-- **A step for a formula** is a step for the criterion made of the formula and its
gradient.  Afterwards the formula is still on offer. -/
theorem stepFormula_run {objective : Formula α} (hobjective : s.Offers objective)
    {unknowns : List (Formula α)} (hvars : ∀ e ∈ unknowns, e.isVariable = true)
    (limits : List (Limit α)) (size : StepSize α) (first : Option Generation) :
    ∃ ds s', (objective.gradient unknowns).run.run s = (.ok ds, s') ∧ s'.store = s.store ∧
      objective.IsGradient unknowns ds ∧
      let cached := (stepFormula objective unknowns limits size first).run.run s
      let made := (step (formulaCriterion objective ds first) unknowns limits size).run.run s'
      cached.1 = made.1 ∧ cached.2.store = made.2.store ∧ cached.2.Offers objective := by
  obtain ⟨atHand, hw, he⟩ := hobjective
  obtain ⟨ds, n, r, atHand', hgradient, hreachable, hkept, hds, hinherits, hlength⟩ :=
    gradient_run hw he hvars
  have hrun : (stepFormula objective unknowns limits size first).run.run s = _ :=
    Session.briefly_run _ s
  rw [Action.run_bind_ok hgradient] at hrun
  obtain ⟨D, hD⟩ := hreachable.listed
  obtain ⟨store, hevaluated⟩ := step_evaluated objective ds hvars limits size first
    { s with nextId := n, recollection := r }
  refine ⟨ds, _, hgradient, rfl, ⟨hlength, hinherits, D, hD objective (hkept he),
    fun d hd => hD d (hds hd)⟩, ?_⟩
  rw [hrun]
  refine ⟨rfl, rfl, ?_⟩
  rw [hevaluated]
  exact ⟨atHand', hreachable.perform (a := .hold s.recollection.held) trivial, hkept he⟩

end FormulaGraph
