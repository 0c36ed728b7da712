import FormulaGraph.Proofs.Scoping
import FormulaGraph.Proofs.Sequencing
import Mathlib.Control.Monad.Writer

/-!
# The trials of a search

A search asks for the body of a solver at some values and never at others.  Run with a
note taken of every value it asks for, it tells which (`Solver.trials`); and two
searches between the same numbers find the same root if their bodies have the same
values at the trial values of one of them (`Solver.rootBetween_congr_of_trials`).

So what has to be defined for the value of a formula to be made of numbers throughout is
what is needed at the valuation itself, and the bodies of its solvers at their trial
values (`DefinedInTrials`).
-/

namespace FormulaGraph

/-! ## Searches that take notes -/

section

variable {α : Type}

/-- If all values noted are good, the computation answers `b`. -/
def AnswersIf (good : α → Prop) {β : Type} (x : WriterT (List α) Id β) (b : β) : Prop :=
  (∀ v ∈ x.run.2, good v) → x.run.1 = b

theorem AnswersIf.answering (good : α → Prop) : Answering (fun _ => AnswersIf good) where
  pure _ := fun _ => rfl
  bind {_ _ x f b _} hx hf := by
    intro hgood
    have hb : x.run.1 = b := hx fun v hv => hgood v (List.mem_append_left _ hv)
    have hrest : ∀ v ∈ (f x.run.1).run.2, good v := fun v hv =>
      hgood v (List.mem_append_right _ hv)
    rw [hb] at hrest
    have hc := hf hrest
    rw [← hb] at hc
    exact hc

end

namespace Solver

variable {α : Type} [Scalar α]

/-- The value of the body at a trial value, which is noted. -/
def notedBody (s : Solver α (Formula α)) (ρ : Valuation α) (x : α) : WriterT (List α) Id α := do
  tell [x]
  return s.bodyAt ρ x

/-- The condition of the search, with a note taken if it asks for the body. -/
def notedPast (s : Solver α (Formula α)) (ρ : Valuation α) (x : α) :
    WriterT (List α) Id Bool := do
  if Formula.guardHolds (ρ.set s.bound.id x) x s.guard then
    return Scalar.less (← s.notedBody ρ x) 0
  else
    return false

/-- The search between two numbers, with notes taken. -/
def noted (s : Solver α (Formula α)) (ρ : Valuation α) (low high precision : α) :
    WriterT (List α) Id (SearchResult α) :=
  BracketSearch.run low high precision (s.notedPast ρ) (s.notedBody ρ)

/-- The values at which the search between two numbers asks for the body. -/
def trials (s : Solver α (Formula α)) (ρ : Valuation α) (low high precision : α) : List α :=
  (s.noted ρ low high precision).run.2

variable {s s' : Solver α (Formula α)} {ρ σ : Valuation α} {good : α → Prop}

theorem notedBody_answers {f : α → α} (hf : ∀ x, good x → s.bodyAt σ x = f x) (x : α) :
    AnswersIf good (s.notedBody σ x) (f x) :=
  fun hgood => hf x (hgood x (List.mem_append_left _ (List.mem_singleton_self x)))

theorem notedPast_answers {f : α → α} (hf : ∀ x, good x → s.bodyAt σ x = f x) (x : α) :
    AnswersIf good (s.notedPast σ x)
      (Formula.guardHolds (σ.set s.bound.id x) x s.guard && Scalar.less (f x) 0) := by
  rw [notedPast]
  cases Formula.guardHolds (σ.set s.bound.id x) x s.guard with
  | true =>
      exact (AnswersIf.answering good).bind (notedBody_answers hf x)
        ((AnswersIf.answering good).pure _)
  | false => exact (AnswersIf.answering good).pure _

/-- With another body that has the same values at all good trial values, the search finds
what it finds with its own if all the values noted are good. -/
theorem noted_answers {f : α → α} (hf : ∀ x, good x → s.bodyAt σ x = f x)
    (low high precision : α) :
    AnswersIf good (s.noted σ low high precision)
      (BracketSearch.run (m := Id) low high precision
        (fun x => Formula.guardHolds (σ.set s.bound.id x) x s.guard && Scalar.less (f x) 0)
        fun x => f x) :=
  (AnswersIf.answering good).run (notedPast_answers hf) (notedBody_answers hf) _ _ _

/-- Taking notes makes no difference to the root. -/
theorem noted_root (s : Solver α (Formula α)) (σ : Valuation α) (low high precision : α) :
    (s.noted σ low high precision).run.1.root = s.rootBetween σ low high precision :=
  congrArg SearchResult.root
    (noted_answers (fun _ (_ : True) => rfl) low high precision fun _ _ => trivial)

/-- **A search depends on its trials only.**  With guards that admit the same values and
bodies that agree at the trial values of one search, the other finds the same root. -/
theorem rootBetween_congr_of_trials {low high precision : α}
    (hguard : ∀ x, Formula.guardHolds (ρ.set s'.bound.id x) x s'.guard =
      Formula.guardHolds (σ.set s.bound.id x) x s.guard)
    (hbody : ∀ x ∈ s.trials σ low high precision, s'.bodyAt ρ x = s.bodyAt σ x) :
    s'.rootBetween ρ low high precision = s.rootBetween σ low high precision := by
  have hpast : ∀ x, s'.isPast ρ x =
      (Formula.guardHolds (σ.set s.bound.id x) x s.guard && Scalar.less (s'.bodyAt ρ x) 0) :=
    fun x => by rw [isPast, hguard]
  have hother := noted_answers (f := s'.bodyAt ρ) (fun x hx => (hbody x hx).symm) low high
    precision fun _ h => h
  rw [← noted_root s, hother, rootBetween, funext hpast]

/-- A search whose condition never holds finds nothing. -/
theorem rootBetween_of_never_past (h : ∀ x, s.isPast ρ x = false) (low high precision : α) :
    s.rootBetween ρ low high precision = Scalar.nan := by
  have hpast : s.isPast ρ = fun _ => false := funext h
  rw [rootBetween, hpast]
  rfl

end Solver

/-! ## A bracket to begin with -/

section Bracket

open PartialReal

variable {low high precision a b : ℝ}

/-- A bracket no wider than the precision is not halved. -/
theorem BracketSearch.bisect_of_width {m : Type → Type} [Monad m] {past : PartialReal → m Bool}
    (h : high - low ≤ precision) (left bisections : Nat) :
    bisect past (real precision) left ⟨real low, real high⟩ bisections =
      pure (⟨real low, real high⟩, bisections) := by
  cases left with
  | zero => rfl
  | succ left => simp [bisect, h]

variable {q : Solver PartialReal (Formula PartialReal)} {ρ : Valuation PartialReal}

theorem Solver.notedPast_eq (hguard : q.guard = none) (x : PartialReal) :
    q.notedPast ρ x = (do tell [x]; return q.isPast ρ x) := by
  rw [notedPast, isPast, hguard]
  rfl

/-- The secant step from a value that is not negative to one that is. -/
theorem BracketSearch.secant_of_signs (hle : low ≤ high) (ha : 0 ≤ a)
    (hb : b < 0) :
    secant ⟨real low, real high⟩ (real a) (real b) =
      real (low + (high - low) * a / (a - b)) := by
  have hdrop : 0 < a - b := by linarith
  have hcrossing : low - (high - low) * a / (b - a) = low + (high - low) * a / (a - b) := by
    rw [← neg_sub a b, div_neg, sub_neg_eq_add]
  have hshare : 0 ≤ (high - low) * a / (a - b) :=
    div_nonneg (mul_nonneg (by linarith) ha) hdrop.le
  have hshare' : (high - low) * a / (a - b) ≤ high - low := by
    rw [div_le_iff₀ hdrop]
    exact mul_le_mul_of_nonneg_left (by linarith) (by linarith)
  have hdiffer : ¬ (real a == real b) = true := by
    rw [beq_real]
    linarith
  have hne : b - a ≠ 0 := by linarith
  rw [secant, if_neg hdiffer, real_sub, real_sub, real_mul, real_div _ hne, real_sub, hcrossing]
  show Scalar.larger (real low) (Scalar.smaller (real high) _) = _
  rw [smaller_real, larger_real, min_eq_right (by linarith), max_eq_right (by linarith)]

section

variable (hguard : q.guard = none) (ha : q.bodyAt ρ (real low) = real a)
  (hb : q.bodyAt ρ (real high) = real b) (hpositive : 0 ≤ a) (hnegative : b < 0)
  (hwidth : high - low ≤ precision)

include hguard ha hb hpositive hnegative hwidth

/-- A search that begins with a narrow bracket ends with a secant step. -/
theorem Solver.noted_of_bracket :
    (q.noted ρ (real low) (real high) (real precision)).run =
      (⟨BracketSearch.secant ⟨real low, real high⟩ (real a) (real b), 0, 0⟩,
        [real low, real high, real low, real high]) := by
  have hlow : q.isPast ρ (real low) = false := by
    simp [isPast, hguard, Formula.guardHolds, ha, Bool.eq_false_iff, hpositive]
  have hhigh : q.isPast ρ (real high) = true := by
    simp [isPast, hguard, Formula.guardHolds, hb, hnegative]
  simp [noted, BracketSearch.run, notedPast_eq hguard, notedBody, hlow, maxDoublings,
    BracketSearch.expand, hhigh, BracketSearch.bisect_of_width hwidth, ha, hb]
  rfl

theorem Solver.trials_of_bracket :
    q.trials ρ (real low) (real high) (real precision) =
      [real low, real high, real low, real high] :=
  congrArg Prod.snd (noted_of_bracket hguard ha hb hpositive hnegative hwidth)

/-- A solver finds where the line through the values of its body at the ends of a narrow
bracket crosses zero. -/
theorem Formula.value_solver_of_bracket (id : NodeId) (hlow : value ρ q.low = real low)
    (hhigh : value ρ q.high = real high) (hprecision : value ρ q.precision = real precision)
    (hle : low ≤ high) :
    value ρ (node id (.solver q)) = real (low + (high - low) * a / (a - b)) := by
  rw [value_solver, hlow, hhigh, hprecision, ← Solver.noted_root,
    Solver.noted_of_bracket hguard ha hb hpositive hnegative hwidth]
  exact BracketSearch.secant_of_signs hle hpositive hnegative

end

/-- Where the body falls with the slope minus one, its zero is found. -/
theorem Formula.value_solver_of_difference {c : ℝ} (hguard : q.guard = none)
    (hbody : ∀ v, q.bodyAt ρ (real v) = real (c - v)) (hlow : value ρ q.low = real low)
    (hhigh : value ρ q.high = real high) (hprecision : value ρ q.precision = real precision)
    (hle : low ≤ c) (hlt : c < high) (hwidth : high - low ≤ precision) (id : NodeId) :
    value ρ (node id (.solver q)) = real c := by
  have hroot := value_solver_of_bracket hguard (hbody low) (hbody high) (by linarith)
    (by linarith) hwidth id hlow hhigh hprecision (by linarith)
  have hdrop : c - low - (c - high) = high - low := by ring
  have hne : high - low ≠ 0 := by linarith
  rwa [hdrop, mul_div_cancel_left₀ _ hne, add_sub_cancel] at hroot

end Bracket

/-! ## Defined in all trials -/

namespace Formula

open PartialReal

variable {ρ ρ' σ : Valuation PartialReal}

theorem mem_passParts_of_mem_neededInPass {shape : Shape PartialReal (Formula PartialReal)}
    {c : Formula PartialReal} (hc : c ∈ neededInPass ρ shape) : c ∈ shape.passParts := by
  cases shape with
  | solver s => exact hc
  | _ => exact mem_children_of_mem_needed (mem_needed_of_mem_neededInPass hc)

theorem neededInPass_congr {id : NodeId} {shape : Shape PartialReal (Formula PartialReal)}
    (h : ∀ v, (node id shape).Free v → ρ v = ρ' v) :
    neededInPass ρ shape = neededInPass ρ' shape := by
  cases shape with
  | conditional op c a b =>
      have hc : value ρ c = value ρ' c := value_congr fun v hv =>
        h v (.pass (by simp [Shape.passParts, Shape.children]) hv)
      simp only [neededInPass, needed, hc]
  | _ => rfl

/-- Whether a formula is defined depends on its free variables only. -/
theorem Defined.congr {e : Formula PartialReal} (he : e.Defined ρ)
    (h : ∀ v, e.Free v → ρ v = ρ' v) : e.Defined ρ' := by
  induction he with
  | @node id shape here _ ih =>
      rw [value_congr h] at here
      refine .node here ?_
      rw [← neededInPass_congr h]
      intro c hc
      exact ih c hc fun v hv => h v (.pass (mem_passParts_of_mem_neededInPass hc) hv)

/-- All values of which that of the formula is made are defined, those of the trials
included. -/
inductive DefinedInTrials : Valuation PartialReal → Formula PartialReal → Prop
  | node {σ : Valuation PartialReal} {id : NodeId}
      {shape : Shape PartialReal (Formula PartialReal)}
      (here : value σ (node id shape) ≠ undefined)
      (needed : ∀ c ∈ neededInPass σ shape, DefinedInTrials σ c)
      (trials : ∀ s, shape = .solver s →
        ∀ x ∈ s.trials σ (value σ s.low) (value σ s.high) (value σ s.precision),
          DefinedInTrials (σ.set s.bound.id x) s.body) :
      DefinedInTrials σ (node id shape)

/-- What has to be defined at a node: its value, what is needed for it, and at the trial values of
a solver its body. -/
theorem definedInTrials_node {id : NodeId} {shape : Shape PartialReal (Formula PartialReal)} :
    (node id shape).DefinedInTrials σ ↔ value σ (node id shape) ≠ undefined ∧
      (∀ c ∈ neededInPass σ shape, c.DefinedInTrials σ) ∧
      ∀ s, shape = .solver s →
        ∀ x ∈ s.trials σ (value σ s.low) (value σ s.high) (value σ s.precision),
          s.body.DefinedInTrials (σ.set s.bound.id x) := by
  refine ⟨fun h => ?_, fun h => .node h.1 h.2.1 h.2.2⟩
  cases h with
  | node here needed trials => exact ⟨here, needed, trials⟩

theorem DefinedInTrials.here {e : Formula PartialReal} (he : e.DefinedInTrials σ) :
    value σ e ≠ undefined := by
  cases he with
  | node here _ _ => exact here

theorem DefinedInTrials.needed {c e : Formula PartialReal} (he : e.DefinedInTrials σ)
    (hc : c ∈ neededInPass σ e.shape) : c.DefinedInTrials σ := by
  cases he with
  | node _ needed _ => exact needed c hc

theorem DefinedInTrials.trial {e : Formula PartialReal}
    {s : Solver PartialReal (Formula PartialReal)} (he : e.DefinedInTrials σ)
    (hs : e.shape = .solver s) {x : PartialReal}
    (hx : x ∈ s.trials σ (value σ s.low) (value σ s.high) (value σ s.precision)) :
    s.body.DefinedInTrials (σ.set s.bound.id x) := by
  cases he with
  | node _ _ trials => exact trials s hs x hx

/-- Without solvers there are no trials. -/
theorem Defined.definedInTrials {e : Formula PartialReal} (he : e.Defined σ)
    (hfree : e.SolverFree) : e.DefinedInTrials σ := by
  induction he with
  | node here _ ih =>
      refine .node here ?_ fun s hs => absurd hs (hfree.here s)
      intro c hc
      exact ih c hc (hfree.child (mem_children_of_mem_needed (mem_needed_of_mem_neededInPass hc)))

end Formula

end FormulaGraph
