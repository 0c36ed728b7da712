import FormulaGraph.Proofs.DerivativeValue

/-!
# Derivatives mean rates

At a point that is not regular a formula need have no slope, but its derivative has a value
all the same: quotients by zero are zero, in the rules of calculus as in the derivatives
built by them.  So wherever a formula is defined, and what its tables take their slopes
from is (`Sloped`), its derivative means its rate while the variable alone moves, at
velocity one.

Tables are included here.  A table of numbers has a slope at every number
(`interpolate_defined`); one that comes with a derivative has the slope this is at the
valuation, wherever the argument of the table may be.
-/

namespace FormulaGraph

open PartialReal

/-! ## Tables of numbers -/

namespace Table

/-- All that the table is made of are numbers, and its points are apart. -/
structure IsNumeric {ε : Type} (t : Table PartialReal ε) : Prop where
  values : ∀ i (h : i < t.values.size), t.values[i] ≠ undefined
  min : t.min ≠ undefined
  step : ∃ s : ℝ, s ≠ 0 ∧ t.step = real s

variable {ε : Type} {t : Table PartialReal ε}

/-- A table is only made of points that are apart. -/
theorem isNumeric_of_ofValues {name : String} {values : Array PartialReal}
    {min step : PartialReal} {derivative : Option ε} (hvalues : ∀ v ∈ values, v ≠ undefined)
    (hmin : min ≠ undefined)
    (h : ofValues name values min step derivative = .ok t) : t.IsNumeric := by
  rw [ofValues] at h
  split at h
  · split at h
    · next hstep =>
        cases h
        cases step with
        | undefined => cases hstep
        | real s =>
            have hpositive : 0 < s := (less_real 0 s).mp hstep
            exact ⟨fun i hi => hvalues _ (Array.getElem_mem hi), hmin, s, hpositive.ne', rfl⟩
    · cases h
  · cases h

/-- The values of a numeric table are numbers. -/
theorem IsNumeric.value (h : t.IsNumeric) (i : Nat) (hi : i < t.values.size) :
    ∃ x, t.values[i] = real x :=
  exists_real (h.values i hi)

/-- Between numbers and beyond them there are numbers. -/
theorem IsNumeric.interpolate_defined (h : t.IsNumeric) (y : ℝ) :
    t.interpolate (real y) ≠ undefined := by
  obtain ⟨s, hs, hstep⟩ := h.step
  obtain ⟨m, hm⟩ := exists_real h.min
  have hposition : t.position (real y) = real ((y - m) / s) := by
    simp [position, hm, hstep, real_div _ hs]
  obtain ⟨x, hx⟩ := h.value _ (Nat.lt_of_succ_lt (t.segment_lt (real ((y - m) / s))))
  obtain ⟨x', hx'⟩ := h.value _ (t.segment_lt (real ((y - m) / s)))
  simp only [interpolate, hposition, hx, hx']
  show real x * (real 1 - (real _ - real _)) + real x' * (real _ - real _) ≠ undefined
  simp

/-- The slopes of a numeric table are numbers, since its step is not zero. -/
theorem IsNumeric.slope_defined (h : t.IsNumeric) (i : Nat) (hi : i < t.values.size) :
    t.slope i hi ≠ undefined := by
  obtain ⟨s, hs, hstep⟩ := h.step
  have hdifference : ∀ {j k : Nat} (hj : j < t.values.size) (hk : k < t.values.size) {c : ℝ},
      c ≠ 0 → (t.values[j] - t.values[k]) / real c ≠ undefined := by
    intro j k hj hk c hc
    obtain ⟨x, hx⟩ := h.value j hj
    obtain ⟨y, hy⟩ := h.value k hk
    rw [hx, hy, real_sub, real_div _ hc]
    simp
  rw [slope, hstep]
  split
  · exact hdifference _ _ hs
  · split
    · exact hdifference _ _ (mul_ne_zero two_ne_zero hs)
    · exact hdifference _ _ hs

/-- The differences of numbers are numbers. -/
theorem IsNumeric.finiteDifference (h : t.IsNumeric) : t.finiteDifference.IsNumeric where
  values i hi := by
    have hslope : t.finiteDifference.values[i] =
        t.slope i (by simpa [Table.finiteDifference] using hi) := by
      simp [Table.finiteDifference]
    rw [hslope]
    exact h.slope_defined i _
  min := h.min
  step := h.step

end Table

namespace Formula

/-- Only the variable `x` moves, at velocity one. -/
noncomputable def along (x : NodeId) : NodeId → ℝ := fun v => if v = x then 1 else 0

/-- What the table takes its slope from is defined, if the node is a table. -/
def TableAt (ρ : Valuation PartialReal) (_ : NodeId)
    (shape : Shape PartialReal (Formula PartialReal)) : Prop :=
  ∀ mark t a, shape = .tabulated mark t a → TableSloped ρ t (value ρ a)

/-- Nothing of which the value is made is undefined or a solver, and what the tables among
it take their slopes from is defined. -/
inductive Sloped (ρ : Valuation PartialReal) : Formula PartialReal → Prop
  | node {id : NodeId} {shape : Shape PartialReal (Formula PartialReal)}
      (here : value ρ (node id shape) ≠ undefined) (notSolver : ∀ s, shape ≠ .solver s)
      (table : TableAt ρ id shape) (needed : ∀ c ∈ needed ρ shape, Sloped ρ c) :
      Sloped ρ (node id shape)

variable {ρ : Valuation PartialReal} {x : NodeId} {L : Ledger PartialReal}

/-- What has slopes is no solver. -/
theorem Sloped.notSolver {e : Formula PartialReal} (he : e.Sloped ρ) :
    ∀ s, e.shape ≠ .solver s := by
  cases he with
  | node _ notSolver _ _ => exact notSolver

/-- The tables of what has slopes have slopes at the argument. -/
theorem Sloped.table {e : Formula PartialReal} (he : e.Sloped ρ) : TableAt ρ e.id e.shape := by
  cases he with
  | node _ _ table _ => exact table

/-- What its value needs has slopes. -/
theorem Sloped.needed {c e : Formula PartialReal} (he : e.Sloped ρ)
    (hc : c ∈ needed ρ e.shape) : c.Sloped ρ := by
  cases he with
  | node _ _ _ needed => exact needed c hc

/-- What has slopes is defined. -/
theorem Sloped.defined {e : Formula PartialReal} (he : e.Sloped ρ) : e.Defined ρ := by
  induction he with
  | node here _ _ _ ih => exact .node here fun c hc => ih c (mem_needed_of_mem_neededInPass hc)

/-- A defined formula without solvers has slopes, if its tables do. -/
theorem sloped_of_defined {e : Formula PartialReal} (he : e.Defined ρ) (hfree : e.SolverFree)
    (htables : e.Everywhere (TableAt ρ)) : e.Sloped ρ := by
  induction he with
  | @node id shape here _ ih =>
      refine .node here hfree.here htables.here fun c hc => ?_
      have hchild : c ∈ shape.children := mem_children_of_mem_needed hc
      have hneeded : c ∈ neededInPass ρ shape := by
        cases shape with
        | solver s => exact absurd rfl (hfree.here s)
        | _ => exact hc
      exact ih c hneeded (hfree.child hchild) (htables.child hchild)

/-- Rates obey the rules of calculus. -/
theorem rate_calculus :
    Calculus (fun _ ρ e => e.Sloped ρ) fun x ρ e => rate ρ (along x) e where
  defined h := h.defined
  needed h hc := h.needed hc
  const _ := by rw [rate]
  var_self _ := by rw [rate, along, if_pos rfl]
  var_other hid _ := by rw [rate, along, if_neg hid]
  unary _ := by rw [rate]
  binary _ := by rw [rate]
  assoc _ := by rw [rate, rates_eq_map]
  conditional _ := by
    rw [rate]
    split <;> rfl
  tabulated h := ⟨h.table _ _ _ rfl, by rw [rate]⟩
  solver h := h.notSolver _ rfl

/-- The derivative means the rate, wherever the formula is sloped. -/
abbrev MeansRate : NodeId → Formula PartialReal → Formula PartialReal → Prop :=
  Calculus.Meaning (fun _ ρ e => e.Sloped ρ) fun x ρ e => rate ρ (along x) e

/-- **Derivatives evaluate to rates.** -/
theorem IsDerivative.evaluate_run {e d : Formula PartialReal}
    (h : IsDerivative MeansRate x e L d) (he : e.Solverless) {s : Store PartialReal}
    (hs : s.Reachable) (hsloped : e.Sloped s.read) :
    (d.evaluate.run s).1 = real (rate s.read (along x) e) := by
  have hfree := (h.inherits _ solverless_inherited he).everywhere
  rw [Formula.evaluate_run hfree h.known.listed hs]
  exact (h.handedOn s.read hsloped).value_eq

end Formula

end FormulaGraph
