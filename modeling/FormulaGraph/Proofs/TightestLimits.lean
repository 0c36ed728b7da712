import FormulaGraph.Proofs.StepHistory

/-!
# Which limit stops a step, and how far a step goes

In exact arithmetic, and as long as the variables are within their limits when the
direction is computed, a round that puts a variable on a limit chooses among the limits
its full step would violate one that is met first (`Step.chooses_of_verdict`).  The scan
over the limits shortens the step again and again, and tests every limit with the step as
it is by then; so what is carried along is not that the limits seen are kept to, but that
none of those violated by the full step is met before the present one
(`Step.Reach.Tightest`).

A round that no limit stops moves the active variables against their derivatives, so far
that the criterion, were it linear, would fall by the amount aimed at
(`Step.descends_of_verdict`).

Together they account for every round of a step (`step_account`), whatever the criterion
does to the session, as long as it does not take the variables out of their limits.
-/

namespace FormulaGraph

open PartialReal

namespace Step

variable {unknowns : List (Formula PartialReal)} {limits : List (Limit PartialReal)}
  {direction : List PartialReal} {active : List Bool} {ρ : Valuation PartialReal}
  {size : StepSize PartialReal} {c : Criterion PartialReal}

/-! ## The limit met first -/

/-- The multiple of the direction a round goes unless a limit stops it. -/
def fullCoeff {α : Type} [Scalar α] (size : StepSize α) (active : List Bool) (c : Criterion α) :
    α :=
  StepSize.fall size c.value / Scalar.abs (slope c.derivatives (Step.direction c.derivatives active)
    active)

/-- The multiple of the direction that takes a variable to the limit, if it moves by `v`. -/
def scaleTo {α : Type} [Scalar α] (l : Limit α) (ρ : Valuation α) (v : α) : α :=
  l.distance (ρ l.bounded.id) / v

/-- A limit on an active variable, which moves by `v` and would cross the limit at a multiple
of the direction. -/
structure CrossesAt (unknowns : List (Formula PartialReal)) (direction : List PartialReal)
    (active : List Bool) (ρ : Valuation PartialReal) (coeff : PartialReal)
    (l : Limit PartialReal) (i : Nat) (v : PartialReal) : Prop where
  concerns : Concerns unknowns direction active l i v
  exceeded : l.exceeded (ρ l.bounded.id) (v * coeff) = true

/-- After some limits have been looked at, the step, which may go as far as `full`, goes to
the first of those it would cross, and all the way if it would cross none. -/
structure Reach.Tightest (unknowns : List (Formula PartialReal)) (direction : List PartialReal)
    (active : List Bool) (ρ : Valuation PartialReal) (full : ℝ) (seen : List (Limit PartialReal))
    (r : Reach PartialReal) : Prop where
  coeff : ∃ c, 0 ≤ c ∧ c ≤ full ∧ r.coeff = real c
  stopped : ∀ l i, r.stopped = some (l, i) → l ∈ seen ∧
    ∃ v, CrossesAt unknowns direction active ρ (real full) l i v ∧ r.coeff = scaleTo l ρ v
  least : ∀ l ∈ seen, ∀ i v, CrossesAt unknowns direction active ρ (real full) l i v →
    Scalar.atMost r.coeff (scaleTo l ρ v) = true

end Step

/-- A limit that is met at some multiple of the direction and crossed further on is crossed
everywhere in between. -/
theorem Limit.exceeded_between {l : Limit PartialReal} {current v : PartialReal} {c c' full : ℝ}
    (hmet : current + v * real c' = l.value) (hend : l.exceeded current (v * real full) = true)
    (hlt : c' < c) (hle : c ≤ full) : l.exceeded current (v * real c) = true := by
  obtain ⟨x, m, a, rfl, hm, ha, hpos⟩ := Limit.exceeded_iff.mp hend
  cases v with
  | undefined => cases hm
  | real y =>
      obtain rfl : y * full = m := by simpa using hm
      have hmet : x + y * c' = a := by
        rw [ha] at hmet
        simpa using hmet
      have hfactor : 0 < (full - c') * (y * l.side.factor) := by
        rw [← hmet] at hpos
        linarith
      have hup : 0 < y * l.side.factor :=
        pos_of_mul_pos_right hfactor (sub_nonneg.mpr (hlt.le.trans hle))
      refine Limit.exceeded_iff.mpr ⟨x, y * c, a, rfl, rfl, ha, ?_⟩
      have hbeyond : 0 < (c - c') * (y * l.side.factor) := mul_pos (sub_pos.mpr hlt) hup
      rw [← hmet]
      linarith

namespace Step

variable {unknowns : List (Formula PartialReal)} {limits : List (Limit PartialReal)}
  {direction : List PartialReal} {active : List Bool} {ρ : Valuation PartialReal}
  {size : StepSize PartialReal} {c : Criterion PartialReal}

/-- A limit that is kept to before the step, and crossed at a multiple of the direction, is
met at a smaller one. -/
theorem CrossesAt.exists_scale {l : Limit PartialReal} {i : Nat} {v : PartialReal} {full : ℝ}
    (h : CrossesAt unknowns direction active ρ (real full) l i v) (hfull : 0 ≤ full)
    (hstart : l.exceeded (ρ l.bounded.id) 0 = false) :
    ∃ c, 0 ≤ c ∧ c ≤ full ∧ scaleTo l ρ v = real c ∧ ρ l.bounded.id + v * real c = l.value :=
  Limit.distance_div hstart h.exceeded hfull

theorem Reach.Tightest.shorten {full : ℝ} {seen : List (Limit PartialReal)}
    {r : Reach PartialReal} (h : r.Tightest unknowns direction active ρ full seen)
    {l : Limit PartialReal}
    (hstart : ∀ l' ∈ seen ++ [l], Listed unknowns l'.bounded.id →
      l'.exceeded (ρ l'.bounded.id) 0 = false) :
    (r.shorten unknowns direction active l (ρ l.bounded.id)).Tightest unknowns direction active
      ρ full (seen ++ [l]) := by
  obtain ⟨c, hc, hle, hcoeff⟩ := h.coeff
  have hfull : 0 ≤ full := hc.trans hle
  rcases r.shorten_cases l (ρ l.bounded.id) with ⟨hsame, hkept⟩ | ⟨i, v, hl, hexceeded, hstop⟩
  · rw [hsame]
    refine ⟨h.coeff, ?_, ?_⟩
    · intro l' i hstopped
      obtain ⟨hl', hv⟩ := h.stopped l' i hstopped
      exact ⟨List.mem_append_left _ hl', hv⟩
    · intro l' hl' i v hcrosses
      rcases List.mem_append.mp hl' with hl' | hl'
      · exact h.least l' hl' i v hcrosses
      · -- were the limit met before, the step as it is would cross it
        obtain rfl := List.mem_singleton.mp hl'
        obtain ⟨c', -, -, hscale, hmet⟩ := hcrosses.exists_scale hfull
          (hstart l' (by simp) (listed_of_place hcrosses.concerns.1))
        rw [hcoeff, hscale, atMost_real]
        by_contra hlt
        have hcrossed := Limit.exceeded_between hmet hcrosses.exceeded (not_le.mp hlt) hle
        rw [← hcoeff, hkept i v hcrosses.concerns] at hcrossed
        cases hcrossed
  · rw [hcoeff] at hexceeded
    have hlstart := hstart l (by simp) (listed_of_place hl.1)
    obtain ⟨c', hc', hle', hscale, -⟩ := Limit.distance_div hlstart hexceeded hc
    have hcrosses : CrossesAt unknowns direction active ρ (real full) l i v := by
      refine ⟨hl, ?_⟩
      by_contra hkept
      have hkept := Limit.not_exceeded_between hlstart (by simpa using hkept) hc hle
      rw [hkept] at hexceeded
      cases hexceeded
    rw [hstop]
    refine ⟨⟨c', hc', hle'.trans hle, hscale⟩, ?_, ?_⟩
    · rintro l' i' hstopped
      cases hstopped
      exact ⟨by simp, v, hcrosses, rfl⟩
    · intro l' hl' i' v' hcrosses'
      show Scalar.atMost (l.distance (ρ l.bounded.id) / v) _ = true
      rw [hscale]
      rcases List.mem_append.mp hl' with hl' | hl'
      · have hleast := h.least l' hl' i' v' hcrosses'
        obtain ⟨c'', -, -, hscale'', -⟩ := hcrosses'.exists_scale hfull
          (hstart l' (by simp [hl']) (listed_of_place hcrosses'.concerns.1))
        rw [hcoeff, hscale'', atMost_real] at hleast
        rw [hscale'', atMost_real]
        exact hle'.trans hleast
      · obtain rfl := List.mem_singleton.mp hl'
        obtain rfl := Option.some.inj (hl.1.symm.trans hcrosses'.concerns.1)
        obtain rfl := Option.some.inj (hl.2.2.symm.trans hcrosses'.concerns.2.2)
        rw [scaleTo, hscale, atMost_real]

/-- Where the full step goes some way, scanning all limits leaves the one met first. -/
theorem reach_tightest {full : ℝ} (hfull : fullCoeff size active c = real full) (hpos : 0 ≤ full)
    (hfeasible : Feasible unknowns limits ρ) :
    (reach unknowns limits size active c ρ).Tightest unknowns
      (Step.direction c.derivatives active) active ρ full limits := by
  have hstart : Reach.Tightest unknowns (Step.direction c.derivatives active) active ρ full []
      ⟨fullCoeff size active c, none⟩ :=
    ⟨⟨full, hpos, le_rfl, hfull⟩, by simp, by simp⟩
  exact reach_induction hstart fun seen r l hseen hr =>
    hr.shorten fun l' hl' hlisted => hfeasible l' (hseen l' hl') hlisted

/-- A step that has no length in numbers is stopped by no limit. -/
theorem reach_undefined (hfull : fullCoeff size active c = undefined) :
    reach unknowns limits size active c ρ = ⟨undefined, none⟩ := by
  refine reach_induction (P := fun _ r => r = ⟨undefined, none⟩) (by rw [← hfull]; rfl) ?_
  rintro seen r l - rfl
  rcases Reach.shorten_cases ⟨undefined, none⟩ l (ρ l.bounded.id) with
    ⟨hsame, -⟩ | ⟨i, v, -, hexceeded, -⟩
  · exact hsame
  · rw [mul_undefined] at hexceeded
    obtain ⟨_, _, _, _, hmove, _⟩ := Limit.exceeded_iff.mp hexceeded
    cases hmove

/-- How far the full step goes is a positive number, or none. -/
theorem fullCoeff_cases (hsize : size.Positive)
    (hslope : (slope c.derivatives (Step.direction c.derivatives active) active == 0) = false) :
    fullCoeff size active c = undefined ∨
      ∃ full, 0 < full ∧ fullCoeff size active c = real full := by
  obtain ⟨x, hx, hfall⟩ := exists_fall hsize c.value
  rw [fullCoeff, hfall]
  cases hvalue : slope c.derivatives (Step.direction c.derivatives active) active with
  | undefined => exact .inl rfl
  | real y =>
      have hy : y ≠ 0 := by
        rintro rfl
        rw [hvalue, zero_eq, (beq_real 0 0).mpr rfl] at hslope
        cases hslope
      exact .inr ⟨x / |y|, div_pos hx (abs_pos.mpr hy), real_div x (abs_ne_zero.mpr hy)⟩

/-- The limit a round puts a variable on: one that its full step would violate, and none of
those it would violate is met at a smaller multiple of the direction. -/
def Chooses (unknowns : List (Formula PartialReal)) (limits : List (Limit PartialReal))
    (size : StepSize PartialReal) (active : List Bool) (c : Criterion PartialReal)
    (ρ : Valuation PartialReal) (l : Limit PartialReal) (i : Nat) : Prop :=
  let crosses := CrossesAt unknowns (Step.direction c.derivatives active) active ρ
    (fullCoeff size active c)
  l ∈ limits ∧ ∃ v, crosses l i v ∧
    ∀ l' ∈ limits, ∀ i' v', crosses l' i' v' →
      Scalar.atMost (scaleTo l ρ v) (scaleTo l' ρ v') = true

theorem chooses_of_verdict (hsize : size.Positive) (hfeasible : Feasible unknowns limits ρ)
    {l : Limit PartialReal} {i : Nat}
    (h : verdict unknowns limits size active c ρ = .stopped l i) :
    Chooses unknowns limits size active c ρ l i := by
  obtain ⟨hslope, hstopped⟩ := stopped_of_verdict h
  rcases fullCoeff_cases hsize hslope with hundefined | ⟨full, hpos, hfull⟩
  · rw [reach_undefined hundefined] at hstopped
    cases hstopped
  · have htightest := reach_tightest hfull hpos.le hfeasible
    obtain ⟨hl, v, hcrosses, hcoeff⟩ := htightest.stopped l i hstopped
    unfold Chooses
    rw [hfull]
    refine ⟨hl, v, hcrosses, ?_⟩
    rw [← hcoeff]
    exact htightest.least

/-- A limit that the step as it is would cross stops it. -/
theorem Reach.shorten_of_exceeded {α : Type} [Scalar α] {unknowns : List (Formula α)}
    {direction : List α} {active : List Bool} {r : Reach α} {l : Limit α} {i : Nat}
    {v current : α} (hplace : place? unknowns l.bounded.id = some i)
    (hactive : active[i]? = some true) (hdirection : direction[i]? = some v)
    (h : l.exceeded current (v * r.coeff) = true) :
    r.shorten unknowns direction active l current = ⟨l.distance current / v, some (l, i)⟩ := by
  simp only [shorten, hplace, hactive, hdirection, h, if_true]

theorem verdict_of_stopped {α : Type} [Scalar α] {unknowns : List (Formula α)}
    {limits : List (Limit α)} {size : StepSize α} {c : Criterion α} {ρ : Valuation α}
    {l : Limit α} {i : Nat} (hlength : c.derivatives.length = unknowns.length)
    (hslope : (slope c.derivatives (Step.direction c.derivatives active) active == 0) = false)
    (hstopped : (reach unknowns limits size active c ρ).stopped = some (l, i)) :
    verdict unknowns limits size active c ρ = .stopped l i := by
  simp [verdict, hlength, hslope, hstopped]

/-! ## How far a step goes -/

/-- The derivatives by the variables that are active. -/
def activeDerivatives {α : Type} (derivatives : List α) (active : List Bool) : List α :=
  (derivatives.zip active).filterMap fun (d, isActive) => if isActive then some d else none

/-- The criterion falls by the square of every active derivative. -/
theorem slope_direction {α : Type} [Scalar α] (derivatives : List α) (active : List Bool) :
    slope derivatives (Step.direction derivatives active) active =
      Scalar.sum ((activeDerivatives derivatives active).map fun d => d * -d) := by
  rw [slope]
  congr 1
  induction derivatives generalizing active with
  | nil => rfl
  | cons d ds ih =>
      cases active with
      | nil => rfl
      | cons isActive active =>
          have hrest := ih active
          cases isActive with
          | false => exact hrest
          | true => exact congrArg (d * -d :: ·) hrest

/-- Numbers only, as a list of numbers. -/
theorem exists_reals {vs : List PartialReal} (h : ∀ v ∈ vs, v ≠ undefined) :
    ∃ xs : List ℝ, vs = xs.map real := by
  induction vs with
  | nil => exact ⟨[], rfl⟩
  | cons v vs ih =>
      obtain ⟨x, rfl⟩ := exists_real (h v List.mem_cons_self)
      obtain ⟨xs, rfl⟩ := ih fun w hw => h w (List.mem_cons_of_mem _ hw)
      exact ⟨x :: xs, rfl⟩

/-- No limit stopped the step, so it is the full one. -/
theorem coeff_of_unstopped {α : Type} [Scalar α] {unknowns : List (Formula α)}
    {limits : List (Limit α)} {size : StepSize α} {c : Criterion α} {ρ : Valuation α}
    (h : (reach unknowns limits size active c ρ).stopped = none) :
    (reach unknowns limits size active c ρ).coeff = fullCoeff size active c := by
  refine reach_induction (P := fun _ r => r.stopped = none → r.coeff = fullCoeff size active c)
    (fun _ => rfl) ?_ h
  intro seen r l _ hr hstopped
  unfold Reach.shorten at hstopped ⊢
  grind

theorem direction_place {α : Type} [Scalar α] {derivatives : List α} {active : List Bool} {i : Nat}
    {d : α} (hd : derivatives[i]? = some d) (hactive : active[i]? = some true) :
    (Step.direction derivatives active)[i]? = some (-d) := by
  have hzip : (derivatives.zip active)[i]? = some (d, true) :=
    List.getElem?_zip_eq_some.mpr ⟨hd, hactive⟩
  rw [Step.direction, List.getElem?_map, hzip]
  rfl

/-- The active variables move against their derivatives by one multiple of these, such that
the products of the derivatives and the moves add up to the fall aimed at; the others stay. -/
def Descends (unknowns : List (Formula PartialReal)) (size : StepSize PartialReal)
    (active : List Bool) (c : Criterion PartialReal) (before after : Valuation PartialReal) :
    Prop :=
  ∃ k : ℝ, 0 < k ∧
    (∀ (i : Nat) (e : Formula PartialReal) (d : PartialReal), unknowns[i]? = some e →
      c.derivatives[i]? = some d →
      after e.id = if active[i]? = some true then before e.id + -d * real k else before e.id) ∧
    (∀ v, ¬ Listed unknowns v → after v = before v) ∧
    Scalar.sum ((activeDerivatives c.derivatives active).map fun d => d * (-d * real k)) =
      -Scalar.larger size.absolute (size.relative * Scalar.abs c.value)

/-- What the full step aims at is met exactly. -/
theorem sum_fullCoeff (hsize : size.Positive) {xs : List ℝ}
    (hxs : activeDerivatives c.derivatives active = xs.map real)
    (hslope : (slope c.derivatives (Step.direction c.derivatives active) active == 0) = false) :
    ∃ k : ℝ, 0 < k ∧ fullCoeff size active c = real k ∧
      Scalar.sum ((activeDerivatives c.derivatives active).map fun d => d * (-d * real k)) =
        -StepSize.fall size c.value := by
  obtain ⟨f, hf, hfall⟩ := exists_fall hsize c.value
  have hsum : ∀ (g : ℝ → ℝ) (h : PartialReal → PartialReal), (∀ x, h (real x) = real (g x)) →
      Scalar.sum ((activeDerivatives c.derivatives active).map h) = real (xs.map g).sum := by
    intro g h hgh
    rw [hxs, sum_eq, List.map_map, ← sum_map_real, List.map_map]
    congr 1
    exact List.map_congr_left fun x _ => hgh x
  have hslope' : slope c.derivatives (Step.direction c.derivatives active) active =
      real (xs.map fun x => x * -x).sum := by
    rw [slope_direction]
    exact hsum _ _ fun _ => rfl
  generalize hS : (xs.map fun x => x * -x).sum = S at hslope'
  have hnonpos : S ≤ 0 := by
    have hneg : (xs.map fun x => x * -x) = (xs.map fun x => x * x).map (-·) := by
      simp only [List.map_map, Function.comp_def, mul_neg]
    rw [← hS, hneg, ← List.sum_neg]
    exact neg_nonpos.mpr (sum_squares_nonneg xs)
  have hne : S ≠ 0 := by
    rintro rfl
    rw [hslope', zero_eq, (beq_real 0 0).mpr rfl] at hslope
    cases hslope
  refine ⟨f / |S|, div_pos hf (abs_pos.mpr hne), ?_, ?_⟩
  · rw [fullCoeff, hfall, hslope']
    exact real_div f (abs_ne_zero.mpr hne)
  · rw [hfall, hsum (fun x => x * -x * (f / |S|)) _ fun x => by rw [← mul_assoc]; rfl,
      List.sum_map_mul_right, hS, abs_of_nonpos hnonpos, neg_real]
    congr 1
    field_simp

theorem descends_of_verdict (hsize : size.Positive) (hnodup : (unknowns.map Formula.id).Nodup)
    (hdefined : ∀ d ∈ activeDerivatives c.derivatives active, d ≠ undefined)
    {coeff : PartialReal} (h : verdict unknowns limits size active c ρ = .moved coeff) :
    Descends unknowns size active c ρ
      (movedValues coeff unknowns (Step.direction c.derivatives active) active ρ) := by
  obtain ⟨hslope, hreach⟩ := moved_of_verdict h
  have hcoeff := coeff_of_unstopped (by rw [hreach])
  rw [hreach] at hcoeff
  obtain ⟨xs, hxs⟩ := exists_reals hdefined
  obtain ⟨k, hk, hfull, hsum⟩ := sum_fullCoeff hsize hxs hslope
  obtain rfl : coeff = real k := hcoeff.trans hfull
  refine ⟨k, hk, ?_, fun v hv => movedValues_other hv _ _ _, hsum⟩
  intro i e d he hd
  rw [movedValues_place hnodup he]
  by_cases hactive : active[i]? = some true
  · rw [if_pos hactive, hactive, direction_place hd hactive]
  · rw [if_neg hactive]
    split
    · next hactive' _ => exact absurd hactive' hactive
    · rfl

/-! ## All rounds -/

/-- Asking for the criterion does not take the variables out of their limits. -/
def KeepsLimits (criterion : Nat → Action PartialReal (Criterion PartialReal))
    (unknowns : List (Formula PartialReal)) (limits : List (Limit PartialReal)) : Prop :=
  ∀ n s, Feasible unknowns limits s.store.read →
    Feasible unknowns limits ((criterion n).run.run s).2.store.read

variable {criterion : Nat → Action PartialReal (Criterion PartialReal)}
  {before s s' : Session PartialReal} {history : List (Stop PartialReal)}

/-- Every round finds the variables within their limits. -/
theorem Enters.feasible (hsize : size.Positive) (hkeeps : KeepsLimits criterion unknowns limits)
    (hfeasible : Feasible unknowns limits before.store.read)
    (h : Enters criterion unknowns limits size before history active s) :
    Feasible unknowns limits s.store.read := by
  induction h with
  | first => exact hfeasible
  | @next history active s s' c l i h hleft hasked hverdict ih =>
      have hkept := hkeeps history.length s ih
      rw [hasked] at hkept
      rw [Session.write, Store.read_write]
      exact (boxed_of_stopped hsize hverdict ⟨hkept, fun _ _ => rfl⟩).feasible

/-- Once the last variable is put on a limit, none is active. -/
theorem Enters.none_active (h : Enters criterion unknowns limits size before history active s)
    (hlast : unknowns.length ≤ history.length + 1) {i : Nat} (hi : active[i]? = some true) :
    true ∉ active.set i false := by
  have hcount := h.count_active
  obtain ⟨hlt, hget⟩ := List.getElem?_eq_some_iff.mp hi
  rw [← List.count_eq_zero, List.count_set hlt, hget, if_pos (by decide), if_neg (by decide)]
  omega

end Step

/-- **What one step does.**  In exact arithmetic, let the variables be pairwise distinct and
within their limits, and let asking for the criterion not take them out of these.  A round
that a limit stops chooses, among the limits that its full step would violate, one that is
met first; the variable is put on that limit, and nothing else is changed before the next
round, if there is one.  And if in the end some variable is still active and the step was
made, the last round moves the active variables against their derivatives, so that the
products of derivatives and moves add up to the fall aimed at. -/
theorem step_account {unknowns : List (Formula PartialReal)} {limits : List (Limit PartialReal)}
    {size : StepSize PartialReal} (hvars : ∀ e ∈ unknowns, e.isVariable = true)
    (hnodup : (unknowns.map Formula.id).Nodup) (hsize : size.Positive)
    {criterion : Nat → Action PartialReal (Criterion PartialReal)}
    (hkeeps : Step.KeepsLimits criterion unknowns limits) {before : Session PartialReal}
    (hfeasible : Feasible unknowns limits before.store.read) :
    let made := (step criterion unknowns limits size).run.run before
    (∀ history active s c s' l i,
      Step.Enters criterion unknowns limits size before history active s →
      (criterion history.length).run.run s = (.ok c, s') →
      Step.verdict unknowns limits size active c s'.store.read = .stopped l i →
      Step.Chooses unknowns limits size active c s'.store.read l i ∧
      made = if history.length + 1 < unknowns.length then
          (Step.rounds criterion unknowns limits size (unknowns.length - (history.length + 1))
            (active.set i false) (history.length + 1)).run.run (s'.write l.bounded.id l.value)
        else (.ok ⟨true, history.length + 1⟩, s'.write l.bounded.id l.value)) ∧
    ∃ history active s flags,
      Step.Enters criterion unknowns limits size before history active s ∧
      Step.Ends criterion unknowns limits size history active s made.1 flags made.2 ∧
      ∀ n, made.1 = .ok ⟨true, n⟩ → true ∈ flags →
        ∃ c s', (criterion history.length).run.run s = (.ok c, s') ∧
          ((∀ d ∈ Step.activeDerivatives c.derivatives active, d ≠ undefined) →
            Step.Descends unknowns size active c s'.store.read made.2.store.read) := by
  intro made
  refine ⟨?_, ?_⟩
  · intro history active s c s' l i henters hasked hverdict
    have hkept := hkeeps history.length s (henters.feasible hsize hkeeps hfeasible)
    rw [hasked] at hkept
    refine ⟨Step.chooses_of_verdict hsize hkept hverdict, ?_⟩
    split
    · next hleft =>
        have hrun := (henters.next hleft hasked hverdict).step_run
        rwa [List.length_append, List.length_singleton] at hrun
    · next hlast =>
        show (step criterion unknowns limits size).run.run before = _
        rw [henters.step_run, Step.rounds_run, hasked]
        simp only [hverdict]
        generalize hcount : unknowns.length - history.length = left
        match left with
        | 0 | 1 => rfl
        | left + 2 => omega
  · obtain ⟨history, active, s, flags, henters, hends⟩ :=
      Step.exists_last_round criterion limits size hvars before
    refine ⟨history, active, s, flags, henters, hends, ?_⟩
    intro n hmade hflags
    change Step.Ends criterion unknowns limits size history active s made.1 flags made.2 at hends
    generalize made.1 = answer, made.2 = after at hmade hends ⊢
    cases hends with
    | failed hasked => cases hmade
    | refused hasked hverdict => cases hmade
    | level hasked hverdict => cases hmade
    | stopped hasked hverdict hlast =>
        exact absurd hflags (henters.none_active hlast (Step.of_verdict_stopped hverdict).2.2)
    | @moved c s' coeff store hasked hverdict hread =>
        refine ⟨c, s', hasked, fun hdefined => ?_⟩
        rw [hread]
        exact Step.descends_of_verdict hsize hnodup hdefined hverdict

/-- Making `x` smaller, from one down by two, where it may not fall below zero. -/
theorem step_account_of_limit :
    let x : Formula PartialReal := .node 2 (.var "x")
    let l : Limit PartialReal := ⟨⟨2, "x"⟩, real 0, .below⟩
    let size : StepSize PartialReal := ⟨real 2, real 0⟩
    let c : Criterion PartialReal := ⟨real 1, [real 1]⟩
    let σ : Session PartialReal := ⟨3, Store.empty.write 2 (real 1), ∅, .empty⟩
    (∀ e ∈ [x], e.isVariable = true) ∧ ([x].map Formula.id).Nodup ∧ size.Positive ∧
      Step.KeepsLimits (fun _ => pure c) [x] [l] ∧ Feasible [x] [l] σ.store.read ∧
      Step.Chooses [x] [l] size [true] c σ.store.read l 0 ∧
      (step (fun _ => pure c) [x] [l] size).run.run σ = (.ok ⟨true, 1⟩, σ.write 2 (real 0)) := by
  intro x l size c σ
  have hvars : ∀ e ∈ [x], e.isVariable = true := by
    intro e he
    rw [List.mem_singleton.mp he]
    rfl
  have hsize : size.Positive :=
    ⟨(less_real 0 2).mpr two_pos, (atMost_real 0 0).mpr le_rfl⟩
  have hkeeps : Step.KeepsLimits (fun _ => pure c) [x] [l] := fun _ _ h => h
  have hread : σ.store.read 2 = real 1 := by simp [σ, Store.read, Store.write]
  have hfeasible : Feasible [x] [l] σ.store.read := by
    intro l' hl' _
    rw [List.mem_singleton.mp hl']
    show l.exceeded (σ.store.read 2) 0 = false
    rw [hread]
    exact (Limit.exceeded_real rfl).mpr (by simp [l, Side.factor])
  have hdirection : Step.direction c.derivatives [true] = [real (-1)] := by
    simp [Step.direction, c]
  have hslope : Step.slope c.derivatives (Step.direction c.derivatives [true]) [true] =
      real (-1) := by
    simp [Step.slope_direction, Step.activeDerivatives, c, sum_eq]
  have hfull : Step.fullCoeff size [true] c = real 2 := by
    rw [Step.fullCoeff, hslope]
    show Scalar.larger (real 2) (real 0 * real |1|) / real |(-1)| = _
    rw [real_mul, larger_real, real_div _ (by norm_num)]
    norm_num
  have hexceeded : l.exceeded (σ.store.read 2) (real (-1) * real 2) = true := by
    rw [hread]
    exact Limit.exceeded_iff.mpr ⟨1, -2, 0, rfl, by simp, rfl, by norm_num [l, Side.factor]⟩
  have hverdict : Step.verdict [x] [l] size [true] c σ.store.read = .stopped l 0 := by
    refine Step.verdict_of_stopped rfl (by rw [hslope]; simp [Bool.eq_false_iff]) ?_
    show (Step.Reach.shorten [x] (Step.direction c.derivatives [true]) [true]
      ⟨Step.fullCoeff size [true] c, none⟩ l (σ.store.read 2)).stopped = _
    rw [hdirection, hfull, Step.Reach.shorten_of_exceeded rfl rfl rfl hexceeded]
    rfl
  have hround := (step_account hvars (List.nodup_singleton _) hsize hkeeps hfeasible).1
    [] [true] σ c σ l 0 .first rfl hverdict
  exact ⟨hvars, List.nodup_singleton _, hsize, hkeeps, hfeasible, hround⟩

/-- A criterion that writes variables may stop a step at a limit that the full step would not
violate: it has taken `x` past its limit, the step is shortened to the limit on `y` first,
and then does not take `x` back far enough. -/
theorem step_stopped_out_of_order :
    let x : Formula PartialReal := .node 2 (.var "x")
    let y : Formula PartialReal := .node 3 (.var "y")
    let lower : Limit PartialReal := ⟨⟨3, "y"⟩, real (-1), .below⟩
    let upper : Limit PartialReal := ⟨⟨2, "x"⟩, real 5, .above⟩
    let size : StepSize PartialReal := ⟨real 20, real 0⟩
    let c : Criterion PartialReal := ⟨real 20, [real 1, real 1]⟩
    let criterion : Nat → Action PartialReal (Criterion PartialReal) := fun _ => do
      modify fun s => s.write 2 (real 10)
      return c
    let σ : Session PartialReal := ⟨4, .empty, ∅, .empty⟩
    ([x, y].map Formula.id).Nodup ∧ size.Positive ∧ Feasible [x, y] [lower, upper] σ.store.read ∧
      Step.Enters criterion [x, y] [lower, upper] size σ [] [true, true] σ ∧
      ∃ s', (criterion 0).run.run σ = (.ok c, s') ∧
        Step.verdict [x, y] [lower, upper] size [true, true] c s'.store.read = .stopped upper 0 ∧
        ¬ Step.Chooses [x, y] [lower, upper] size [true, true] c s'.store.read upper 0 := by
  intro x y lower upper size c criterion σ
  have hsize : size.Positive :=
    ⟨(less_real 0 20).mpr (by norm_num), (atMost_real 0 0).mpr le_rfl⟩
  have hzero : ∀ v, σ.store.read v = real 0 := fun v => by simp [σ, Store.read, Store.empty]
  have hfeasible : Feasible [x, y] [lower, upper] σ.store.read := by
    intro l hl _
    rw [hzero]
    rcases List.mem_cons.mp hl with rfl | hl
    · exact (Limit.exceeded_real (a := -1) rfl).mpr (by norm_num [lower, Side.factor])
    · rw [List.mem_singleton.mp hl]
      exact (Limit.exceeded_real (a := 5) rfl).mpr (by norm_num [upper, Side.factor])
  have hx : (σ.write 2 (real 10)).store.read 2 = real 10 := by
    simp [Session.write, Store.read, Store.write]
  have hy : (σ.write 2 (real 10)).store.read 3 = real 0 := by
    rw [Session.write, Store.read_write]
    exact hzero 3
  have hdirection : Step.direction c.derivatives [true, true] = [real (-1), real (-1)] := by
    simp [Step.direction, c]
  have hslope : Step.slope c.derivatives (Step.direction c.derivatives [true, true]) [true, true] =
      real (-2) := by
    simp [Step.slope_direction, Step.activeDerivatives, c, sum_eq]
    norm_num
  have hfull : Step.fullCoeff size [true, true] c = real 10 := by
    rw [Step.fullCoeff, hslope]
    show Scalar.larger (real 20) (real 0 * real |20|) / real |(-2)| = _
    rw [real_mul, larger_real, real_div _ (by norm_num)]
    norm_num
  refine ⟨by decide, hsize, hfeasible, .first, σ.write 2 (real 10), rfl, ?_, ?_⟩
  · have hlower : lower.exceeded (real 0) (real (-1) * real 10) = true :=
      Limit.exceeded_iff.mpr
        ⟨0, -10, -1, rfl, by norm_num, rfl, by norm_num [lower, Side.factor]⟩
    have hscale : lower.distance (real 0) / real (-1) = real 1 := by
      rw [Limit.distance, real_sub, real_div _ (by norm_num)]
      norm_num
    have hupper : upper.exceeded (real 10) (real (-1) * real 1) = true :=
      Limit.exceeded_iff.mpr ⟨10, -1, 5, rfl, by norm_num, rfl, by norm_num [upper, Side.factor]⟩
    refine Step.verdict_of_stopped rfl (by rw [hslope]; simp [Bool.eq_false_iff]) ?_
    show (Step.Reach.shorten [x, y] (Step.direction c.derivatives [true, true]) [true, true]
      (Step.Reach.shorten [x, y] (Step.direction c.derivatives [true, true]) [true, true]
        ⟨Step.fullCoeff size [true, true] c, none⟩ lower ((σ.write 2 (real 10)).store.read 3))
      upper ((σ.write 2 (real 10)).store.read 2)).stopped = _
    have hfirst : Step.Reach.shorten [x, y] [real (-1), real (-1)] [true, true]
        ⟨real 10, none⟩ lower (real 0) = ⟨real 1, some (lower, 1)⟩ := by
      rw [Step.Reach.shorten_of_exceeded rfl rfl rfl hlower, hscale]
      rfl
    rw [hdirection, hfull, hx, hy, hfirst, Step.Reach.shorten_of_exceeded rfl rfl rfl hupper]
    rfl
  · rintro ⟨-, v, ⟨⟨-, -, hv⟩, hexceeded⟩, -⟩
    rw [hdirection] at hv
    obtain rfl : real (-1) = v := Option.some.inj hv
    have hkept : upper.exceeded (real 10) (real (-1) * real 10) = false :=
      (Limit.exceeded_real rfl).mpr (by norm_num [upper, Side.factor])
    rw [hfull, show upper.bounded.id = 2 from rfl, hx, hkept] at hexceeded
    cases hexceeded

end FormulaGraph
