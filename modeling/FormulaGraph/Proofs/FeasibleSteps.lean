import FormulaGraph.Proofs.PartialReal
import FormulaGraph.Proofs.StepRounds

/-!
# Steps stay within their limits

In exact arithmetic a step never leaves the box its limits make, whatever the criterion
answers, undefined values included.  One round either puts one variable on its limit, or
moves all active ones so far that none of them crosses a limit.  The second is a matter of
convexity: a limit that is kept to at the beginning and after some multiple of the direction
is kept to after every smaller multiple, so that shortening the step to one limit does not
give way to another one seen before.
-/

namespace FormulaGraph

open PartialReal

/-! ## The box -/

section Box

variable {α : Type}

/-- The variable is one of the unknowns. -/
def Listed (unknowns : List (Formula α)) (v : NodeId) : Prop := ∃ e ∈ unknowns, e.id = v

variable [Scalar α]

/-- No limit on an unknown is exceeded. -/
def Feasible (unknowns : List (Formula α)) (limits : List (Limit α)) (ρ : Valuation α) : Prop :=
  ∀ l ∈ limits, Listed unknowns l.bounded.id → l.exceeded (ρ l.bounded.id) 0 = false

/-- The unknowns are within their limits, and all other variables as they were. -/
structure Boxed (unknowns : List (Formula α)) (limits : List (Limit α))
    (before after : Valuation α) : Prop where
  feasible : Feasible unknowns limits after
  others : ∀ v, ¬ Listed unknowns v → after v = before v

end Box

/-! ## Places -/

namespace Step

section Places

variable {α : Type} {unknowns : List (Formula α)}

theorem exists_of_place {v : NodeId} {i : Nat} (h : place? unknowns v = some i) :
    ∃ e, unknowns[i]? = some e ∧ e.id = v := by
  obtain ⟨j, hj, rfl⟩ := Option.map_eq_some_iff.mp h
  obtain ⟨hlt, hid, -⟩ := List.findIdx?_eq_some_iff_getElem.mp hj
  rw [List.getElem_reverse] at hid
  exact ⟨_, List.getElem?_eq_getElem (by grind), by simpa using hid⟩

theorem listed_of_place {v : NodeId} {i : Nat} (h : place? unknowns v = some i) :
    Listed unknowns v := by
  obtain ⟨e, he, hid⟩ := exists_of_place h
  exact ⟨e, List.mem_of_getElem? he, hid⟩

theorem exists_place {v : NodeId} (h : Listed unknowns v) : ∃ i, place? unknowns v = some i := by
  obtain ⟨e, he, hid⟩ := h
  cases hplace : unknowns.reverse.findIdx? (·.id == v) with
  | some j => exact ⟨_, by rw [place?, hplace]; rfl⟩
  | none =>
      have hne := List.findIdx?_eq_none_iff.mp hplace e (List.mem_reverse.mpr he)
      simp [hid] at hne

end Places

/-! ## Moving -/

section Moving

variable {α : Type} [Scalar α] {unknowns : List (Formula α)} {coeff : α}

theorem movedValues_other {v : NodeId} (h : ¬ Listed unknowns v) (direction : List α)
    (active : List Bool) (ρ : Valuation α) :
    movedValues coeff unknowns direction active ρ v = ρ v := by
  induction unknowns generalizing direction active ρ with
  | nil => simp [movedValues]
  | cons e es ih =>
      have hes : ¬ Listed es v := by
        rintro ⟨e', he', hid⟩
        exact h ⟨e', List.mem_cons_of_mem e he', hid⟩
      have hne : v ≠ e.id := fun heq => h ⟨e, List.mem_cons_self, heq.symm⟩
      cases direction with
      | nil => simp [movedValues]
      | cons d ds =>
          cases active with
          | nil => simp [movedValues]
          | cons isActive active =>
              rw [movedValues, ih hes]
              split
              · simp [Valuation.set, hne]
              · rfl

/-- Where no variable occurs twice, an active one moves along the direction, and the others
stay. -/
theorem movedValues_place (hnodup : (unknowns.map Formula.id).Nodup) {i : Nat} {e : Formula α}
    (he : unknowns[i]? = some e) (direction : List α) (active : List Bool) (ρ : Valuation α) :
    movedValues coeff unknowns direction active ρ e.id =
      match active[i]?, direction[i]? with
      | some true, some v => ρ e.id + v * coeff
      | _, _ => ρ e.id := by
  induction unknowns generalizing i direction active ρ with
  | nil => simp at he
  | cons e' es ih =>
      obtain ⟨hnotMem, hnodup⟩ := List.nodup_cons.mp hnodup
      cases direction with
      | nil => simp [movedValues]
      | cons d ds =>
          cases active with
          | nil => simp [movedValues]
          | cons isActive active =>
              cases i with
              | zero =>
                  obtain rfl : e' = e := by simpa using he
                  have hother : ¬ Listed es e'.id := by
                    rintro ⟨c, hc, hid⟩
                    exact hnotMem (List.mem_map.mpr ⟨c, hc, hid⟩)
                  rw [movedValues, movedValues_other hother]
                  cases isActive <;> simp [Valuation.set]
              | succ i =>
                  have he : es[i]? = some e := by simpa using he
                  have hne : e.id ≠ e'.id := fun heq =>
                    hnotMem (List.mem_map.mpr ⟨e, List.mem_of_getElem? he, heq⟩)
                  rw [movedValues, ih hnodup he]
                  cases isActive <;> simp [Valuation.set, hne]

end Moving

end Step

/-! ## Limits in exact arithmetic -/

/-- The direction in which a variable crosses the limit, as a real number. -/
def Side.factor : Side → ℝ
  | .above => 1
  | .below => -1

theorem Side.sign_eq (side : Side) : (side.sign : PartialReal) = real side.factor := by
  cases side with
  | above => rfl
  | below => simp [Side.sign, Side.factor]

namespace Limit

variable {l : Limit PartialReal}

/-- A limit is exceeded by real numbers only. -/
theorem exceeded_iff {current move : PartialReal} :
    l.exceeded current move = true ↔ ∃ x m a : ℝ, current = real x ∧ move = real m ∧
      l.value = real a ∧ 0 < (x + m - a) * l.side.factor := by
  rw [exceeded, l.side.sign_eq]
  refine ⟨fun h => ?_, ?_⟩
  · cases current with
    | undefined => cases (show false = true from h)
    | real x =>
        cases move with
        | undefined => cases (show false = true from h)
        | real m =>
            cases hvalue : l.value with
            | undefined =>
                rw [hvalue] at h
                cases (show false = true from h)
            | real a =>
                rw [hvalue] at h
                exact ⟨x, m, a, rfl, rfl, rfl, (less_real _ _).mp h⟩
  · rintro ⟨x, m, a, rfl, rfl, hvalue, hpos⟩
    rw [hvalue]
    exact (less_real _ _).mpr hpos

theorem exceeded_real {x m a : ℝ} (ha : l.value = real a) :
    l.exceeded (real x) (real m) = false ↔ (x + m - a) * l.side.factor ≤ 0 := by
  rw [← not_lt, ← Bool.not_eq_true, exceeded_iff]
  refine not_congr ⟨?_, fun h => ⟨x, m, a, rfl, rfl, ha, h⟩⟩
  rintro ⟨x', m', a', hx, hm, ha', hpos⟩
  cases hx
  cases hm
  cases ha.symm.trans ha'
  exact hpos

/-- The limit itself is within the limit. -/
theorem not_exceeded_self : l.exceeded l.value 0 = false := by
  by_contra hexceeded
  obtain ⟨x, m, a, hx, hm, ha, hpos⟩ := exceeded_iff.mp (by simpa using hexceeded)
  cases hx.symm.trans ha
  cases hm
  simp at hpos

/-- Having moved is as good as being about to move. -/
theorem exceeded_add (current move : PartialReal) :
    l.exceeded (current + move) 0 = l.exceeded current move := by
  rw [exceeded, exceeded, add_zero]

/-- What is within the limit at the beginning and after a multiple of the direction is within
the limit after any smaller multiple. -/
theorem not_exceeded_between {current v : PartialReal} {c c' : ℝ}
    (hstart : l.exceeded current 0 = false) (hend : l.exceeded current (v * real c) = false)
    (h0 : 0 ≤ c') (hle : c' ≤ c) : l.exceeded current (v * real c') = false := by
  by_contra hexceeded
  obtain ⟨x, m, a, rfl, hm, ha, hpos⟩ := exceeded_iff.mp (by simpa using hexceeded)
  cases v with
  | undefined => cases hm
  | real y =>
      obtain rfl : y * c' = m := by simpa using hm
      have hx : (x + 0 - a) * l.side.factor ≤ 0 := (exceeded_real ha).mp hstart
      have hy : (x + y * c - a) * l.side.factor ≤ 0 := (exceeded_real ha).mp hend
      rcases le_total (y * l.side.factor) 0 with hdown | hup
      · nlinarith [mul_nonneg h0 (sub_nonneg.mpr hdown)]
      · nlinarith [mul_nonneg (sub_nonneg.mpr hle) hup]

/-- Where a variable within the limit would cross it, the limit lies at a smaller multiple of
the direction. -/
theorem distance_div {current v : PartialReal} {c : ℝ}
    (hstart : l.exceeded current 0 = false) (hend : l.exceeded current (v * real c) = true)
    (hc : 0 ≤ c) : ∃ c', 0 ≤ c' ∧ c' ≤ c ∧ l.distance current / v = real c' ∧
      current + v * real c' = l.value := by
  obtain ⟨x, m, a, rfl, hm, ha, hpos⟩ := exceeded_iff.mp hend
  cases v with
  | undefined => cases hm
  | real y =>
      obtain rfl : y * c = m := by simpa using hm
      have hx : (x + 0 - a) * l.side.factor ≤ 0 := (exceeded_real ha).mp hstart
      have hy : y ≠ 0 := by
        rintro rfl
        linarith
      have hbetween : 0 ≤ (a - x) / y ∧ (a - x) / y ≤ c := by
        cases hside : l.side with
        | above =>
            simp only [hside, Side.factor] at hx hpos
            have hpositive : 0 < y := by
              by_contra hneg
              nlinarith [mul_nonneg hc (neg_nonneg.mpr (not_lt.mp hneg))]
            exact ⟨div_nonneg (by linarith) hpositive.le, (div_le_iff₀ hpositive).mpr (by linarith)⟩
        | below =>
            simp only [hside, Side.factor] at hx hpos
            have hnegative : y < 0 := by
              by_contra hneg
              nlinarith [mul_nonneg hc (not_lt.mp hneg)]
            exact ⟨div_nonneg_of_nonpos (by linarith) hnegative.le,
              (div_le_iff_of_neg hnegative).mpr (by linarith)⟩
      refine ⟨(a - x) / y, hbetween.1, hbetween.2, ?_, ?_⟩
      · rw [distance, ha, real_sub, real_div _ hy]
      · rw [real_mul, real_add, ha, mul_div_cancel₀ _ hy, add_sub_cancel]

end Limit

/-! ## One round -/

/-- The criterion should fall by some positive amount. -/
structure StepSize.Positive (size : StepSize PartialReal) : Prop where
  absolute : Scalar.less 0 size.absolute = true
  relative : Scalar.atMost 0 size.relative = true

namespace Step

variable {unknowns : List (Formula PartialReal)} {limits : List (Limit PartialReal)}
  {direction : List PartialReal} {active : List Bool} {ρ : Valuation PartialReal}

/-- The limits of active unknowns, and how these move. -/
def Concerns (unknowns : List (Formula PartialReal)) (direction : List PartialReal)
    (active : List Bool) (l : Limit PartialReal) (i : Nat) (v : PartialReal) : Prop :=
  place? unknowns l.bounded.id = some i ∧ active[i]? = some true ∧ direction[i]? = some v

/-- After some limits have been looked at, the step keeps to all of them; and if it was
stopped, it ends on the limit that stopped it. -/
structure Reach.KeepsTo (unknowns : List (Formula PartialReal)) (direction : List PartialReal)
    (active : List Bool) (ρ : Valuation PartialReal) (seen : List (Limit PartialReal))
    (r : Reach PartialReal) : Prop where
  coeff : r.coeff = undefined ∨ ∃ c, 0 ≤ c ∧ r.coeff = real c
  within : ∀ l ∈ seen, ∀ i v, Concerns unknowns direction active l i v →
    l.exceeded (ρ l.bounded.id) (v * r.coeff) = false
  stopped : ∀ l i, r.stopped = some (l, i) → l ∈ seen ∧ ∃ v,
    Concerns unknowns direction active l i v ∧ ρ l.bounded.id + v * r.coeff = l.value

/-- The step is left as it is, or shortened to a limit that it would cross. -/
theorem Reach.shorten_cases (r : Reach PartialReal) (l : Limit PartialReal)
    (current : PartialReal) :
    (r.shorten unknowns direction active l current = r ∧
      ∀ i v, Concerns unknowns direction active l i v →
        l.exceeded current (v * r.coeff) = false) ∨
    ∃ i v, Concerns unknowns direction active l i v ∧
      l.exceeded current (v * r.coeff) = true ∧
      r.shorten unknowns direction active l current = ⟨l.distance current / v, some (l, i)⟩ := by
  unfold shorten Concerns
  split
  · next hplace => exact .inl ⟨rfl, by simp [hplace]⟩
  · next i hplace =>
      split
      · next v hactive hdirection =>
          by_cases hexceeded : l.exceeded current (v * r.coeff) = true
          · exact .inr ⟨i, v, ⟨hplace, hactive, hdirection⟩, hexceeded, if_pos hexceeded⟩
          · exact .inl ⟨if_neg hexceeded, by grind⟩
      · next hnone => exact .inl ⟨rfl, by grind⟩

theorem Reach.KeepsTo.shorten {seen : List (Limit PartialReal)} {r : Reach PartialReal}
    (h : r.KeepsTo unknowns direction active ρ seen) {l : Limit PartialReal}
    (hfeasible : ∀ l' ∈ seen ++ [l], Listed unknowns l'.bounded.id →
      l'.exceeded (ρ l'.bounded.id) 0 = false) :
    (r.shorten unknowns direction active l (ρ l.bounded.id)).KeepsTo unknowns direction active ρ
      (seen ++ [l]) := by
  rcases r.shorten_cases l (ρ l.bounded.id) with ⟨hsame, hwithin⟩ | ⟨i, v, hl, hexceeded, hstop⟩
  · rw [hsame]
    refine ⟨h.coeff, ?_, ?_⟩
    · intro l' hl' i v hconcerns
      rcases List.mem_append.mp hl' with hl' | hl'
      · exact h.within l' hl' i v hconcerns
      · rw [List.mem_singleton.mp hl'] at hconcerns ⊢
        exact hwithin i v hconcerns
    · intro l' i hstopped
      obtain ⟨hl', hv⟩ := h.stopped l' i hstopped
      exact ⟨List.mem_append_left _ hl', hv⟩
  · rcases h.coeff with hundefined | ⟨c, hc, hcoeff⟩
    · rw [hundefined, mul_undefined] at hexceeded
      obtain ⟨_, _, _, _, hmove, _⟩ := Limit.exceeded_iff.mp hexceeded
      cases hmove
    · rw [hcoeff] at hexceeded
      obtain ⟨c', hc', hle, hdistance, hreached⟩ := Limit.distance_div
        (hfeasible l (by simp) (listed_of_place hl.1)) hexceeded hc
      rw [hstop, hdistance]
      refine ⟨.inr ⟨c', hc', rfl⟩, ?_, ?_⟩
      · intro l' hl' i' v' hconcerns
        have hstart := hfeasible l' hl' (listed_of_place hconcerns.1)
        rcases List.mem_append.mp hl' with hl' | hl'
        · have hend := h.within l' hl' i' v' hconcerns
          rw [hcoeff] at hend
          exact Limit.not_exceeded_between hstart hend hc' hle
        · obtain rfl := List.mem_singleton.mp hl'
          obtain ⟨hplace, -, hdirection⟩ := hconcerns
          obtain rfl := Option.some.inj (hl.1.symm.trans hplace)
          obtain rfl := Option.some.inj (hl.2.2.symm.trans hdirection)
          rw [← Limit.exceeded_add, hreached, Limit.not_exceeded_self]
      · intro l' i' hstopped
        cases hstopped
        exact ⟨by simp, v, hl, hreached⟩

/-- The fall a step aims at is a positive number, whatever the value of the criterion. -/
theorem exists_fall {size : StepSize PartialReal} (h : size.Positive) (value : PartialReal) :
    ∃ x, 0 < x ∧ StepSize.fall size value = real x := by
  obtain ⟨a, ha, hpos⟩ : ∃ a : ℝ, size.absolute = real a ∧ 0 < a := by
    cases habsolute : size.absolute with
    | undefined => cases (habsolute ▸ h.absolute)
    | real a => exact ⟨a, rfl, (less_real 0 a).mp (habsolute ▸ h.absolute)⟩
  obtain ⟨b, hb, -⟩ : ∃ b : ℝ, size.relative = real b ∧ 0 ≤ b := by
    cases hrelative : size.relative with
    | undefined => cases (hrelative ▸ h.relative)
    | real b => exact ⟨b, rfl, (atMost_real 0 b).mp (hrelative ▸ h.relative)⟩
  cases value with
  | undefined => exact ⟨a, hpos, by rw [StepSize.fall, ha, hb]; rfl⟩
  | real x =>
      refine ⟨max a (b * |x|), lt_max_of_lt_left hpos, ?_⟩
      rw [StepSize.fall, ha, hb, ← larger_real]
      rfl

/-- The step keeps to all limits where the variables are within them at the beginning. -/
theorem reach_keepsTo {size : StepSize PartialReal} (hsize : size.Positive)
    {c : Criterion PartialReal}
    (hslope : (slope c.derivatives (Step.direction c.derivatives active) active == 0) = false)
    (hfeasible : Feasible unknowns limits ρ) :
    (reach unknowns limits size active c ρ).KeepsTo unknowns (Step.direction c.derivatives active)
      active ρ limits := by
  have hstart : Reach.KeepsTo unknowns (Step.direction c.derivatives active) active ρ []
      ⟨StepSize.fall size c.value /
        Scalar.abs (slope c.derivatives (Step.direction c.derivatives active) active), none⟩ := by
    refine ⟨?_, by simp, by simp⟩
    obtain ⟨x, hx, hfall⟩ := exists_fall hsize c.value
    rw [hfall]
    cases hvalue : slope c.derivatives (Step.direction c.derivatives active) active with
    | undefined => exact .inl rfl
    | real y =>
        have hy : |y| ≠ 0 := by
          rw [abs_ne_zero]
          rintro rfl
          rw [hvalue, zero_eq, (beq_real 0 0).mpr rfl] at hslope
          cases hslope
        exact .inr ⟨x / |y|, div_nonneg hx.le (abs_nonneg y), real_div x hy⟩
  exact reach_induction hstart fun seen r l hseen hr =>
    hr.shorten fun l' hl' hlisted => hfeasible l' (hseen l' hl') hlisted

variable {before : Valuation PartialReal} {size : StepSize PartialReal} {c : Criterion PartialReal}

/-- Putting a variable on the limit that stopped the step keeps to all limits. -/
theorem boxed_of_stopped (hsize : size.Positive) {l : Limit PartialReal} {i : Nat}
    (h : verdict unknowns limits size active c ρ = .stopped l i)
    (hbox : Boxed unknowns limits before ρ) :
    Boxed unknowns limits before (ρ.set l.bounded.id l.value) := by
  obtain ⟨hslope, hstopped⟩ := stopped_of_verdict h
  have hkeeps := reach_keepsTo hsize hslope hbox.feasible
  obtain ⟨-, v, hconcerns, hreached⟩ := hkeeps.stopped l i hstopped
  refine ⟨?_, ?_⟩
  · intro l' hl' hlisted
    by_cases hsame : l'.bounded.id = l.bounded.id
    · -- the variable is where the step would have taken it
      have hwithin := hkeeps.within l' hl' i v (by rwa [Concerns, hsame])
      rw [hsame, ← Limit.exceeded_add, hreached] at hwithin
      simpa [Valuation.set, hsame] using hwithin
    · simpa [Valuation.set, hsame] using hbox.feasible l' hl' hlisted
  · intro w hw
    have hne : w ≠ l.bounded.id := by
      rintro rfl
      exact hw (listed_of_place hconcerns.1)
    simpa [Valuation.set, hne] using hbox.others w hw

/-- Moving the active variables as far as the step reaches keeps to all limits. -/
theorem boxed_of_moved (hsize : size.Positive) (hnodup : (unknowns.map Formula.id).Nodup)
    {coeff : PartialReal} (h : verdict unknowns limits size active c ρ = .moved coeff)
    (hbox : Boxed unknowns limits before ρ) :
    Boxed unknowns limits before
      (movedValues coeff unknowns (Step.direction c.derivatives active) active ρ) := by
  obtain ⟨hslope, hreach⟩ := moved_of_verdict h
  have hkeeps := reach_keepsTo hsize hslope hbox.feasible
  rw [hreach] at hkeeps
  refine ⟨?_, fun w hw => by rw [movedValues_other hw, hbox.others w hw]⟩
  intro l hl hlisted
  obtain ⟨i, hplace⟩ := exists_place hlisted
  obtain ⟨e, he, hid⟩ := exists_of_place hplace
  rw [← hid, movedValues_place hnodup he, hid]
  split
  · next v hactive hdirection =>
      rw [Limit.exceeded_add]
      exact hkeeps.within l hl i v ⟨hplace, hactive, hdirection⟩
  · exact hbox.feasible l hl hlisted

/-! ## All rounds -/

/-- **A step stays in the box**, whatever it answers, if asking for the criterion leaves the
variables alone. -/
theorem rounds_boxed (hsize : size.Positive) (hvars : ∀ e ∈ unknowns, e.isVariable = true)
    (hnodup : (unknowns.map Formula.id).Nodup)
    {criterion : Nat → Action PartialReal (Criterion PartialReal)}
    (hcriterion : ∀ n s, ((criterion n).run.run s).2.store.read = s.store.read)
    (activeCount : Nat) (active : List Bool) (round : Nat) (s : Session PartialReal)
    (hbox : Boxed unknowns limits before s.store.read) :
    Boxed unknowns limits before ((rounds criterion unknowns limits size
      activeCount active round).run.run s).2.store.read := by
  refine rounds_keeps (P := fun s => Boxed unknowns limits before s.store.read) hvars
    ?_ ?_ ?_ activeCount active round s hbox
  · intro n s hs
    rw [hcriterion]
    exact hs
  · intro s active c l i hs hverdict
    rw [Session.write, Store.read_write]
    exact boxed_of_stopped hsize hverdict hs
  · intro s active c coeff store hs hverdict _ hread
    rw [hread]
    exact boxed_of_moved hsize hnodup hverdict hs

end Step

end FormulaGraph
