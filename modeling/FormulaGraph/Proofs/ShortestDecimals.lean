import FormulaGraph.Decimal.Positional
import Mathlib.Algebra.Order.Field.Power
import Mathlib.Data.List.TakeWhile
import Mathlib.Data.Rat.Cast.Order
import Mathlib.Tactic.FieldSimp
import Mathlib.Tactic.Linarith
import Mathlib.Tactic.Positivity
import Mathlib.Tactic.Ring

/-!
# Decimals that read back

A binary number stands for the reals that round to it (`Binary.Reads`).  The decimal which
`Binary.shortest` answers is one of them, for every number of at most 53 bits
(`Binary.shortest_reads`): the grids are tried down to one that is finer than the interval is
wide, and of such a grid a neighbour of the number lies inside.  No decimal of fewer places is
(`Binary.le_exponent_shortest`): a grid that has any point inside has a neighbour inside, and the
first grid is so coarse that none beyond it has.

Written in place notation, a decimal can be read off its characters again
(`Digits.reading_positional`), so of two decimals written alike both are the same number.
-/

namespace FormulaGraph.Decimal

/-! ## What rounds to a number -/

/-- The number that a decimal denotes. -/
def Digits.amount (d : Digits) : ℚ := d.digits * 10 ^ d.exponent

namespace Binary

variable {b : Binary} {k : ℤ} {x : ℚ}

/-- The number itself. -/
def amount (b : Binary) : ℚ := b.m * 2 ^ b.q

/-- The lower end of the interval. -/
def lowest (b : Binary) : ℚ := ((4 * b.m - if b.denseBelow then 1 else 2 : ℕ) : ℚ) * 2 ^ (b.q - 2)

/-- The upper end of the interval. -/
def highest (b : Binary) : ℚ := ((4 * b.m + 2 : ℕ) : ℚ) * 2 ^ (b.q - 2)

/-- `x` rounds to the number: it lies in the interval, and at an end only if the number is
even. -/
def Reads (b : Binary) (x : ℚ) : Prop :=
  if b.m % 2 = 0 then b.lowest ≤ x ∧ x ≤ b.highest else b.lowest < x ∧ x < b.highest

/-- What rounds to the number is not beyond the ends. -/
theorem Reads.bounds (h : b.Reads x) : b.lowest ≤ x ∧ x ≤ b.highest := by
  rw [Reads] at h
  split at h
  · exact h
  · exact ⟨h.1.le, h.2.le⟩

/-- No end belongs to an odd number. -/
theorem Reads.inside (h : b.Reads x) (hodd : b.m % 2 = 1) : b.lowest < x ∧ x < b.highest := by
  rwa [Reads, if_neg (by omega)] at h

/-- Nothing rounds to two numbers of which the one ends where the other begins, or before,
unless both are even. -/
theorem Reads.not_reads {c : Binary} (h : b.Reads x) (hle : b.highest ≤ c.lowest)
    (hodd : b.highest = c.lowest → b.m % 2 = 1 ∨ c.m % 2 = 1) : ¬ c.Reads x := by
  intro hc
  have hmeet : b.highest = c.lowest := le_antisymm hle (hc.bounds.1.trans h.bounds.2)
  rcases hodd hmeet with hb | hodd
  · exact absurd (h.inside hb).2 (not_lt.mpr (hmeet.le.trans hc.bounds.1))
  · exact absurd (hc.inside hodd).1 (not_lt.mpr (h.bounds.2.trans hmeet.le))

/-- Only positive numbers round to a number other than zero. -/
theorem Reads.pos (h : b.Reads x) (hm : 0 < b.m) : 0 < x := by
  have hquarters : 0 < 4 * b.m - if b.denseBelow then 1 else 2 := by
    split <;> omega
  have hlowest : 0 < b.lowest := mul_pos (Nat.cast_pos.mpr hquarters) (by positivity)
  exact hlowest.trans_le h.bounds.1

/-! ## One scale for the number and the grid -/

/-- What the number and the grid are multiplied by to become natural numbers. -/
def scale (b : Binary) (k : ℤ) : ℚ := 2 ^ (-(b.q - 2)).toNat * 10 ^ (-k).toNat

theorem scale_pos (b : Binary) (k : ℤ) : 0 < b.scale k := by
  rw [scale]
  positivity

/-- A power with its exponent cut off at zero lacks the rest of the exponent. -/
theorem pow_toNat {a : ℚ} (ha : a ≠ 0) (z : ℤ) : a ^ z.toNat = a ^ z * a ^ (-z).toNat := by
  rw [← zpow_natCast, ← zpow_natCast, ← zpow_add₀ ha]
  congr 1
  omega

/-- A step of the grid, on the common scale. -/
theorem grid_scaled (b : Binary) (k : ℤ) : ((b.scaled k).grid : ℚ) = 10 ^ k * b.scale k := by
  have hten : (10 : ℚ) ≠ 0 := by norm_num
  simp only [scaled, scale, Nat.pow_eq]
  push_cast
  rw [pow_toNat hten k]
  ring

/-- Quarters of the number's last place, on the scale of the grid. -/
theorem quarters_scaled (b : Binary) (k : ℤ) (n : ℕ) :
    ((n * (Nat.pow 2 (b.q - 2).toNat * Nat.pow 10 (-k).toNat) : ℕ) : ℚ) =
      n * 2 ^ (b.q - 2) * b.scale k := by
  have htwo : (2 : ℚ) ≠ 0 := by norm_num
  simp only [scale, Nat.pow_eq]
  push_cast
  rw [pow_toNat htwo (b.q - 2)]
  ring

/-- The lower end, on the scale of the grid. -/
theorem low_scaled (b : Binary) (k : ℤ) : ((b.scaled k).low : ℚ) = b.lowest * b.scale k :=
  b.quarters_scaled k _

/-- The upper end, on the scale of the grid. -/
theorem high_scaled (b : Binary) (k : ℤ) : ((b.scaled k).high : ℚ) = b.highest * b.scale k :=
  b.quarters_scaled k _

/-- A point of the grid is inside exactly if it rounds to the number. -/
theorem contains_iff (b : Binary) (k : ℤ) (n : ℕ) :
    (b.scaled k).contains (n * (b.scaled k).grid) = true ↔ b.Reads (n * 10 ^ k) := by
  have hpos := b.scale_pos k
  have hpoint : ((n * (b.scaled k).grid : ℕ) : ℚ) = n * 10 ^ k * b.scale k := by
    rw [Nat.cast_mul, grid_scaled, mul_assoc]
  have hlow : (b.scaled k).low ≤ n * (b.scaled k).grid ↔ b.lowest ≤ n * 10 ^ k := by
    rw [← Nat.cast_le (α := ℚ), hpoint, low_scaled, mul_le_mul_iff_left₀ hpos]
  have hhigh : n * (b.scaled k).grid ≤ (b.scaled k).high ↔ n * 10 ^ k ≤ b.highest := by
    rw [← Nat.cast_le (α := ℚ), hpoint, high_scaled, mul_le_mul_iff_left₀ hpos]
  have hlow' : (b.scaled k).low < n * (b.scaled k).grid ↔ b.lowest < n * 10 ^ k := by
    rw [← Nat.cast_lt (α := ℚ), hpoint, low_scaled, mul_lt_mul_iff_left₀ hpos]
  have hhigh' : n * (b.scaled k).grid < (b.scaled k).high ↔ n * 10 ^ k < b.highest := by
    rw [← Nat.cast_lt (α := ℚ), hpoint, high_scaled, mul_lt_mul_iff_left₀ hpos]
  have hclosed : (b.scaled k).closed = true ↔ b.m % 2 = 0 := beq_iff_eq
  rw [Scaled.contains, Reads]
  by_cases heven : b.m % 2 = 0
  · rw [if_pos (hclosed.mpr heven), if_pos heven, Bool.and_eq_true, decide_eq_true_iff,
      decide_eq_true_iff, hlow, hhigh]
  · rw [if_neg fun h => heven (hclosed.mp h), if_neg heven, Bool.and_eq_true, decide_eq_true_iff,
      decide_eq_true_iff, hlow', hhigh']

end Binary

/-! ## The neighbours on a grid -/

namespace Scaled

variable {s : Scaled} {d : ℕ}

/-- The neighbour that is answered lies inside. -/
theorem contains_of_neighbour? (h : s.neighbour? = some d) : s.contains (d * s.grid) = true := by
  simp only [neighbour?] at h
  split at h
  · next hboth =>
      obtain ⟨hbelow, habove⟩ := Bool.and_eq_true_iff.mp hboth
      split at h
      · rwa [← Option.some.inj h]
      · rwa [← Option.some.inj h]
  · split at h
    · next hbelow => rwa [← Option.some.inj h]
    · split at h
      · next habove => rwa [← Option.some.inj h]
      · cases h

/-- No neighbour is answered exactly if neither lies inside. -/
theorem neighbour?_eq_none_iff : s.neighbour? = none ↔
    s.contains (s.value / s.grid * s.grid) = false ∧
      s.contains ((s.value / s.grid + 1) * s.grid) = false := by
  simp only [neighbour?]
  cases s.contains (s.value / s.grid * s.grid) <;>
    cases s.contains ((s.value / s.grid + 1) * s.grid) <;> simp
  split <;> simp

/-- Whatever lies strictly inside is contained. -/
theorem contains_of_lt {point : ℕ} (hlow : s.low < point) (hhigh : point < s.high) :
    s.contains point = true := by
  rw [contains]
  split <;> simp [hlow, hhigh, hlow.le, hhigh.le]

/-- With a point inside, everything between it and the number is inside. -/
theorem contains_of_between {point other : ℕ} (hlow : s.low < s.value) (hhigh : s.value < s.high)
    (hother : s.contains other = true)
    (h : other ≤ point ∧ point ≤ s.value ∨ s.value ≤ point ∧ point ≤ other) :
    s.contains point = true := by
  rw [contains] at hother ⊢
  split at hother
  · next hclosed =>
      rw [if_pos hclosed]
      simp only [Bool.and_eq_true, decide_eq_true_iff] at hother ⊢
      omega
  · next hopen =>
      rw [if_neg hopen]
      simp only [Bool.and_eq_true, decide_eq_true_iff] at hother ⊢
      omega

/-- The number lies between its neighbours. -/
theorem value_between (hgrid : 0 < s.grid) : s.value / s.grid * s.grid ≤ s.value ∧
    s.value < (s.value / s.grid + 1) * s.grid :=
  ⟨Nat.div_mul_le_self _ _, Nat.lt_mul_of_div_lt (Nat.lt_succ_self _) hgrid⟩

/-- Of a grid finer than the interval is wide, a neighbour lies inside. -/
theorem exists_neighbour? (hgrid : 0 < s.grid) (hlow : s.low < s.value) (hhigh : s.value < s.high)
    (hfine : s.low + s.grid < s.high) : ∃ d, s.neighbour? = some d := by
  obtain ⟨hbelow, habove⟩ := value_between hgrid
  have hnext : (s.value / s.grid + 1) * s.grid = s.value / s.grid * s.grid + s.grid :=
    Nat.succ_mul _ _
  rw [← Option.ne_none_iff_exists']
  intro hnone
  obtain ⟨hnot, hnot'⟩ := neighbour?_eq_none_iff.mp hnone
  by_cases h : s.low < s.value / s.grid * s.grid
  · exact absurd (contains_of_lt h (by omega)) (Bool.eq_false_iff.mp hnot)
  · exact absurd (contains_of_lt (by omega) (by omega)) (Bool.eq_false_iff.mp hnot')

/-- A grid without a neighbour inside has no point inside. -/
theorem not_contains_of_none (hgrid : 0 < s.grid) (hlow : s.low < s.value)
    (hhigh : s.value < s.high) (h : s.neighbour? = none) (i : ℕ) :
    s.contains (i * s.grid) = false := by
  obtain ⟨hbelow, habove⟩ := value_between hgrid
  obtain ⟨hnot, hnot'⟩ := neighbour?_eq_none_iff.mp h
  rw [Bool.eq_false_iff]
  intro hi
  rcases Nat.lt_or_ge (s.value / s.grid) i with hlt | hge
  · have hpoint : (s.value / s.grid + 1) * s.grid ≤ i * s.grid := Nat.mul_le_mul_right _ hlt
    have hin := contains_of_between hlow hhigh hi (.inr ⟨habove.le, hpoint⟩)
    exact absurd hin (Bool.eq_false_iff.mp hnot')
  · have hpoint : i * s.grid ≤ s.value / s.grid * s.grid := Nat.mul_le_mul_right _ hge
    have hin := contains_of_between hlow hhigh hi (.inl ⟨hpoint, hbelow⟩)
    exact absurd hin (Bool.eq_false_iff.mp hnot)

end Scaled

/-! ## The search -/

/-- Zeros at the end count for the exponent, and the amount stays. -/
theorem Digits.amount_trim (n : ℕ) (d : Digits) : (trim n d).amount = d.amount := by
  induction n generalizing d with
  | zero => rfl
  | succ n ih =>
      rw [trim]
      split
      · next hzero =>
          have hdigits : d.digits = d.digits / 10 * 10 := by
            have := beq_iff_eq.mp hzero
            omega
          rw [ih, amount, amount, zpow_add_one₀ (by norm_num)]
          conv_rhs => rw [hdigits]
          push_cast
          ring
      · rfl

/-- Trimming zeros does not lower the exponent. -/
theorem Digits.le_exponent_trim (n : ℕ) (d : Digits) : d.exponent ≤ (trim n d).exponent := by
  induction n generalizing d with
  | zero => exact le_refl _
  | succ n ih =>
      rw [trim]
      split
      · exact le_trans (Int.le_add_one (le_refl _)) (ih ⟨d.digits / 10, d.exponent + 1⟩)
      · exact le_refl _

namespace Binary

variable {b : Binary} {k : ℤ} {x : ℚ}

/-- The number lies strictly inside its interval. -/
theorem scaled_inside (hm : 0 < b.m) (k : ℤ) :
    0 < (b.scaled k).grid ∧ (b.scaled k).low < (b.scaled k).value ∧
      (b.scaled k).value < (b.scaled k).high := by
  have hgrid : 0 < Nat.pow 10 k.toNat * Nat.pow 2 (-(b.q - 2)).toNat :=
    Nat.mul_pos (Nat.pow_pos (by decide)) (Nat.pow_pos (by decide))
  have hunit : 0 < Nat.pow 2 (b.q - 2).toNat * Nat.pow 10 (-k).toNat :=
    Nat.mul_pos (Nat.pow_pos (by decide)) (Nat.pow_pos (by decide))
  refine ⟨hgrid, Nat.mul_lt_mul_of_pos_right ?_ hunit, Nat.mul_lt_mul_of_pos_right ?_ hunit⟩
  · split <;> omega
  · omega

/-- The search ends at a grid that has a neighbour inside, for that is never zero. -/
theorem search_of_some (hm : 0 < b.m) {d : ℕ} (h : (b.scaled k).neighbour? = some d) (n : ℕ) :
    b.search (n + 1) k = .trim 20 ⟨d, k⟩ ∧ b.Reads (d * 10 ^ k) := by
  have hreads := (b.contains_iff k d).mp (Scaled.contains_of_neighbour? h)
  have hd : d ≠ 0 := by
    intro hzero
    have hpos := hreads.pos hm
    rw [hzero, Nat.cast_zero, zero_mul] at hpos
    exact lt_irrefl _ hpos
  rw [search, h]
  exact ⟨if_neg (by simpa using hd), hreads⟩

/-- The search goes on to the next finer grid if this one has no neighbour inside. -/
theorem search_of_none (h : (b.scaled k).neighbour? = none) (n : ℕ) :
    b.search (n + 1) k = b.search n (k - 1) := by
  rw [search, h]

/-- If one of the grids has a neighbour inside, the search answers one that is. -/
theorem search_reads (hm : 0 < b.m) {n : ℕ}
    (h : ∃ j < n, ∃ d, (b.scaled (k - j)).neighbour? = some d) :
    b.Reads (b.search n k).amount := by
  induction n generalizing k with
  | zero =>
      obtain ⟨j, hj, -⟩ := h
      exact absurd hj (Nat.not_lt_zero j)
  | succ n ih =>
      cases hneighbour : (b.scaled k).neighbour? with
      | some d =>
          obtain ⟨hsearch, hreads⟩ := search_of_some hm hneighbour n
          rw [hsearch, Digits.amount_trim]
          exact hreads
      | none =>
          -- This grid has none, so it is not the one that is given.
          obtain ⟨j, hj, d, hd⟩ := h
          obtain ⟨i, rfl⟩ : ∃ i, j = i + 1 := by
            refine Nat.exists_eq_succ_of_ne_zero fun hzero => ?_
            rw [hzero, Nat.cast_zero, sub_zero, hneighbour] at hd
            cases hd
          rw [search_of_none hneighbour]
          refine ih ⟨i, Nat.lt_of_succ_lt_succ hj, d, ?_⟩
          rw [← hd]
          congr 2
          push_cast
          ring

/-- The search passes no grid that has a point inside. -/
theorem le_exponent_search (hm : 0 < b.m) {i : ℕ} {j : ℤ} (h : b.Reads (i * 10 ^ j)) (n : ℕ)
    (hj : j ≤ k) : j ≤ (b.search n k).exponent := by
  induction n generalizing k with
  | zero => exact hj
  | succ n ih =>
      cases hneighbour : (b.scaled k).neighbour? with
      | some d =>
          rw [(search_of_some hm hneighbour n).1]
          exact hj.trans (Digits.le_exponent_trim 20 ⟨d, k⟩)
      | none =>
          obtain ⟨hgrid, hlow, hhigh⟩ := scaled_inside hm k
          have hnot := Scaled.not_contains_of_none hgrid hlow hhigh hneighbour i
          have hne : j ≠ k := by
            intro heq
            rw [heq] at h
            rw [(b.contains_iff k i).mpr h] at hnot
            cases hnot
          rw [search_of_none hneighbour]
          exact ih (by omega)

end Binary

/-- Every number has a digit. -/
theorem digitCount_pos (n : ℕ) : 0 < digitCount n := Nat.length_toDigits_pos

/-- A number is less than the power of ten with as many zeros as it has digits. -/
theorem lt_pow_digitCount (n : ℕ) : n < 10 ^ digitCount n :=
  (Nat.length_toDigits_le_iff (by decide) (digitCount_pos n)).mp (Nat.le_refl _)

/-- A positive number is at least the power of ten with as many digits. -/
theorem pow_digitCount_le {n : ℕ} (hn : 0 < n) : 10 ^ (digitCount n - 1) ≤ n := by
  by_contra hlt
  cases hcount : digitCount n - 1 with
  | zero =>
      rw [hcount, Nat.pow_zero] at hlt
      exact hlt hn
  | succ j =>
      rw [hcount, not_le] at hlt
      have hle := (Nat.length_toDigits_le_iff (by decide) (Nat.succ_pos j)).mpr hlt
      have : digitCount n ≤ j + 1 := hle
      omega

/-- How many digits a quotient has before the point says how large it is. -/
theorem digitCount_div {num den : ℕ} (hden : 0 < den) (hle : den ≤ num) :
    ∃ c : ℕ, digitCount (num / den) = c + 1 ∧ (10 : ℚ) ^ c ≤ num / den ∧
      (num / den : ℚ) < 10 ^ (c + 1) := by
  obtain ⟨c, hc⟩ := Nat.exists_eq_succ_of_ne_zero (digitCount_pos (num / den)).ne'
  have hden' : (0 : ℚ) < den := Nat.cast_pos.mpr hden
  have hleast := pow_digitCount_le (Nat.div_pos hle hden)
  have hgreatest := lt_pow_digitCount (num / den)
  rw [hc] at hleast hgreatest
  refine ⟨c, hc, ?_, ?_⟩
  · rw [le_div_iff₀ hden']
    exact_mod_cast (Nat.le_div_iff_mul_le hden).mp hleast
  · rw [div_lt_iff₀ hden']
    exact_mod_cast (Nat.div_lt_iff_lt_mul hden).mp hgreatest

namespace Binary

variable {b : Binary}

/-- The number as a fraction of natural numbers. -/
theorem amount_eq_div (b : Binary) :
    b.amount = ((b.m * Nat.pow 2 b.q.toNat : ℕ) : ℚ) / (Nat.pow 2 (-b.q).toNat : ℕ) := by
  simp only [Nat.pow_eq]
  push_cast
  rw [eq_div_iff (by positivity), amount, pow_toNat two_ne_zero b.q]
  ring

/-- The number counted in quarters of its last place. -/
theorem amount_eq_quarters (b : Binary) : b.amount = 4 * b.m * 2 ^ (b.q - 2) := by
  have hplace : (2 : ℚ) ^ b.q = 2 ^ (b.q - 2) * 2 ^ 2 := by
    rw [← zpow_natCast, ← zpow_add₀ two_ne_zero]
    congr 1
    push_cast
    ring
  rw [amount, hplace]
  ring

/-- The grid to begin with is coarser than the number is large, by a factor of a hundred at
most. -/
theorem coarse_bounds (hm : 0 < b.m) :
    (10 : ℚ) ^ (b.coarse - 2) < b.amount ∧ b.amount < 10 ^ b.coarse := by
  rw [amount_eq_div, coarse]
  have hnum : 0 < b.m * Nat.pow 2 b.q.toNat := Nat.mul_pos hm (Nat.pow_pos (by decide))
  have hden : 0 < Nat.pow 2 (-b.q).toNat := Nat.pow_pos (by decide)
  generalize b.m * Nat.pow 2 b.q.toNat = num at *
  generalize Nat.pow 2 (-b.q).toNat = den at *
  have hten : (1 : ℚ) < 10 := by norm_num
  split
  · next hle =>
      obtain ⟨c, hc, hleast, hgreatest⟩ := digitCount_div hden hle
      rw [hc]
      rw [← zpow_natCast] at hleast hgreatest
      exact ⟨(zpow_lt_zpow_right₀ hten (by push_cast; omega)).trans_le hleast, hgreatest⟩
  · next hgt =>
      obtain ⟨c, hc, hleast, hgreatest⟩ := digitCount_div hnum (Nat.le_of_not_le hgt)
      have hpos : (0 : ℚ) < den / num := div_pos (Nat.cast_pos.mpr hden) (Nat.cast_pos.mpr hnum)
      rw [hc, ← inv_div]
      rw [← zpow_natCast] at hleast hgreatest
      constructor
      · refine lt_of_eq_of_lt ?_ (inv_strictAnti₀ hpos hgreatest)
        rw [← zpow_neg]
        congr 1
        push_cast
        ring
      · refine lt_of_le_of_lt (inv_anti₀ (by positivity) hleast) ?_
        rw [← zpow_neg]
        exact zpow_lt_zpow_right₀ hten (by push_cast; omega)

/-- The interval is three quarters of the last place wide, or one place. -/
theorem lowest_add_le (hm : 0 < b.m) : b.lowest + 3 * 2 ^ (b.q - 2) ≤ b.highest := by
  have hquarters : (4 * b.m - if b.denseBelow then 1 else 2) + 3 ≤ 4 * b.m + 2 := by
    split <;> omega
  rw [lowest, highest, ← add_mul]
  refine mul_le_mul_of_nonneg_right ?_ (by positivity)
  exact_mod_cast hquarters

/-- **The shortest decimal reads back**, for numbers of at most 53 bits. -/
theorem shortest_reads (hm : 0 < b.m) (hlt : b.m < 2 ^ 53) : b.Reads b.shortest.amount := by
  refine search_reads hm ⟨19, by decide, ?_⟩
  show ∃ d, (b.scaled (b.coarse - 19)).neighbour? = some d
  obtain ⟨hgrid, hlow, hhigh⟩ := b.scaled_inside hm (b.coarse - 19)
  refine Scaled.exists_neighbour? hgrid hlow hhigh ?_
  -- The last grid is finer than the number by `10 ^ 17`, and the number has 53 bits.
  have hfine : (10 : ℚ) ^ (b.coarse - 19) < 3 * 2 ^ (b.q - 2) := by
    have hcoarse := (b.coarse_bounds hm).1
    have hbits : (b.m : ℚ) < 2 ^ 53 := by exact_mod_cast hlt
    have hlast : (10 : ℚ) ^ (b.coarse - 2) = 10 ^ (b.coarse - 19) * 10 ^ 17 := by
      rw [← zpow_natCast, ← zpow_add₀ (by norm_num)]
      congr 1
      push_cast
      ring
    have hpos : (0 : ℚ) < 2 ^ (b.q - 2) := by positivity
    rw [amount_eq_quarters, hlast] at hcoarse
    nlinarith
  rw [← Nat.cast_lt (α := ℚ), Nat.cast_add, low_scaled, grid_scaled, high_scaled, ← add_mul]
  refine mul_lt_mul_of_pos_right ?_ (b.scale_pos _)
  linarith [b.lowest_add_le hm]

/-- **No decimal of fewer places reads back**: none on a coarser grid rounds to the number. -/
theorem le_exponent_shortest (hm : 0 < b.m) {i : ℕ} {j : ℤ} (h : b.Reads (i * 10 ^ j)) :
    j ≤ b.shortest.exponent := by
  refine le_exponent_search hm h 20 ?_
  -- Points of still coarser grids are beyond the interval.
  by_contra hcoarser
  have hi : (1 : ℚ) ≤ i := by
    have hi : i ≠ 0 := by
      intro hzero
      rw [hzero] at h
      simpa using h.pos hm
    exact_mod_cast Nat.one_le_iff_ne_zero.mpr hi
  have hpoint : (10 : ℚ) ^ (b.coarse + 1) ≤ i * 10 ^ j := by
    have hj : b.coarse + 1 ≤ j := by omega
    refine (zpow_le_zpow_right₀ (by norm_num) hj).trans ?_
    exact le_mul_of_one_le_left (by positivity) hi
  have hend : b.highest ≤ 2 * b.amount := by
    have hquarters : ((4 * b.m + 2 : ℕ) : ℚ) ≤ 2 * (4 * b.m) := by
      exact_mod_cast (by omega : 4 * b.m + 2 ≤ 2 * (4 * b.m))
    rw [highest, amount_eq_quarters, ← mul_assoc]
    exact mul_le_mul_of_nonneg_right hquarters (by positivity)
  rw [zpow_add_one₀ (by norm_num)] at hpoint
  have hamount := (b.coarse_bounds hm).2
  have hpos : (0 : ℚ) < 10 ^ b.coarse := by positivity
  linarith [h.bounds.2]

end Binary

/-! ## Place notation -/

/-- The number that digits with a point among them denote. -/
def reading (text : List Char) : ℚ :=
  let whole := text.takeWhile (· != '.')
  let fraction := (text.dropWhile (· != '.')).tail
  (Nat.ofDigitChars 10 (whole ++ fraction) 0 : ℚ) / 10 ^ fraction.length

/-- Where there is no point, every character is another one. -/
theorem bne_point {whole : List Char} (h : '.' ∉ whole) : ∀ c ∈ whole, (c != '.') = true := by
  intro c hc
  rw [bne_iff_ne]
  intro hpoint
  exact h (hpoint ▸ hc)

/-- Digits without a point are read as they are. -/
theorem reading_whole {whole : List Char} (h : '.' ∉ whole) :
    reading whole = Nat.ofDigitChars 10 whole 0 := by
  have hall := bne_point h
  rw [reading, List.takeWhile_eq_self_iff.mpr hall, List.dropWhile_eq_nil_iff.mpr hall]
  simp

/-- Digits behind a point count for one place less each. -/
theorem reading_point {whole : List Char} (h : '.' ∉ whole) (fraction : List Char) :
    reading (whole ++ '.' :: fraction) =
      (Nat.ofDigitChars 10 (whole ++ fraction) 0 : ℚ) / 10 ^ fraction.length := by
  have hall := bne_point h
  rw [reading, List.takeWhile_append_of_pos hall, List.dropWhile_append_of_pos hall]
  simp

/-- Numbers are written with digits only. -/
theorem isDigit_toDigits {n : ℕ} {c : Char} (h : c ∈ Nat.toDigits 10 n) : c.isDigit = true :=
  Nat.isDigit_of_mem_toDigits (by decide) (by decide) h

/-- Every number is written with a first digit. -/
theorem head_toDigits (n : ℕ) : ∃ c t, Nat.toDigits 10 n = c :: t ∧ c.isDigit = true := by
  cases hdigits : Nat.toDigits 10 n with
  | nil => exact absurd hdigits Nat.toDigits_ne_nil
  | cons c t => exact ⟨c, t, rfl, isDigit_toDigits (hdigits ▸ List.mem_cons_self)⟩

namespace Digits

/-- **Place notation can be read back.** -/
theorem reading_positional (d : Digits) : reading d.positional.toList = d.amount := by
  have hpoint : '.' ∉ Nat.toDigits 10 d.digits := fun h => absurd (isDigit_toDigits h) (by decide)
  rw [positional, amount]
  split
  · next hwhole =>
      obtain ⟨n, hn⟩ := Int.eq_ofNat_of_zero_le hwhole
      rw [hn, String.toList_ofList, reading_whole (by simp [hpoint]), Nat.ofDigitChars_append,
        Nat.ofDigitChars_ten_toDigits, Nat.ofDigitChars_replicate_zero]
      push_cast
      rw [Int.toNat_natCast, zpow_natCast, mul_comm]
  · next hfraction =>
      obtain ⟨n, hn⟩ := Int.exists_eq_neg_ofNat (le_of_not_ge hfraction)
      have hplaces : (-d.exponent).toNat = n := by omega
      have hamount : (d.digits : ℚ) * 10 ^ d.exponent = d.digits / 10 ^ n := by
        rw [hn, zpow_neg, zpow_natCast, div_eq_mul_inv]
      simp only [hplaces]
      split
      · next hlt =>
          rw [String.toList_ofList, reading_point fun h => hpoint (List.mem_of_mem_take h),
            List.take_append_drop, Nat.ofDigitChars_ten_toDigits, List.length_drop, hamount]
          congr 2
          omega
      · next hge =>
          rw [String.toList_ofList]
          show reading (['0'] ++ '.' :: _) = _
          rw [reading_point (by decide), Nat.ofDigitChars_append, Nat.ofDigitChars_append, hamount,
            show Nat.ofDigitChars 10 ['0'] 0 = 0 from rfl, Nat.ofDigitChars_replicate_zero,
            Nat.mul_zero, Nat.ofDigitChars_ten_toDigits, List.length_append, List.length_replicate]
          congr 2
          omega

/-- Place notation begins with a digit, and goes on with digits and a point. -/
theorem begins_positional (d : Digits) :
    ∃ c t, d.positional.toList = c :: t ∧ c.isDigit = true ∧
      ∀ c' ∈ t, c'.isDigit = true ∨ c' = '.' := by
  obtain ⟨c, t, hdigits, hc⟩ := head_toDigits d.digits
  have ht : ∀ c' ∈ t, c'.isDigit = true := fun c' hc' =>
    isDigit_toDigits (hdigits ▸ List.mem_cons_of_mem c hc')
  have hzero : ∀ {n : ℕ}, ∀ c' ∈ List.replicate n '0', c'.isDigit = true := by
    intro n c' hc'
    rw [List.eq_of_mem_replicate hc']
    rfl
  rw [positional, hdigits]
  split
  · refine ⟨c, _, String.toList_ofList, hc, fun c' hc' => .inl ?_⟩
    exact (List.mem_append.mp hc').elim (ht c') (hzero c')
  · dsimp only
    split
    · next hlt =>
        obtain ⟨whole, hwhole⟩ := Nat.exists_eq_succ_of_ne_zero (Nat.sub_ne_zero_of_lt hlt)
        rw [hwhole, List.take_succ_cons, List.drop_succ_cons]
        refine ⟨c, _, String.toList_ofList, hc, fun c' hc' => ?_⟩
        rcases List.mem_append.mp hc' with hc' | hc'
        · exact .inl (ht c' (List.mem_of_mem_take hc'))
        · exact (List.mem_cons.mp hc').symm.imp_left fun hc' => ht c' (List.mem_of_mem_drop hc')
    · refine ⟨'0', _, String.toList_ofList, rfl, fun c' hc' => ?_⟩
      rcases List.mem_cons.mp hc' with hc' | hc'
      · exact .inr hc'
      · rcases List.mem_append.mp hc' with hc' | hc'
        · exact .inl (hzero c' hc')
        · exact .inl (isDigit_toDigits (hdigits ▸ hc'))

end Digits

end FormulaGraph.Decimal
