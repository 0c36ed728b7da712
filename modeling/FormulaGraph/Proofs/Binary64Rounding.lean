import FormulaGraph.Proofs.Binary64Order

/-!
# Binary numbers, rounded

A finite binary number is a whole number of **units**, the least positive number being one unit.
Sums and differences of finite numbers are whole numbers of units as well, and are rounded to
the nearest number with a mantissa of 53 bits (`Binary64.add_result`, `Binary64.sub_result`); half
of a number is off by half a unit at most (`Binary64.half_result`).  Rounding keeps the order
(`Binary64.nearest_mono`), and what is a number already (`Binary64.nearest_of_mantissa`), a
product with one among it (`Binary64.one_mul_result`).

Results are considered before they are stored, where their exponents have no upper limit.
-/

namespace FormulaGraph

open Float.Model Float.Model.UnpackedFloat

namespace Binary64

/-! ## Whole numbers, rounded -/

/-- The number of times `2 ^ n` goes into the number, rounded to the nearest, and to the even one
of two that are as near. -/
def roundedQuotient (m n : ℕ) : ℕ :=
  if 2 * (m % 2 ^ n) < 2 ^ n then m / 2 ^ n
  else if 2 * (m % 2 ^ n) = 2 ^ n then m / 2 ^ n + m / 2 ^ n % 2
  else m / 2 ^ n + 1

/-- How many bits are cut off so that 53 remain. -/
def excess (m : ℕ) : ℕ := m.log2 + 1 - 53

/-- The nearest number with a mantissa of 53 bits. -/
def nearest (m : ℕ) : ℕ := roundedQuotient m (excess m) * 2 ^ excess m

/-- A rounded quotient is the whole quotient or one more. -/
theorem roundedQuotient_bounds (m n : ℕ) :
    m / 2 ^ n ≤ roundedQuotient m n ∧ roundedQuotient m n ≤ m / 2 ^ n + 1 := by
  rw [roundedQuotient]
  split
  · omega
  · split <;> omega

/-- Rounding keeps the order. -/
theorem roundedQuotient_mono {m m' : ℕ} (n : ℕ) (h : m ≤ m') :
    roundedQuotient m n ≤ roundedQuotient m' n := by
  have hquotient : m / 2 ^ n ≤ m' / 2 ^ n := Nat.div_le_div_right h
  obtain ⟨-, hupper⟩ := roundedQuotient_bounds m n
  obtain ⟨hlower, -⟩ := roundedQuotient_bounds m' n
  rcases Nat.lt_or_eq_of_le hquotient with hlt | heq
  · omega
  · have hrest : m % 2 ^ n ≤ m' % 2 ^ n := by
      have := Nat.div_add_mod m (2 ^ n)
      have := Nat.div_add_mod m' (2 ^ n)
      rw [heq] at *
      omega
    rw [roundedQuotient, roundedQuotient, heq]
    split <;> split <;> try split
    all_goals try split
    all_goals omega

/-- Exact quotients are not rounded. -/
theorem roundedQuotient_of_dvd {m n : ℕ} (h : 2 ^ n ∣ m) : roundedQuotient m n = m / 2 ^ n := by
  rw [roundedQuotient, Nat.mod_eq_zero_of_dvd h, if_pos (by positivity)]

/-- Without its excess bits a number has at most 53. -/
theorem lt_excess (m : ℕ) : m < 2 ^ (excess m + 53) := by
  have hlog : m < 2 ^ (m.log2 + 1) := Nat.lt_log2_self
  refine hlog.trans_le (Nat.pow_le_pow_right (by decide) ?_)
  rw [excess]
  omega

/-- Where bits are cut off, 53 remain. -/
theorem le_of_excess_pos {m : ℕ} (h : 0 < excess m) : 2 ^ (excess m + 52) ≤ m := by
  have hm : m ≠ 0 := by
    rintro rfl
    cases h
  have hlog := Nat.log2_self_le hm
  have heq : excess m + 52 = m.log2 := by
    rw [excess] at h ⊢
    omega
  rwa [heq]

/-- Greater numbers have more excess bits. -/
theorem excess_mono {m m' : ℕ} (h : m ≤ m') : excess m ≤ excess m' := by
  rcases Nat.eq_zero_or_pos (excess m) with hzero | hpos
  · omega
  · have hlt := (le_of_excess_pos hpos).trans_lt (h.trans_lt (lt_excess m'))
    have := (Nat.pow_lt_pow_iff_right (by decide)).mp hlt
    omega

/-- **Rounding keeps the order.** -/
theorem nearest_mono {m m' : ℕ} (h : m ≤ m') : nearest m ≤ nearest m' := by
  rcases Nat.lt_or_eq_of_le (excess_mono h) with hlt | heq
  · -- the greater number has a power of two between the two
    have hquotient : m / 2 ^ excess m < 2 ^ 53 := by
      rw [Nat.div_lt_iff_lt_mul (by positivity), ← pow_add, Nat.add_comm]
      exact lt_excess m
    have hquotient' : 2 ^ 52 ≤ m' / 2 ^ excess m' := by
      rw [Nat.le_div_iff_mul_le (by positivity), ← pow_add, Nat.add_comm]
      exact le_of_excess_pos (by omega)
    calc nearest m ≤ 2 ^ 53 * 2 ^ excess m :=
          Nat.mul_le_mul_right _ (by have := (roundedQuotient_bounds m (excess m)).2; omega)
      _ = 2 ^ 52 * 2 ^ (excess m + 1) := by ring
      _ ≤ 2 ^ 52 * 2 ^ excess m' :=
          Nat.mul_le_mul_left _ (Nat.pow_le_pow_right (by decide) hlt)
      _ ≤ nearest m' :=
          Nat.mul_le_mul_right _ (hquotient'.trans (roundedQuotient_bounds m' (excess m')).1)
  · rw [nearest, nearest, heq]
    exact Nat.mul_le_mul_right _ (roundedQuotient_mono _ h)

/-- What has a mantissa of 53 bits is its own nearest number. -/
theorem nearest_of_mantissa {m : ℕ} (hm : m < 2 ^ 53) (k : ℕ) :
    nearest (m * 2 ^ k) = m * 2 ^ k := by
  have hexcess : excess (m * 2 ^ k) ≤ k := by
    rcases Nat.eq_zero_or_pos (excess (m * 2 ^ k)) with hzero | hpos
    · omega
    · have hle := le_of_excess_pos hpos
      have hlt : m * 2 ^ k < 2 ^ (53 + k) := by
        rw [pow_add]
        exact Nat.mul_lt_mul_of_pos_right hm (by positivity)
      have := (Nat.pow_lt_pow_iff_right (by decide)).mp (hle.trans_lt hlt)
      omega
  have hdvd : 2 ^ excess (m * 2 ^ k) ∣ m * 2 ^ k :=
    (pow_dvd_pow 2 hexcess).trans (Nat.dvd_mul_left _ _)
  rw [nearest, roundedQuotient_of_dvd hdvd, Nat.div_mul_cancel hdvd]

/-! ## Cutting bits off -/

/-- The bits that are kept of `m` after `n` were cut off say where the rest is. -/
structure Cut (m n : ℕ) (em : ExtendedMantissa) : Prop where
  mantissa : em.mantissa = m / 2 ^ n
  roundBit : em.roundBit = true ↔ 2 ^ n ≤ 2 * (m % 2 ^ n)
  stickyBit : em.stickyBit = true ↔ m % 2 ^ n ≠ 0 ∧ 2 * (m % 2 ^ n) ≠ 2 ^ n

/-- Shifting cuts off bits and remembers what they were. -/
theorem cut_shift (m n : ℕ) : Cut m n ((⟨m, false, false⟩ : ExtendedMantissa) >>> n) := by
  induction n with
  | zero =>
      refine ⟨(Nat.div_one m).symm, ?_, ?_⟩
      · simp [HShiftRight.hShiftRight, Nat.repeat, Nat.mod_one]
      · simp [HShiftRight.hShiftRight, Nat.repeat, Nat.mod_one]
  | succ n ih =>
      show Cut m (n + 1) ((⟨m, false, false⟩ : ExtendedMantissa) >>> n).shiftRightOne
      generalize (⟨m, false, false⟩ : ExtendedMantissa) >>> n = em at ih ⊢
      have hrest : m % 2 ^ (n + 1) = m % 2 ^ n + 2 ^ n * (m / 2 ^ n % 2) := by
        rw [pow_succ, Nat.mod_mul]
      have hlt : m % 2 ^ n < 2 ^ n := Nat.mod_lt _ (by positivity)
      have hround := ih.roundBit
      have hsticky := ih.stickyBit
      have hbit : m / 2 ^ n % 2 = 0 ∨ m / 2 ^ n % 2 = 1 := by omega
      refine ⟨?_, ?_, ?_⟩
      · rw [ExtendedMantissa.shiftRightOne, ih.mantissa, Nat.div_div_eq_div_mul, ← pow_succ]
      · rw [ExtendedMantissa.shiftRightOne, ih.mantissa, hrest, pow_succ]
        rcases hbit with hbit | hbit <;> rw [hbit] <;> simp <;> omega
      · rw [ExtendedMantissa.shiftRightOne, hrest, pow_succ]
        simp only [Bool.or_eq_true, hround, hsticky]
        rcases hbit with hbit | hbit <;> rw [hbit] <;> omega

/-- What is kept is rounded as the whole is. -/
theorem Cut.roundedMantissa_eq {m n : ℕ} {em : ExtendedMantissa} (h : Cut m n em) :
    em.roundedMantissa = roundedQuotient m n := by
  obtain ⟨mantissa, roundBit, stickyBit⟩ := em
  obtain ⟨hmantissa, hround, hsticky⟩ := h
  dsimp only at hmantissa hround hsticky
  have hpos : 0 < 2 ^ n := by positivity
  rw [roundedQuotient, ← hmantissa]
  cases roundBit <;> cases stickyBit <;>
    simp only [Bool.false_eq_true, false_iff, true_iff, not_le, not_and_or, not_not]
      at hround hsticky <;>
    simp only [ExtendedMantissa.roundedMantissa, ExtendedMantissa.accuracy,
      Accuracy.roundToNearestEven]
  · rw [if_pos hround]
  · rw [if_pos hround]
  · rw [if_neg (by omega), if_pos (by omega)]
  · rw [if_neg (by omega), if_neg (by omega)]

/-! ## Results -/

/-- The number counted in units. -/
def units : UnpackedFloat → ℤ
  | .finite s m e _ => s.apply (m * 2 ^ (e + 1074).toNat : ℕ)
  | _ => 0

/-- A finite number whose exponent is as great as need be. -/
inductive IsResult : UnpackedFloat → Prop
  | zero (s : Sign) : IsResult (.zero s)
  | finite (s : Sign) {m : ℕ} {e : ℤ} (h : 0 < m) (standard : Standard m e) :
      IsResult (.finite s m e h)

/-- The exponent is chosen so that 53 bits are left, but not below the least one. -/
theorem targetExponent_eq (m : ℕ) (e : ℤ) :
    Format.binary64.targetExponent (totalExponent m e) = max ((m.log2 : ℤ) + 1 + e - 53) (-1074) :=
  rfl

/-- A number of at most 53 bits is not shifted. -/
theorem shift_none {m : ℕ} {e : ℤ} (hm : m < 2 ^ 53) (he : -1074 ≤ e) :
    shiftToTargetExponent .binary64 m e .exact = (⟨m, false, false⟩, e) := by
  have hlog : m.log2 ≤ 52 := by
    rcases Nat.eq_zero_or_pos m with rfl | hpos
    · simp
    · have := (Nat.log2_lt hpos.ne').mpr hm
      omega
  have hamount : (Format.binary64.targetExponent (totalExponent m e) - e).toNat = 0 := by
    rw [targetExponent_eq]
    omega
  rw [shiftToTargetExponent, shiftToExponent, hamount]
  show ((⟨m, false, false⟩ : ExtendedMantissa), e + ((0 : ℕ) : ℤ)) = _
  rw [Nat.cast_zero, add_zero]

/-- A mantissa that has become too long by one bit. -/
theorem shift_carry {m : ℕ} {e : ℤ} (hm : m = 2 ^ 53) (he : -1074 ≤ e) :
    shiftToTargetExponent .binary64 m e .exact = (⟨2 ^ 52, false, false⟩, e + 1) := by
  have hlog : m.log2 = 53 := by rw [hm, Nat.log2_two_pow]
  have hamount : (Format.binary64.targetExponent (totalExponent m e) - e).toNat = 1 := by
    rw [targetExponent_eq, hlog]
    omega
  rw [shiftToTargetExponent, shiftToExponent, hamount, hm]
  rfl

/-- What is rounded to a mantissa of at most 53 bits, or to one that carries, is a result. -/
theorem rounded_result {s : Sign} {m : ℕ} {e e₁ : ℤ} {a : Accuracy} {em : ExtendedMantissa}
    (hshift : shiftToTargetExponent .binary64 m e a = (em, e₁))
    (hle : em.roundedMantissa ≤ 2 ^ 53) (he : -1074 ≤ e₁)
    (hnormal : e₁ = -1074 ∨ 2 ^ 52 ≤ em.roundedMantissa) :
    IsResult (roundWithAccuracy .binary64 s m e a) ∧
      units (roundWithAccuracy .binary64 s m e a) =
        s.apply (em.roundedMantissa * 2 ^ (e₁ + 1074).toNat : ℕ) := by
  rw [roundWithAccuracy, hshift]
  dsimp only
  generalize em.roundedMantissa = r at *
  rcases Nat.lt_or_eq_of_le hle with hlt | hcarry
  · rw [shift_none hlt he]
    dsimp only
    split
    · next hzero =>
        rw [hzero]
        refine ⟨.zero s, ?_⟩
        cases s <;> simp [units, Sign.apply]
    · next hnonzero => exact ⟨.finite s _ ⟨Nat.pos_of_ne_zero hnonzero, hlt, he, hnormal⟩, rfl⟩
  · rw [shift_carry hcarry he]
    have hpos : 0 < 2 ^ 52 := by decide
    have hexponent : (e₁ + 1 + 1074).toNat = (e₁ + 1074).toNat + 1 := by omega
    refine ⟨.finite s hpos ⟨hpos, by decide, by omega, .inr (Nat.le_refl _)⟩, ?_⟩
    show s.apply (2 ^ 52 * 2 ^ (e₁ + 1 + 1074).toNat : ℕ) = _
    rw [hexponent, hcarry]
    congr 2
    ring

/-- Shifting adds to the length. -/
theorem log2_mul_pow {m : ℕ} (hm : 0 < m) (k : ℕ) : (m * 2 ^ k).log2 = m.log2 + k := by
  have hpos : 0 < m * 2 ^ k := by positivity
  rw [Nat.log2_eq_iff hpos.ne', pow_add, Nat.add_right_comm, pow_add]
  exact ⟨Nat.mul_le_mul_right _ (Nat.log2_self_le hm.ne'),
    Nat.mul_lt_mul_of_pos_right Nat.lt_log2_self (by positivity)⟩

/-- Bits that are shifted in do not change the quotient. -/
theorem roundedQuotient_mul_pow (m n j : ℕ) :
    roundedQuotient (m * 2 ^ j) (n + j) = roundedQuotient m n := by
  have hpos : 0 < 2 ^ j := by positivity
  have hmod : m * 2 ^ j % 2 ^ (n + j) = m % 2 ^ n * 2 ^ j := by
    rw [pow_add, Nat.mul_mod_mul_right]
  have hdiv : m * 2 ^ j / 2 ^ (n + j) = m / 2 ^ n := by
    rw [pow_add, Nat.mul_div_mul_right _ _ hpos]
  have hlt : 2 * (m % 2 ^ n * 2 ^ j) < 2 ^ (n + j) ↔ 2 * (m % 2 ^ n) < 2 ^ n := by
    rw [pow_add, ← mul_assoc, Nat.mul_lt_mul_right hpos]
  have heq : 2 * (m % 2 ^ n * 2 ^ j) = 2 ^ (n + j) ↔ 2 * (m % 2 ^ n) = 2 ^ n := by
    rw [pow_add, ← mul_assoc, Nat.mul_left_inj hpos.ne']
  rw [roundedQuotient, roundedQuotient, hmod, hdiv]
  simp only [hlt, heq]

/-- The exponent of the result, where bits are cut off and no zeros are put in. -/
theorem shift_result {m k : ℕ} (hm : 0 < m) (hk : k ≤ excess (m * 2 ^ k)) :
    shiftToTargetExponent .binary64 m (k - 1074) .exact =
      ((⟨m, false, false⟩ : ExtendedMantissa) >>> (excess (m * 2 ^ k) - k),
        (excess (m * 2 ^ k) : ℤ) - 1074) := by
  obtain ⟨n, hn⟩ : ∃ n, n = excess (m * 2 ^ k) := ⟨_, rfl⟩
  rw [← hn] at hk ⊢
  have hamount : (Format.binary64.targetExponent (totalExponent m (k - 1074)) -
      (k - 1074)).toNat = n - k := by
    rw [excess, log2_mul_pow hm] at hn
    rw [targetExponent_eq]
    omega
  rw [shiftToTargetExponent, shiftToExponent, hamount]
  show ((⟨m, false, false⟩ : ExtendedMantissa) >>> (n - k), _) = _
  congr 1
  omega

/-- **Cutting bits off gives the nearest number.** -/
theorem cut_result (s : Sign) {m k : ℕ} (hm : 0 < m) (hk : k ≤ excess (m * 2 ^ k)) :
    IsResult (roundWithAccuracy .binary64 s m (k - 1074) .exact) ∧
      units (roundWithAccuracy .binary64 s m (k - 1074) .exact) =
        s.apply (nearest (m * 2 ^ k) : ℕ) := by
  have hshift := shift_result hm hk
  have hlt := lt_excess (m * 2 ^ k)
  have hle : 0 < excess (m * 2 ^ k) → 2 ^ (excess (m * 2 ^ k) + 52) ≤ m * 2 ^ k :=
    le_of_excess_pos
  rw [nearest]
  generalize excess (m * 2 ^ k) = n at *
  have hmantissa : ((⟨m, false, false⟩ : ExtendedMantissa) >>> (n - k)).roundedMantissa =
      roundedQuotient (m * 2 ^ k) n := by
    have hn : n = n - k + k := by omega
    rw [(cut_shift _ _).roundedMantissa_eq, ← roundedQuotient_mul_pow _ _ k, ← hn]
  obtain ⟨hlower, hupper⟩ := roundedQuotient_bounds (m * 2 ^ k) n
  have hquotient : m * 2 ^ k / 2 ^ n < 2 ^ 53 := by
    rwa [Nat.div_lt_iff_lt_mul (by positivity), ← pow_add, Nat.add_comm]
  have hnormal : (n : ℤ) - 1074 = -1074 ∨ 2 ^ 52 ≤ roundedQuotient (m * 2 ^ k) n := by
    rcases Nat.eq_zero_or_pos n with hzero | hpos
    · exact .inl (by omega)
    · have hquotient' : 2 ^ 52 ≤ m * 2 ^ k / 2 ^ n := by
        rw [Nat.le_div_iff_mul_le (by positivity), ← pow_add, Nat.add_comm]
        exact hle hpos
      exact .inr (hquotient'.trans hlower)
  have hunits : ((n : ℤ) - 1074 + 1074).toNat = n := by omega
  have hresult := rounded_result (s := s) hshift (by rw [hmantissa]; omega) (by omega)
    (by rwa [hmantissa])
  rwa [hmantissa, hunits] at hresult

/-- **Rounding gives the nearest number.** -/
theorem round_result (s : Sign) {m : ℕ} {e : ℤ} (hm : 0 < m) (he : -1074 ≤ e) :
    IsResult (UnpackedFloat.round .binary64 s m e) ∧
      units (UnpackedFloat.round .binary64 s m e) =
        s.apply (nearest (m * 2 ^ (e + 1074).toNat) : ℕ) := by
  obtain ⟨k, rfl⟩ : ∃ k : ℕ, e = k - 1074 := ⟨(e + 1074).toNat, by omega⟩
  obtain ⟨n, hn⟩ : ∃ n, n = excess (m * 2 ^ k) := ⟨_, rfl⟩
  have hk : ((k : ℤ) - 1074 + 1074).toNat = k := by omega
  have hamount : ((k : ℤ) - 1074 -
      Format.binary64.targetExponent (totalExponent m (k - 1074))).toNat = k - n := by
    rw [excess, log2_mul_pow hm] at hn
    rw [targetExponent_eq]
    omega
  -- the zeros put into the mantissa are taken off the exponent
  have hsame : m * 2 ^ (k - n) * 2 ^ min k n = m * 2 ^ k := by
    have hsum : k - n + min k n = k := by omega
    rw [mul_assoc, ← pow_add, hsum]
  have hexponent : (k : ℤ) - 1074 - (k - n : ℕ) = (min k n : ℕ) - 1074 := by omega
  rw [UnpackedFloat.round, decreaseExponent, hamount, hk]
  dsimp only
  rw [Nat.shiftLeft_eq, hexponent, ← hsame]
  exact cut_result s (by positivity) (by rw [hsame, ← hn]; exact min_le_right _ _)

/-! ## Sums and differences -/

/-- The nearest number of either sign. -/
def nearestInt (u : ℤ) : ℤ := if 0 ≤ u then (nearest u.toNat : ℤ) else -nearest (-u).toNat

/-- Zero is not rounded. -/
theorem nearest_zero : nearest 0 = 0 := by
  have h := nearest_of_mantissa (m := 0) (by decide) 0
  simpa using h

/-- Rounding keeps the order of negative numbers as well. -/
theorem nearestInt_mono {u v : ℤ} (h : u ≤ v) : nearestInt u ≤ nearestInt v := by
  rw [nearestInt, nearestInt]
  split
  · rw [if_pos (by omega)]
    exact_mod_cast nearest_mono (by omega)
  · split
    · have := Int.natCast_nonneg (nearest v.toNat)
      have := Int.natCast_nonneg (nearest (-u).toNat)
      omega
    · have := nearest_mono (show (-v).toNat ≤ (-u).toNat by omega)
      omega

/-- Rounding does not depend on the sign. -/
theorem nearestInt_apply (s : Sign) (m : ℕ) : nearestInt (s.apply m) = s.apply (nearest m : ℕ) := by
  cases s with
  | positive => simp [nearestInt, Sign.apply]
  | negative =>
      rcases Nat.eq_zero_or_pos m with rfl | hpos
      · simp [nearestInt, Sign.apply, nearest_zero]
      · have hneg : ¬ (0 : ℤ) ≤ -m := by omega
        rw [nearestInt, Sign.apply, if_neg hneg, neg_neg, Int.toNat_natCast]
        rfl

/-- Numbers are their own nearest numbers, and so are their doubles. -/
theorem nearestInt_units {u : UnpackedFloat} (h : IsResult u) :
    nearestInt (units u) = units u ∧ nearestInt (2 * units u) = 2 * units u := by
  cases h with
  | zero s => constructor <;> simp [units, nearestInt, nearest_zero]
  | @finite s m e h standard =>
      have hdouble : 2 * s.apply (m * 2 ^ (e + 1074).toNat : ℕ) =
          s.apply (m * 2 ^ ((e + 1074).toNat + 1) : ℕ) := by
        cases s <;> simp only [Sign.apply] <;> push_cast <;> ring
      rw [units, hdouble, nearestInt_apply, nearestInt_apply, nearest_of_mantissa standard.lt,
        nearest_of_mantissa standard.lt]
      exact ⟨rfl, rfl⟩

/-- What is normalized is rounded to the nearest number. -/
theorem normalize_result {mantissa e : ℤ} (he : -1074 ≤ e) (zeroSign : Sign) :
    IsResult (UnpackedFloat.normalize .binary64 mantissa e zeroSign) ∧
      units (UnpackedFloat.normalize .binary64 mantissa e zeroSign) =
        nearestInt (mantissa * 2 ^ (e + 1074).toNat) := by
  rw [UnpackedFloat.normalize]
  rcases lt_trichotomy mantissa 0 with hneg | rfl | hpos
  · obtain ⟨hresult, hunits⟩ := round_result .negative (show 0 < (-mantissa).toNat by omega) he
    rw [compare_lt_iff_lt.mpr hneg]
    refine ⟨hresult, hunits.trans ?_⟩
    rw [← nearestInt_apply]
    congr 1
    simp only [Sign.apply]
    push_cast
    rw [Int.toNat_of_nonneg (by omega)]
    ring
  · rw [compare_eq_iff_eq.mpr rfl]
    exact ⟨.zero zeroSign, by simp [units, nearestInt, nearest_zero]⟩
  · obtain ⟨hresult, hunits⟩ := round_result .positive (show 0 < mantissa.toNat by omega) he
    rw [compare_gt_iff_gt.mpr hpos]
    refine ⟨hresult, hunits.trans ?_⟩
    rw [← nearestInt_apply]
    congr 1
    simp only [Sign.apply]
    push_cast
    rw [Int.toNat_of_nonneg (by omega)]

/-- A number at a lower exponent. -/
theorem apply_decrease (s : Sign) (m : ℕ) {e e' : ℤ} (he' : -1074 ≤ e') (hle : e' ≤ e) :
    s.apply ((UnpackedFloat.decreaseExponent m e e').1 : ℕ) * 2 ^ (e' + 1074).toNat =
      s.apply (m * 2 ^ (e + 1074).toNat : ℕ) := by
  have hsum : (e - e').toNat + (e' + 1074).toNat = (e + 1074).toNat := by omega
  rw [decreaseExponent, Nat.shiftLeft_eq, ← hsum]
  cases s <;> simp only [Sign.apply] <;> push_cast <;> ring

/-- **Sums are rounded to the nearest number.** -/
theorem add_result {u v : UnpackedFloat} (hu : IsResult u) (hv : IsResult v) :
    IsResult (UnpackedFloat.add .binary64 u v) ∧
      units (UnpackedFloat.add .binary64 u v) = nearestInt (units u + units v) := by
  cases hu with
  | zero s =>
      cases hv with
      | zero s' =>
          have hzero := (nearestInt_units (.zero s)).1.symm
          cases s <;> cases s' <;> exact ⟨.zero _, hzero⟩
      | finite s' h' standard' =>
          have hv := IsResult.finite s' h' standard'
          refine ⟨hv, ?_⟩
          rw [show units (.zero s) = 0 from rfl, zero_add, (nearestInt_units hv).1]
          rfl
  | @finite s m e h standard =>
      cases hv with
      | zero s' =>
          have hu := IsResult.finite s h standard
          refine ⟨hu, ?_⟩
          rw [show units (.zero s') = 0 from rfl, add_zero, (nearestInt_units hu).1]
          rfl
      | @finite s' m' e' h' standard' =>
          have hmin : -1074 ≤ min e e' := le_min standard.least_le standard'.least_le
          obtain ⟨hresult, hunits⟩ := @normalize_result
            (s.apply ((decreaseExponent m e (min e e')).1 : ℕ) +
              s'.apply ((decreaseExponent m' e' (min e e')).1 : ℕ)) _ hmin .positive
          rw [add_mul, apply_decrease s m hmin (min_le_left _ _),
            apply_decrease s' m' hmin (min_le_right _ _)] at hunits
          exact ⟨hresult, hunits⟩

/-- The negative of a result is a result. -/
theorem neg_result {u : UnpackedFloat} (hu : IsResult u) :
    IsResult u.neg ∧ units u.neg = -units u := by
  cases hu with
  | zero s => exact ⟨.zero _, rfl⟩
  | @finite s m e h standard =>
      refine ⟨.finite _ h standard, ?_⟩
      cases s
      · exact (neg_neg _).symm
      · rfl

/-- **Differences are rounded to the nearest number.** -/
theorem sub_result {u v : UnpackedFloat} (hu : IsResult u) (hv : IsResult v) :
    IsResult (UnpackedFloat.sub .binary64 u v) ∧
      units (UnpackedFloat.sub .binary64 u v) = nearestInt (units u - units v) := by
  have hadd : UnpackedFloat.sub .binary64 u v = UnpackedFloat.add .binary64 u v.neg := by
    cases hu with
    | zero s => cases hv <;> rfl
    | @finite s m e h standard =>
        cases hv with
        | zero s' => rfl
        | @finite s' m' e' h' standard' =>
            rw [UnpackedFloat.sub, UnpackedFloat.neg, UnpackedFloat.add]
            cases s'
            · dsimp only [Sign.apply]
              rw [sub_neg_eq_add]
            · rfl
  obtain ⟨hv', hunits⟩ := neg_result hv
  rw [hadd, sub_eq_add_neg, ← hunits]
  exact add_result hu hv'

/-! ## Halves -/

/-- Two, as its bits say. -/
def two : UnpackedFloat := .finite .positive (2 ^ 52) (-51) (Nat.two_pow_pos 52)

/-- The machine's two is this number. -/
theorem unpacked_two : unpacked (Scalar.two : Float) = two := rfl

/-- Halving divides the mantissa, shifted as far as the exponent allows. -/
theorem div_two (s : Sign) {m : ℕ} {e T : ℤ} (h : 0 < m)
    (hT : min (e + 51) (max ((m.log2 : ℤ) + e - 54) (-1074)) = T) :
    UnpackedFloat.div .binary64 (.finite s m e h) two =
      roundWithAccuracy .binary64 s (m * 2 ^ (e + 51 - T).toNat / 2 ^ 52) T
        (accuracyOfFraction (m * 2 ^ (e + 51 - T).toNat % 2 ^ 52) (2 ^ 52)) := by
  have htotal : totalExponent (2 ^ 52) (-51) = 2 := by
    rw [totalExponent, Nat.log2_two_pow]
    rfl
  have htarget : min (e - -51) (Format.binary64.targetExponent
      (totalExponent m e - totalExponent (2 ^ 52) (-51))) = T := by
    rw [htotal, ← hT]
    show min (e - -51) (max ((m.log2 : ℤ) + 1 + e - 2 - 53) (-1074)) = _
    congr 2
    · omega
  have hsign : s / Sign.positive = s := by cases s <;> rfl
  rw [two, UnpackedFloat.div, divCore, htarget, hsign]
  dsimp only
  rw [Nat.shiftLeft_eq]
  congr 4

/-- Among the least numbers, a half is off by half a unit if the number is odd. -/
theorem half_least (s : Sign) {m : ℕ} (h : 0 < m) (hm : m < 2 ^ 53) :
    ∃ r : ℕ, m ≤ 2 * r + 1 ∧ 2 * r ≤ m + 1 ∧
      IsResult (UnpackedFloat.div .binary64 (.finite s m (-1074) h) two) ∧
      units (UnpackedFloat.div .binary64 (.finite s m (-1074) h) two) = s.apply (r : ℕ) := by
  have hlog : m.log2 ≤ 52 := Nat.le_of_lt_succ ((Nat.log2_lt h.ne').mpr hm)
  have hquotient : m * 2 ^ 51 / 2 ^ 52 = m / 2 := by omega
  have hrest : m * 2 ^ 51 % 2 ^ 52 = m % 2 * 2 ^ 51 := by omega
  have hT : min ((-1074 : ℤ) + 51) (max ((m.log2 : ℤ) + -1074 - 54) (-1074)) = -1074 := by omega
  rw [div_two s h hT, show ((-1074 : ℤ) + 51 - -1074).toNat = 51 from rfl, hquotient, hrest]
  -- no bits of the half are cut off
  have hshift : ∀ a, shiftToTargetExponent .binary64 (m / 2) (-1074) a =
      (ExtendedMantissa.ofMantissaAndAccuracy (m / 2) a, -1074) := by
    intro a
    have hlog' : (m / 2).log2 ≤ 51 := by
      rcases Nat.eq_zero_or_pos (m / 2) with hzero | hpos
      · rw [hzero]
        decide
      · exact Nat.le_of_lt_succ ((Nat.log2_lt hpos.ne').mpr (by omega))
    have hamount : (Format.binary64.targetExponent (totalExponent (m / 2) (-1074)) -
        -1074).toNat = 0 := by
      rw [targetExponent_eq]
      omega
    rw [shiftToTargetExponent, shiftToExponent, hamount]
    rfl
  have hresult : ∀ a r, (ExtendedMantissa.ofMantissaAndAccuracy (m / 2) a).roundedMantissa = r →
      r ≤ m / 2 + 1 → IsResult (roundWithAccuracy .binary64 s (m / 2) (-1074) a) ∧
        units (roundWithAccuracy .binary64 s (m / 2) (-1074) a) = s.apply (r : ℕ) := by
    rintro a r rfl hle
    have h := rounded_result (s := s) (hshift a) (by omega) (by omega) (.inl rfl)
    rwa [show ((-1074 : ℤ) + 1074).toNat = 0 from rfl, pow_zero, mul_one] at h
  rcases Nat.mod_two_eq_zero_or_one m with heven | hodd
  · rw [heven]
    exact ⟨m / 2, by omega, by omega, hresult _ _ rfl (by omega)⟩
  · rw [hodd]
    exact ⟨m / 2 + m / 2 % 2, by omega, by omega, hresult _ _ rfl (by omega)⟩

/-- All other numbers have an exact half. -/
theorem half_normal (s : Sign) {m : ℕ} {e : ℤ} (h : 0 < m) (hm : m < 2 ^ 53) (hm' : 2 ^ 52 ≤ m)
    (he : -1074 < e) :
    IsResult (UnpackedFloat.div .binary64 (.finite s m e h) two) ∧
      units (UnpackedFloat.div .binary64 (.finite s m e h) two) =
        s.apply (m * 2 ^ (e + 1073).toNat : ℕ) := by
  have hlog : m.log2 = 52 := (Nat.log2_eq_iff h.ne').mpr ⟨hm', hm⟩
  -- the quotient has one zero more than the number, if its exponent permits
  obtain ⟨j, k, hjk, hT⟩ : ∃ j k : ℕ, j + k = (e + 1073).toNat ∧
      min (e + 51) (max ((m.log2 : ℤ) + e - 54) (-1074)) = k - 1074 ∧
      (e + 51 - ((k : ℤ) - 1074)).toNat = j + 52 := by
    rcases eq_or_ne e (-1073) with rfl | hne
    · exact ⟨0, 0, by omega, by omega, by omega⟩
    · exact ⟨1, (e + 1072).toNat, by omega, by omega, by omega⟩
  have hsplit : m * 2 ^ (j + 52) = m * 2 ^ j * 2 ^ 52 := by rw [pow_add, mul_assoc]
  have hwhole : m * 2 ^ j * 2 ^ k = m * 2 ^ (e + 1073).toNat := by
    rw [mul_assoc, ← pow_add, hjk]
  have hexcess : k ≤ excess (m * 2 ^ j * 2 ^ k) := by
    rw [excess, log2_mul_pow (by positivity), log2_mul_pow h]
    omega
  rw [div_two s h hT.1, hT.2, hsplit, Nat.mul_div_cancel _ (by decide), Nat.mul_mod_left]
  have hresult := cut_result s (by positivity) hexcess
  rwa [hwhole, nearest_of_mantissa hm] at hresult

/-- **A half is off by half a unit at most.** -/
theorem half_result {u : UnpackedFloat} (hu : IsResult u) :
    IsResult (UnpackedFloat.div .binary64 u two) ∧
      units u ≤ 2 * units (UnpackedFloat.div .binary64 u two) + 1 ∧
      2 * units (UnpackedFloat.div .binary64 u two) ≤ units u + 1 := by
  cases hu with
  | zero s =>
      refine ⟨.zero _, ?_⟩
      show (0 : ℤ) ≤ 2 * 0 + 1 ∧ 2 * (0 : ℤ) ≤ 0 + 1
      decide
  | @finite s m e h standard =>
      have hexponent := standard.least_le
      rcases eq_or_ne e (-1074) with rfl | hne
      · obtain ⟨r, hlower, hupper, hresult, hunits⟩ := half_least s h standard.lt
        refine ⟨hresult, ?_⟩
        rw [hunits, units, show ((-1074 : ℤ) + 1074).toNat = 0 from rfl, pow_zero, mul_one]
        cases s <;> simp only [Sign.apply] <;> omega
      · have he : -1074 < e := by omega
        obtain ⟨hresult, hunits⟩ :=
          half_normal s h standard.lt (standard.normal.resolve_left hne) he
        have hdouble : (e + 1074).toNat = (e + 1073).toNat + 1 := by omega
        refine ⟨hresult, ?_⟩
        rw [hunits, units, hdouble, pow_succ, ← mul_assoc]
        cases s <;> simp only [Sign.apply] <;> omega

/-! ## Products with one -/

/-- One, as its bits say. -/
def one : UnpackedFloat := .finite .positive (2 ^ 52) (-52) (Nat.two_pow_pos 52)

/-- The machine's one is this number. -/
theorem unpacked_one : unpacked (1 : Float) = one := rfl

/-- One times a result is the result. -/
theorem one_mul_result {u : UnpackedFloat} (h : IsResult u) :
    UnpackedFloat.mul .binary64 one u = u := by
  cases h with
  | zero s => cases s <;> rfl
  | @finite s m e hpos standard =>
      have hleast := standard.least_le
      have hlog : m.log2 ≤ 52 := Nat.le_of_lt_succ ((Nat.log2_lt hpos.ne').mpr standard.lt)
      have hlog' : e = -1074 ∨ m.log2 = 52 := standard.normal.imp_right fun hm =>
        (Nat.log2_eq_iff hpos.ne').mpr ⟨hm, standard.lt⟩
      have hamount : (Format.binary64.targetExponent (totalExponent (m * 2 ^ 52) (-52 + e)) -
          (-52 + e)).toNat = 52 := by
        rw [targetExponent_eq, log2_mul_pow hpos]
        omega
      have hrounded : ((⟨m * 2 ^ 52, false, false⟩ : ExtendedMantissa) >>> 52).roundedMantissa =
          m := by
        rw [(cut_shift _ _).roundedMantissa_eq, roundedQuotient_of_dvd (Nat.dvd_mul_left _ _),
          Nat.mul_div_cancel _ (by decide)]
      have hexponent : -52 + e + ((52 : ℕ) : ℤ) = e := by omega
      have hsign : Sign.positive * s = s := by cases s <;> rfl
      have hshift : shiftToTargetExponent .binary64 (m * 2 ^ 52) (-52 + e) .exact =
          ((⟨m * 2 ^ 52, false, false⟩ : ExtendedMantissa) >>> 52, e) := by
        rw [shiftToTargetExponent, shiftToExponent, hamount, hexponent]
        rfl
      rw [one, UnpackedFloat.mul, hsign, Nat.mul_comm, roundWithAccuracy, hshift]
      dsimp only
      rw [hrounded, shift_none standard.lt hleast]
      exact dif_neg hpos.ne'

end Binary64

end FormulaGraph
