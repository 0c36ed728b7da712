import FormulaGraph.Proofs.Binary64Rounding

/-!
# Brackets of binary numbers

A result is stored as it is, or as infinity where its exponent is too great for the bits: sums,
differences and halves of finite numbers are defined, and the order is kept.  So the middle of a
bracket lies between its ends unless their sum overflows, and no two numbers in a bracket are
farther apart than its ends: bracket searches find their way among the machine's numbers
(`BracketNumbers Float`), and always come to an end (`Binary64.returns`).
-/

namespace FormulaGraph

open Float.Model Float.Model.UnpackedFloat

namespace Binary64

/-! ## Results, stored -/

/-- The sign is the first of the bits. -/
theorem unpackSign_packComponents {s : Sign} {exponent : BitVec 11} {mantissa : BitVec 52} :
    Sign.ofBitVec (unpackSign (packComponents .binary64 s exponent mantissa)) = s := by
  have hbits : (packComponents .binary64 s exponent mantissa).toNat =
      (s.toBitVec.toNat * 2 ^ 11 + exponent.toNat) * 2 ^ 52 + mantissa.toNat := by
    show (s.toBitVec ++ exponent ++ mantissa).toNat = _
    rw [toNat_append, toNat_append]
  have hsign : unpackSign (packComponents .binary64 s exponent mantissa) = s.toBitVec := by
    refine BitVec.toNat_inj.mp ?_
    rw [toNat_unpackSign, hbits]
    omega
  rw [hsign]
  cases s <;> rfl

/-- Infinities are stored as they are. -/
theorem stored_infinity (s : Sign) : stored (.infinity s) = .infinity s := by cases s <;> rfl

/-- Zeros keep their signs. -/
theorem stored_zero (s : Sign) : stored (.zero s) = .zero s := by cases s <;> rfl

/-- The components of a number with an exponent between the least and the greatest. -/
theorem unpack_normal (s : Sign) {m k : ℕ} (h : 0 < m) (hm : m < 2 ^ 53) (hm' : 2 ^ 52 ≤ m)
    (hk : 0 < k) (hk' : k < 2047) :
    unpack .binary64 (packComponents .binary64 s (BitVec.ofNat 11 k) (BitVec.ofNat 52 m)) =
      .finite s m (k - 1075) h := by
  have hvalue : (BitVec.ofNat 11 k).toNat = k := by
    rw [BitVec.toNat_ofNat]
    omega
  have hnotAll : BitVec.ofNat 11 k ≠ -1#11 := fun heq => by
    have := congrArg BitVec.toNat heq
    rw [hvalue, show (-1#11 : BitVec 11).toNat = 2047 from rfl] at this
    omega
  have hnotNone : BitVec.ofNat 11 k ≠ 0#11 := fun heq => by
    have := congrArg BitVec.toNat heq
    rw [hvalue, show (0#11 : BitVec 11).toNat = 0 from rfl] at this
    omega
  have hmantissa : (1#1 ++ BitVec.ofNat 52 m).toNat = m := by
    rw [toNat_append, BitVec.toNat_ofNat]
    simp only [BitVec.toNat_ofNat]
    omega
  rw [UnpackedFloat.unpack]
  simp only [unpackMantissa_packComponents, unpackExponent_packComponents,
    unpackSign_packComponents, if_neg hnotAll, if_neg hnotNone, hmantissa, hvalue]
  rfl

/-- The components of a number with the least exponent and unused bits. -/
theorem unpack_least (s : Sign) {m : ℕ} (h : 0 < m) (hm : m < 2 ^ 52) :
    unpack .binary64 (packComponents .binary64 s (0#11) (BitVec.ofNat 52 m)) =
      .finite s m (-1074) h := by
  have hmantissa : (BitVec.ofNat 52 m).toNat = m := by
    rw [BitVec.toNat_ofNat]
    omega
  have hnonzero : BitVec.ofNat 52 m ≠ 0#52 := fun heq => by
    have := congrArg BitVec.toNat heq
    rw [hmantissa, show (0#52 : BitVec 52).toNat = 0 from rfl] at this
    omega
  rw [UnpackedFloat.unpack]
  simp only [unpackMantissa_packComponents, unpackExponent_packComponents,
    unpackSign_packComponents, dif_neg hnonzero, hmantissa]
  rfl

/-- A result whose exponent is not too great is stored as it is. -/
theorem stored_finite (s : Sign) {m : ℕ} {e : ℤ} (h : 0 < m) (standard : Standard m e)
    (hle : e ≤ 971) : stored (.finite s m e h) = .finite s m e h := by
  have hlt := standard.lt
  have hleast := standard.least_le
  obtain ⟨k, rfl⟩ : ∃ k : ℕ, e = k - 1075 := ⟨(e + 1075).toNat, by omega⟩
  have hexponent : ((k : ℤ) - 1075 + Format.binary64.exponentBias +
      Format.binary64.mantissaBitsWithoutImplicit).toNat = k := by
    show ((k : ℤ) - 1075 + (1023 : ℕ) + (52 : ℕ)).toNat = k
    omega
  have hroom : ¬ 2 ^ Format.binary64.exponentBits ≤ k + 1 := by
    show ¬ 2 ^ 11 ≤ k + 1
    omega
  rw [stored, UnpackedFloat.pack]
  dsimp only
  rw [hexponent, if_neg hroom]
  split
  · next hfull =>
      have hlog : m.log2 = 52 := Nat.succ.inj hfull
      exact unpack_normal s h hlt ((Nat.log2_eq_iff h.ne').mp hlog).1 (by omega) (by omega)
  · next hnotFull =>
      have hm : m < 2 ^ 52 := by
        by_contra hge
        exact hnotFull (congrArg Nat.succ ((Nat.log2_eq_iff h.ne').mpr ⟨by omega, hlt⟩))
      have hk : (k : ℤ) - 1075 = -1074 := standard.normal.resolve_right (by omega)
      rw [unpack_least s h hm, hk]

/-- A result whose exponent is too great is stored as infinity. -/
theorem stored_overflow (s : Sign) {m : ℕ} {e : ℤ} (h : 0 < m) (hgt : 971 < e) :
    stored (.finite s m e h) = .infinity s := by
  have hbias : ((Format.binary64.exponentBias : ℕ) : ℤ) = 1023 := rfl
  have hbits : ((Format.binary64.mantissaBitsWithoutImplicit : ℕ) : ℤ) = 52 := rfl
  have hroom : 2 ^ Format.binary64.exponentBits ≤ (e + Format.binary64.exponentBias +
      Format.binary64.mantissaBitsWithoutImplicit).toNat + 1 := by
    show 2 ^ 11 ≤ _
    omega
  rw [stored, UnpackedFloat.pack, if_pos hroom]
  exact stored_infinity s

/-- An exponent that is not all ones says something defined. -/
theorem unpack_defined {s : Sign} {exponent : BitVec 11} {mantissa : BitVec 52}
    (h : exponent ≠ -1#11) :
    UnpackedFloat.unpack .binary64 (packComponents .binary64 s exponent mantissa) ≠
      .notANumber := by
  rw [UnpackedFloat.unpack]
  simp only [unpackMantissa_packComponents, unpackExponent_packComponents, if_neg h]
  split
  · split <;> nofun
  · nofun

/-- Storing a number defines it. -/
theorem stored_defined {u : UnpackedFloat} (h : u ≠ .notANumber) : stored u ≠ .notANumber := by
  cases u with
  | notANumber => exact absurd rfl h
  | infinity s =>
      rw [stored_infinity]
      nofun
  | zero s =>
      rw [stored_zero]
      nofun
  | finite s m e hpos =>
      have hinfinity : stored (.infinity s) ≠ .notANumber := by
        rw [stored_infinity]
        nofun
      rw [stored, UnpackedFloat.pack]
      dsimp only
      split
      · exact hinfinity
      · next hroom =>
          split
          · refine unpack_defined fun heq => hroom ?_
            have hnat := congrArg BitVec.toNat heq
            rw [BitVec.toNat_ofNat, show (-1#11 : BitVec 11).toNat = 2047 from rfl] at hnat
            show 2 ^ 11 ≤ _
            omega
          · exact unpack_defined (by decide)

/-- Results of the operations are defined. -/
theorem IsResult.defined {u : UnpackedFloat} (h : IsResult u) : u ≠ .notANumber := by
  cases h <;> nofun

/-! ## The order of results -/

/-- A magnitude and the units it stands for, zero included. -/
inductive Counts : ℤ → ℤ → Prop
  | zero : Counts 0 0
  | finite {m : ℕ} {e : ℤ} (standard : Standard m e) :
      Counts (magnitude m e) (m * 2 ^ (e + 1074).toNat : ℕ)

/-- A magnitude is zero together with its units, or both are positive. -/
theorem Counts.pos {a b : ℤ} (h : Counts a b) : (a = 0 ∧ b = 0) ∨ (0 < a ∧ 0 < b) := by
  cases h with
  | zero => exact .inl ⟨rfl, rfl⟩
  | finite standard =>
      refine .inr ⟨standard.magnitude_pos, ?_⟩
      exact_mod_cast Nat.mul_pos standard.pos (by positivity)

/-- The greater of two magnitudes stands for more units. -/
theorem Standard.units_lt {m m' : ℕ} {e e' : ℤ} (h : Standard m e) (h' : Standard m' e')
    (hlt : magnitude m e < magnitude m' e') :
    m * 2 ^ (e + 1074).toNat < m' * 2 ^ (e' + 1074).toNat := by
  have hm := h.lt
  have hm' := h'.lt
  have hnormal := h.normal
  have hleast' := h'.least_le
  rw [magnitude, magnitude] at hlt
  rcases lt_trichotomy e e' with hexponent | rfl | hexponent
  · have hleast := h.least_le
    have hfull : 2 ^ 52 ≤ m' := h'.normal.resolve_left (by omega)
    calc m * 2 ^ (e + 1074).toNat < 2 ^ 53 * 2 ^ (e + 1074).toNat :=
          Nat.mul_lt_mul_of_pos_right hm (by positivity)
      _ = 2 ^ 52 * 2 ^ ((e + 1074).toNat + 1) := by ring
      _ ≤ 2 ^ 52 * 2 ^ (e' + 1074).toNat :=
          Nat.mul_le_mul_left _ (Nat.pow_le_pow_right (by decide) (by omega))
      _ ≤ m' * 2 ^ (e' + 1074).toNat := Nat.mul_le_mul_right _ hfull
  · exact Nat.mul_lt_mul_of_pos_right (by omega) (by positivity)
  · omega

/-- Greater magnitudes stand for more units. -/
theorem Counts.lt {a b a' b' : ℤ} (h : Counts a b) (h' : Counts a' b') (hlt : a < a') :
    b < b' := by
  cases h' with
  | zero =>
      have := h.pos
      omega
  | finite standard' =>
      cases h with
      | zero => exact_mod_cast Nat.mul_pos standard'.pos (by positivity)
      | finite standard => exact_mod_cast standard.units_lt standard' hlt

/-- A magnitude stands for one number of units. -/
theorem Counts.eq {a b b' : ℤ} (h : Counts a b) (h' : Counts a b') : b = b' := by
  obtain ⟨a', heq⟩ : ∃ a', a' = a := ⟨a, rfl⟩
  rw [← heq] at h'
  cases h with
  | zero =>
      have := h'.pos
      omega
  | @finite m e standard =>
      have hpos := standard.magnitude_pos
      cases h' with
      | zero => omega
      | @finite m' e' standard' =>
          have hlt := standard.lt
          have hlt' := standard'.lt
          have hleast := standard.least_le
          have hleast' := standard'.least_le
          have hnormal := standard.normal
          have hnormal' := standard'.normal
          rw [magnitude, magnitude] at heq
          obtain rfl : e' = e := by omega
          obtain rfl : m' = m := by omega
          rfl

variable {u v : UnpackedFloat}

/-- The place and the units of a result are a magnitude and what it stands for, with one sign.
-/
theorem IsResult.counts (h : IsResult u) :
    ∃ (s : Sign) (a b : ℤ), Counts a b ∧ place u = s.apply a ∧ units u = s.apply b := by
  cases h with
  | zero s => exact ⟨.positive, 0, 0, .zero, rfl, rfl⟩
  | finite s hpos standard => exact ⟨s, _, _, .finite standard, rfl, rfl⟩

/-- **Results are ordered by the units they count.** -/
theorem place_le_iff (hu : IsResult u) (hv : IsResult v) :
    place u ≤ place v ↔ units u ≤ units v := by
  obtain ⟨s, a, b, hcounts, hplace, hunits⟩ := hu.counts
  obtain ⟨s', a', b', hcounts', hplace', hunits'⟩ := hv.counts
  rw [hplace, hplace', hunits, hunits']
  have hpos := hcounts.pos
  have hpos' := hcounts'.pos
  have hlt : a < a' → b < b' := hcounts.lt hcounts'
  have hgt : a' < a → b' < b := hcounts'.lt hcounts
  have heq : a = a' → b = b' := by
    rintro rfl
    exact hcounts.eq hcounts'
  cases s <;> cases s' <;> simp only [Sign.apply] <;> omega

/-- Storing a result brings it into the range of the stored ones. -/
theorem place_stored (hu : IsResult u) :
    place (stored u) = max (-infiniteRank) (min infiniteRank (place u)) := by
  have hinfinite : 0 < infiniteRank := by decide
  cases hu with
  | zero s =>
      rw [stored_zero, place]
      omega
  | @finite s m e h standard =>
      have hpos := standard.magnitude_pos
      rcases le_or_gt e 971 with hle | hgt
      · have hlt := standard.magnitude_lt hle
        rw [stored_finite s h standard hle]
        cases s <;> simp only [place, Sign.apply] <;> omega
      · have hfull : 2 ^ 52 ≤ m := standard.normal.resolve_left (by omega)
        have hge : infiniteRank ≤ magnitude m e := by
          rw [magnitude, infiniteRank]
          omega
        rw [stored_overflow s h hgt]
        cases s <;> simp only [place, Sign.apply] <;> omega

/-- What is finite once it is stored is stored as it is. -/
theorem stored_eq (hu : IsResult u) (h : IsResult (stored u)) : stored u = u := by
  cases hu with
  | zero s => exact stored_zero s
  | @finite s m e hpos standard =>
      rcases le_or_gt e 971 with hle | hgt
      · exact stored_finite s hpos standard hle
      · rw [stored_overflow s hpos hgt] at h
        cases h

/-- Storing keeps the order. -/
theorem place_stored_mono (hu : IsResult u) (hv : IsResult v) (h : units u ≤ units v) :
    place (stored u) ≤ place (stored v) := by
  rw [place_stored hu, place_stored hv]
  have := (place_le_iff hu hv).mpr h
  omega

/-! ## Finite numbers -/

variable {x y : Float}

/-- Finite numbers are those whose bits say a zero, or a mantissa and an exponent. -/
theorem isFinite_iff : Scalar.IsFinite x ↔ IsResult (unpacked x) := by
  rw [Scalar.IsFinite, isNaN_eq_false_iff, unpacked_sub]
  have hcanonical := canonical_unpacked x
  generalize unpacked x = u at *
  constructor
  · intro h
    cases hcanonical with
    | notANumber => exact absurd rfl h
    | infinity s => cases s <;> exact absurd rfl h
    | zero s => exact .zero s
    | finite s hpos standard => exact .finite s hpos standard
  · intro h
    exact stored_defined (sub_result h h).1.defined

/-- What is neither undefined nor finite is infinite. -/
theorem infinite_of_not_finite (hx : Scalar.isNaN x = false) (h : ¬ Scalar.IsFinite x) :
    ∃ s, unpacked x = .infinity s := by
  rw [isFinite_iff] at h
  rw [isNaN_eq_false_iff] at hx
  have hcanonical := canonical_unpacked x
  generalize unpacked x = u at *
  cases hcanonical with
  | notANumber => exact absurd rfl hx
  | infinity s => exact ⟨s, rfl⟩
  | zero s => exact absurd (.zero s) h
  | finite s hpos standard => exact absurd (.finite s hpos standard) h

/-- Finite numbers are defined. -/
theorem defined_of_finite (h : Scalar.IsFinite x) : Scalar.isNaN x = false := by
  rw [isFinite_iff] at h
  rw [isNaN_eq_false_iff]
  rintro heq
  rw [heq] at h
  cases h

/-- Finite numbers are those between the infinite ones. -/
theorem isFinite_iff_rank (hx : Scalar.isNaN x = false) :
    Scalar.IsFinite x ↔ -infiniteRank < rank x ∧ rank x < infiniteRank := by
  rw [isFinite_iff, rank_eq hx]
  rw [isNaN_eq_false_iff] at hx
  have hinfinite : 0 < infiniteRank := by decide
  have hcanonical := canonical_unpacked x
  generalize unpacked x = u at *
  cases hcanonical with
  | notANumber => exact absurd rfl hx
  | infinity s =>
      refine ⟨nofun, fun h => ?_⟩
      cases s <;> simp only [place, Sign.apply] at h <;> omega
  | zero s => exact ⟨fun _ => by rw [place]; omega, fun _ => .zero s⟩
  | finite s hpos standard hle =>
      have := standard.magnitude_pos
      have := standard.magnitude_lt hle
      refine ⟨fun _ => ?_, fun _ => .finite s hpos standard⟩
      cases s <;> simp only [place, Sign.apply] <;> omega

/-- All ranks are between those of the infinities. -/
theorem rank_range (hx : Scalar.isNaN x = false) :
    -infiniteRank ≤ rank x ∧ rank x ≤ infiniteRank := by
  by_cases hfinite : Scalar.IsFinite x
  · have := (isFinite_iff_rank hx).mp hfinite
    omega
  · obtain ⟨s, hs⟩ := infinite_of_not_finite hx hfinite
    have hinfinite : 0 < infiniteRank := by decide
    rw [rank_eq hx, hs]
    cases s <;> simp only [place, Sign.apply] <;> omega

/-- Finite numbers are ordered by the units they count. -/
theorem rank_le_iff (hx : Scalar.IsFinite x) (hy : Scalar.IsFinite y) :
    rank x ≤ rank y ↔ units (unpacked x) ≤ units (unpacked y) := by
  rw [rank_eq (defined_of_finite hx), rank_eq (defined_of_finite hy)]
  exact place_le_iff (isFinite_iff.mp hx) (isFinite_iff.mp hy)

/-! ## Sums and differences -/

/-- An undefined result is no finite number. -/
theorem not_result_notANumber : ¬ IsResult (stored .notANumber) := nofun

/-- An infinite result is no finite number. -/
theorem not_result_infinity (s : Sign) : ¬ IsResult (stored (.infinity s)) := by
  rw [stored_infinity]
  nofun

/-- A finite summand does not change infinity. -/
theorem add_infinity (s : Sign) (hv : IsResult v) :
    UnpackedFloat.add .binary64 (.infinity s) v = .infinity s := by
  cases hv <;> rfl

/-- A finite subtrahend does not change infinity. -/
theorem infinity_sub (s : Sign) (hv : IsResult v) :
    UnpackedFloat.sub .binary64 (.infinity s) v = .infinity s := by
  cases hv <;> rfl

/-- Infinity taken from a finite number leaves its negative. -/
theorem sub_infinity (s : Sign) (hu : IsResult u) :
    UnpackedFloat.sub .binary64 u (.infinity s) = .infinity (-s) := by
  cases hu <;> rfl

/-- A sum is finite only if both numbers are. -/
theorem finite_of_sum (h : Scalar.IsFinite (x + y)) : Scalar.IsFinite x ∧ Scalar.IsFinite y := by
  rw [isFinite_iff, unpacked_add] at h
  rw [isFinite_iff, isFinite_iff]
  have hx := canonical_unpacked x
  have hy := canonical_unpacked y
  generalize unpacked x = u at *
  generalize unpacked y = v at *
  cases hx with
  | notANumber => cases hy <;> exact absurd h not_result_notANumber
  | infinity s =>
      cases hy with
      | notANumber => exact absurd h not_result_notANumber
      | infinity s' =>
          cases s <;> cases s' <;>
            first | exact absurd h not_result_notANumber | exact absurd h (not_result_infinity _)
      | _ => exact absurd h (not_result_infinity s)
  | zero s =>
      cases hy with
      | notANumber => exact absurd h not_result_notANumber
      | infinity s' => exact absurd h (not_result_infinity s')
      | zero s' => exact ⟨.zero s, .zero s'⟩
      | finite s' hpos' standard' => exact ⟨.zero s, .finite s' hpos' standard'⟩
  | finite s hpos standard =>
      cases hy with
      | notANumber => exact absurd h not_result_notANumber
      | infinity s' => exact absurd h (not_result_infinity s')
      | zero s' => exact ⟨.finite s hpos standard, .zero s'⟩
      | finite s' hpos' standard' => exact ⟨.finite s hpos standard, .finite s' hpos' standard'⟩

/-- A sum with a finite side is defined, unless the other is not. -/
theorem sum_defined (hx : Scalar.isNaN x = false) (hy : Scalar.IsFinite y) :
    Scalar.isNaN (x + y) = false := by
  rw [isNaN_eq_false_iff, unpacked_add]
  rw [isFinite_iff] at hy
  by_cases hfinite : Scalar.IsFinite x
  · exact stored_defined (add_result (isFinite_iff.mp hfinite) hy).1.defined
  · obtain ⟨s, hs⟩ := infinite_of_not_finite hx hfinite
    rw [hs, add_infinity s hy, stored_infinity]
    nofun

/-- A finite sum is the nearest number to the sum of the units. -/
theorem units_sum (h : Scalar.IsFinite (x + y)) :
    units (unpacked (x + y)) = nearestInt (units (unpacked x) + units (unpacked y)) := by
  obtain ⟨hx, hy⟩ := finite_of_sum h
  obtain ⟨hresult, hunits⟩ := add_result (isFinite_iff.mp hx) (isFinite_iff.mp hy)
  rw [isFinite_iff, unpacked_add] at h
  rw [unpacked_add, stored_eq hresult h, hunits]

/-- Infinities have the greatest and the least rank. -/
theorem rank_infinity {s : Sign} (h : unpacked x = .infinity s) :
    rank x = s.apply infiniteRank := by
  have hx : Scalar.isNaN x = false := by
    rw [isNaN_eq_false_iff, h]
    nofun
  rw [rank_eq hx, h, place]

/-- The width of a bracket with an infinite end is infinite. -/
theorem width_infinite (hx : Scalar.isNaN x = false) (hy : Scalar.isNaN y = false)
    (hless : rank x < rank y) (h : ¬ (Scalar.IsFinite x ∧ Scalar.IsFinite y)) :
    unpacked (y - x) = .infinity .positive := by
  -- only the lower end can be infinite and negative, and only the upper one infinite and positive
  have hlow : ∀ {s}, unpacked x = .infinity s → s = .negative := by
    intro s hs
    have hrange := (rank_range hy).2
    rw [rank_infinity hs] at hless
    cases s with
    | negative => rfl
    | positive => exact absurd hrange (not_le.mpr hless)
  have hhigh : ∀ {s}, unpacked y = .infinity s → s = .positive := by
    intro s hs
    have hrange := (rank_range hx).1
    rw [rank_infinity hs] at hless
    cases s with
    | negative => exact absurd hrange (not_le.mpr hless)
    | positive => rfl
  rw [unpacked_sub]
  by_cases hfinite : Scalar.IsFinite x
  · obtain ⟨s, hs⟩ := infinite_of_not_finite hy fun hfinite' => h ⟨hfinite, hfinite'⟩
    obtain rfl := hhigh hs
    rw [hs, infinity_sub .positive (isFinite_iff.mp hfinite), stored_infinity]
  · obtain ⟨s, hs⟩ := infinite_of_not_finite hx hfinite
    obtain rfl := hlow hs
    rw [hs]
    by_cases hfinite' : Scalar.IsFinite y
    · rw [sub_infinity .negative (isFinite_iff.mp hfinite'), stored_infinity]
      rfl
    · obtain ⟨s', hs'⟩ := infinite_of_not_finite hy hfinite'
      obtain rfl := hhigh hs'
      rw [hs']
      rfl

/-- Numbers of the same rank have no difference if they are infinite. -/
theorem sub_undefined (hx : Scalar.isNaN x = false) (hy : Scalar.isNaN y = false)
    (heq : rank x = rank y) (h : ¬ Scalar.IsFinite x) : Scalar.isNaN (x - y) = true := by
  have h' : ¬ Scalar.IsFinite y := by rwa [isFinite_iff_rank hy, ← heq, ← isFinite_iff_rank hx]
  obtain ⟨s, hs⟩ := infinite_of_not_finite hx h
  obtain ⟨s', hs'⟩ := infinite_of_not_finite hy h'
  rw [rank_infinity hs, rank_infinity hs'] at heq
  rw [isNaN_iff, unpacked_sub, hs, hs']
  cases s <;> cases s' <;> first | rfl | exact absurd heq (by decide)

/-- The width of a bracket is defined. -/
theorem width_defined (hless : Scalar.less x y = true) : Scalar.isNaN (y - x) = false := by
  obtain ⟨hx, hy, hrank⟩ := less_iff.mp hless
  rw [isNaN_eq_false_iff]
  by_cases hfinite : Scalar.IsFinite x ∧ Scalar.IsFinite y
  · rw [unpacked_sub]
    have hwidth := sub_result (isFinite_iff.mp hfinite.2) (isFinite_iff.mp hfinite.1)
    exact stored_defined hwidth.1.defined
  · rw [width_infinite hx hy hrank hfinite]
    nofun

/-- **No two numbers in a bracket are farther from each other than its ends.** -/
theorem width_greatest {a b : Float} (hax : Scalar.atMost a x = true)
    (hxb : Scalar.atMost x b = true) (hay : Scalar.atMost a y = true)
    (hyb : Scalar.atMost y b = true) : Scalar.less (b - a) (x - y) = false := by
  obtain ⟨ha, hx, hax⟩ := atMost_iff.mp hax
  obtain ⟨-, hb, hxb⟩ := atMost_iff.mp hxb
  obtain ⟨-, hy, hay⟩ := atMost_iff.mp hay
  obtain ⟨-, -, hyb⟩ := atMost_iff.mp hyb
  rw [Bool.eq_false_iff]
  intro hless
  obtain ⟨hdefined, hdefined', hrank⟩ := less_iff.mp hless
  by_cases hfinite : Scalar.IsFinite a ∧ Scalar.IsFinite b
  · obtain ⟨hfiniteA, hfiniteB⟩ := hfinite
    have hrangeA := (isFinite_iff_rank ha).mp hfiniteA
    have hrangeB := (isFinite_iff_rank hb).mp hfiniteB
    have hfiniteX : Scalar.IsFinite x := (isFinite_iff_rank hx).mpr (by omega)
    have hfiniteY : Scalar.IsFinite y := (isFinite_iff_rank hy).mpr (by omega)
    rw [rank_le_iff hfiniteX hfiniteB] at hxb
    rw [rank_le_iff hfiniteA hfiniteY] at hay
    rw [isFinite_iff] at hfiniteA hfiniteB hfiniteX hfiniteY
    obtain ⟨hwidth, hunits⟩ := sub_result hfiniteB hfiniteA
    obtain ⟨hwidth', hunits'⟩ := sub_result hfiniteX hfiniteY
    have hle : rank (x - y) ≤ rank (b - a) := by
      rw [rank_eq hdefined, rank_eq hdefined', unpacked_sub, unpacked_sub]
      refine place_stored_mono hwidth' hwidth ?_
      rw [hunits, hunits']
      exact nearestInt_mono (by omega)
    omega
  · rcases (hax.trans hxb).lt_or_eq with hlt | heq
    · have hgreatest := (rank_range hdefined').2
      rw [rank_infinity (width_infinite ha hb hlt hfinite)] at hrank
      exact absurd hgreatest (not_le.mpr hrank)
    · -- all four are the same infinite number
      have hinfinite : ¬ Scalar.IsFinite x := by
        intro hfiniteX
        rw [isFinite_iff_rank hx] at hfiniteX
        rw [isFinite_iff_rank ha, isFinite_iff_rank hb] at hfinite
        omega
      rw [sub_undefined hx hy (by omega) hinfinite] at hdefined'
      cases hdefined'

/-! ## Doubles and halves -/

/-- Infinity doubled is infinity. -/
theorem infinity_mul_two (s : Sign) :
    UnpackedFloat.mul .binary64 (.infinity s) two = .infinity s := by
  cases s <;> rfl

/-- Infinity halved is infinity. -/
theorem infinity_div_two (s : Sign) :
    UnpackedFloat.div .binary64 (.infinity s) two = .infinity s := by
  cases s <;> rfl

/-- The undefined number doubled is undefined. -/
theorem notANumber_mul_two : UnpackedFloat.mul .binary64 .notANumber two = .notANumber := rfl

/-- Doubling makes nothing undefined. -/
theorem mul_two_defined (h : u ≠ .notANumber) :
    UnpackedFloat.mul .binary64 u two ≠ .notANumber := by
  cases u with
  | notANumber => exact absurd rfl h
  | infinity s =>
      rw [infinity_mul_two]
      nofun
  | zero s =>
      intro heq
      cases heq
  | finite s m e hpos =>
      rw [two, UnpackedFloat.mul, roundWithAccuracy]
      dsimp only
      split
      · intro heq
        cases heq
      · intro heq
        cases heq

/-- If the double is finite, so is the number. -/
theorem finite_of_double (h : Scalar.IsFinite (x * Scalar.two)) : Scalar.IsFinite x := by
  by_contra hnot
  rw [isFinite_iff, unpacked_mul, unpacked_two] at h
  cases hx : Scalar.isNaN x with
  | true =>
      rw [isNaN_iff.mp hx, notANumber_mul_two] at h
      exact not_result_notANumber h
  | false =>
      obtain ⟨s, hs⟩ := infinite_of_not_finite hx hnot
      rw [hs, infinity_mul_two] at h
      exact not_result_infinity s h

/-- Doubling keeps the machine's numbers defined. -/
theorem double_defined (hx : Scalar.isNaN x = false) : Scalar.isNaN (x * Scalar.two) = false := by
  rw [isNaN_eq_false_iff] at hx ⊢
  rw [unpacked_mul, unpacked_two]
  exact stored_defined (mul_two_defined hx)

/-- Halving makes nothing undefined either. -/
theorem half_defined (hx : Scalar.isNaN x = false) : Scalar.isNaN (x / Scalar.two) = false := by
  rw [isNaN_eq_false_iff, unpacked_div, unpacked_two]
  by_cases hfinite : Scalar.IsFinite x
  · exact stored_defined (half_result (isFinite_iff.mp hfinite)).1.defined
  · obtain ⟨s, hs⟩ := infinite_of_not_finite hx hfinite
    rw [hs, infinity_div_two, stored_infinity]
    nofun

/-- **The middle of a bracket lies between its ends** if their sum is finite. -/
theorem middle_between (hless : Scalar.less x y = true) (h : Scalar.IsFinite (x + y)) :
    Scalar.atMost x ((x + y) / Scalar.two) = true ∧
      Scalar.atMost ((x + y) / Scalar.two) y = true := by
  obtain ⟨hx, hy, hrank⟩ := less_iff.mp hless
  obtain ⟨hfiniteX, hfiniteY⟩ := finite_of_sum h
  have hunits := (rank_le_iff hfiniteX hfiniteY).mp hrank.le
  have hmiddle := half_defined (defined_of_finite h)
  have hsum := units_sum h
  have hlower : nearestInt (2 * units (unpacked x)) ≤ units (unpacked (x + y)) := by
    rw [hsum]
    exact nearestInt_mono (by omega)
  have hupper : units (unpacked (x + y)) ≤ nearestInt (2 * units (unpacked y)) := by
    rw [hsum]
    exact nearestInt_mono (by omega)
  rw [isFinite_iff] at hfiniteX hfiniteY h
  rw [(nearestInt_units hfiniteX).2] at hlower
  rw [(nearestInt_units hfiniteY).2] at hupper
  obtain ⟨hresult, habove, hbelow⟩ := half_result h
  have hplace : place (unpacked ((x + y) / Scalar.two)) =
      max (-infiniteRank) (min infiniteRank
        (place (UnpackedFloat.div .binary64 (unpacked (x + y)) two))) :=
    place_stored hresult
  have hrangeX := rank_range hx
  have hrangeY := rank_range hy
  rw [rank_eq hx] at hrangeX
  rw [rank_eq hy] at hrangeY
  have hle := (place_le_iff hfiniteX hresult).mpr (by omega)
  have hle' := (place_le_iff hresult hfiniteY).mpr (by omega)
  rw [atMost_iff, atMost_iff, rank_eq hx, rank_eq hy, rank_eq hmiddle, hplace]
  exact ⟨⟨hx, hmiddle, by omega⟩, hmiddle, hy, by omega⟩

end Binary64

open Binary64 in
/-- **Bracket searches find their way among the machine's numbers.** -/
instance : BracketNumbers Float where
  finite_between {a b c} hab hbc := by
    obtain ⟨ha, hb, hab⟩ := less_iff.mp hab
    obtain ⟨-, hc, hbc⟩ := less_iff.mp hbc
    have hrangeA := rank_range ha
    have hrangeC := rank_range hc
    rw [isFinite_iff_rank hb]
    omega
  defined_of_finite := defined_of_finite
  finite_of_double := finite_of_double
  double_defined := double_defined
  middle_defined ha hb := half_defined (sum_defined ha hb)
  middle_between := middle_between
  width_defined := width_defined
  width_greatest := width_greatest
  halvings_suffice hlow hhigh _ := endsWithin_rank hlow hhigh (Int.self_le_toNat _)

/-! ## Searches among the machine's numbers -/

namespace Binary64

open BracketSearch Scalar

/-- A search comes to an end for every condition and every precision. -/
theorem returns {past : Float → Bool} {low high precision : Float} (hlow : isNaN low = false)
    (hhigh : isNaN high = false) : Returns past low high precision := by
  intro k _ _ _
  have hdoubled : ∀ j, isNaN (doubled high j) = false := by
    intro j
    induction j with
    | zero => exact hhigh
    | succ j ih => exact double_defined ih
  have hlowered : isNaN (lowered low high k) = false := by
    cases k with
    | zero => exact hlow
    | succ j => exact hdoubled j
  exact ⟨_, endsWithin_rank hlowered (hdoubled k) (Int.self_le_toNat _)⟩

/-- Solves `a - x = 0` for `x` from 0 to 1, to within 512. -/
def solverFor (a : Float) : Solver Float (Formula Float) where
  body := .node 2 (.binary .subtract (.node 0 (.const a)) (.node 1 (.var "x")))
  bound := ⟨1, "x"⟩
  low := .node 3 (.const 0)
  high := .node 4 (.const 1)
  precision := .node 5 (.const 512)
  guard := none

/-- Nine doublings of 1 reach 512, and what is beyond is not found. -/
theorem found_within_nine_doublings :
    isNaN (root (0 : Float) 1 512 (fun x => atMost 512 x) fun x => x - 512) = false ∧
      isNaN (Formula.value (fun _ => 0) (.node 6 (.solver (solverFor 511)))) = false ∧
      isNaN (Formula.value (fun _ => 0) (.node 6 (.solver (solverFor 2000)))) = true :=
  ⟨(search_finds_within_budget.1 0 1 512 (fun x => atMost 512 x) _ (by decide +kernel)).found
      (by decide +kernel) 9 (by decide) (by decide +kernel) (by decide +kernel),
    (search_finds_within_budget.2 (fun _ => 0) 6 (solverFor 511) (by decide +kernel)).found
      (by decide +kernel) 9 (by decide) (by decide +kernel) (by decide +kernel),
    (search_finds_within_budget.2 (fun _ => 0) 6 (solverFor 2000) (by decide +kernel)).undefined
      (.inr (by decide +kernel))⟩

/-- The number after the tenth doubling is not asked about: a search gives up although its
condition stays true, fails at the lower bound and holds at that number, which is finite.  So
does a solver. -/
theorem tenth_doubling_unused :
    (StaysTrue (fun x : Float => atMost 1023 x) ∧ atMost (1023 : Float) 0 = false ∧
      maxDoublings = 10 ∧ atMost 1023 (doubled (1 : Float) 10) = true ∧
      IsFinite (doubled (1 : Float) 10) ∧
      isNaN (root (0 : Float) 1 512 (fun x => atMost 1023 x) fun x => x - 1023) = true) ∧
    (solverFor 1023).isPast (fun _ => 0) 0 = false ∧
      (solverFor 1023).isPast (fun _ => 0) (doubled 1 10) = true ∧
      isNaN (Formula.value (fun _ => 0) (.node 6 (.solver (solverFor 1023)))) = true :=
  ⟨⟨staysTrue_atMost 1023, by decide +kernel⟩, by decide +kernel⟩

/-- The brackets of a search from 0 to 1 for 0.7, to within 0.25. -/
theorem reached_for_seven_tenths {b : Bracket Float}
    (h : Reached (fun x => atMost 0.7 x) 0 1 0.25 b) :
    b = ⟨0, 1⟩ ∨ b = ⟨0.5, 1⟩ ∨ b = ⟨0.5, 0.75⟩ := by
  induction h with
  | @expanded k hk first holds =>
      cases k with
      | zero => exact .inl rfl
      | succ k => exact absurd (first 0 (Nat.succ_pos k)) (by decide +kernel)
  | halve h hmove ih =>
      rcases ih with rfl | rfl | rfl
      · have hmiddle : (⟨0, 1⟩ : Bracket Float).middle = 0.5 := by decide +kernel
        rw [Bracket.halve, hmiddle, if_neg (by decide +kernel)]
        exact .inr (.inl rfl)
      · have hmiddle : (⟨0.5, 1⟩ : Bracket Float).middle = 0.75 := by decide +kernel
        rw [Bracket.halve, hmiddle, if_pos (by decide +kernel)]
        exact .inr (.inr rfl)
      · exact absurd (by decide +kernel) hmove

/-- A search from 0 to 1 for 0.7 finds it to within 0.25. -/
theorem located_seven_tenths :
    ∃ b, Located (fun x => atMost 0.7 x) (0.25 : Float)
      (asked 0 1 0.25 (fun x => atMost 0.7 x) fun x => x - 0.7)
      (root 0 1 0.25 (fun x => atMost 0.7 x) fun x => x - 0.7) b :=
  root_bracketed (staysTrue_atMost 0.7) (by decide +kernel) (by decide +kernel)
    (by decide +kernel) (returns (by decide +kernel) (by decide +kernel))
    (fun b hb => by
      rcases reached_for_seven_tenths hb with rfl | rfl | rfl <;> decide +kernel)
    (by decide +kernel)

end Binary64

end FormulaGraph
