import FormulaGraph.Proofs.Binary64Brackets

/-!
# Zero and one among binary numbers

The negative zero changes no number it is added to (`Binary64.negativeZero_add`), and one none that
it is multiplied by (`Binary64.one_mul`): the machine's numbers have neutral elements, bit for bit,
undefined and infinite numbers included.  A zero of either sign changes no number other than zero
(`Binary64.zero_add_unpacked`), and turns the finite ones into zeros when it is multiplied by them
(`Binary64.mul_zero_iff`).

What a number is, its components say (`Binary64.unpacked_injective`), so results are compared as
components, and stored at the end (`Binary64.stored_unpacked`).
-/

namespace FormulaGraph

open Scalar

namespace Binary64

open Float.Model Float.Model.UnpackedFloat

variable {x y : Float}

/-! ## Components -/

/-- A number is what its bits say. -/
theorem unpacked_injective (h : unpacked x = unpacked y) : x = y := by
  obtain ⟨⟨⟨bits⟩, valid⟩⟩ := x
  obtain ⟨⟨⟨bits'⟩, valid'⟩⟩ := y
  obtain rfl : bits = bits' := (unpack_inj_of_valid valid valid').mp h
  rfl

/-- What bits can say is stored as it is. -/
theorem Canonical.stored_eq {u : UnpackedFloat} (h : Canonical u) : stored u = u := by
  cases h with
  | notANumber => exact stored_notANumber
  | infinity s => exact stored_infinity s
  | zero s => exact stored_zero s
  | finite s h standard hle => exact stored_finite s h standard hle

theorem stored_unpacked (x : Float) : stored (unpacked x) = unpacked x :=
  (canonical_unpacked x).stored_eq

/-- A number is negated by its sign. -/
theorem unpacked_neg (x : Float) : unpacked (-x) = (unpacked x).neg := by
  have hcanonical : Canonical (unpacked x).neg := by
    have h := canonical_unpacked x
    generalize unpacked x = u at h
    cases h with
    | notANumber => exact .notANumber
    | infinity s => exact .infinity _
    | zero s => exact .zero _
    | finite s h standard hle => exact .finite _ h standard hle
  exact hcanonical.stored_eq

/-- The zeros of either sign compare as zero, and nothing else does. -/
theorem isZero_iff : (x == 0) = true ↔ ∃ s, unpacked x = .zero s := by
  have hmodel : (x == 0) = ((unpacked x).compare (.zero .positive) == some .eq) := rfl
  rw [hmodel]
  cases unpacked x with
  | notANumber => exact ⟨nofun, nofun⟩
  | infinity s => cases s <;> exact ⟨nofun, nofun⟩
  | zero s => exact ⟨fun _ => ⟨s, rfl⟩, fun _ => rfl⟩
  | finite s m e h => cases s <;> exact ⟨nofun, nofun⟩

/-- Only one number compares as one. -/
theorem eq_one_of_beq (h : (x == 1) = true) : x = 1 := by
  have hmodel : ((unpacked x).compare (unpacked 1) == some .eq) = true := h
  have hone : rank (1 : Float) = 4607182418800017408 := by decide +kernel
  rw [compare_unpacked] at hmodel
  have hrank : rank x = 4607182418800017408 := by
    rw [← hone]
    split at hmodel
    · cases hmodel
    · simpa using hmodel
  have hbits : x.toModel.toBits.toNat = 4607182418800017408 := by
    have hrank' : (if x.toModel.toBits.toNat < 2 ^ 63 then (x.toModel.toBits.toNat : ℤ)
        else -((x.toModel.toBits.toNat - 2 ^ 63 : ℕ) : ℤ)) = 4607182418800017408 := hrank
    split at hrank' <;> omega
  obtain ⟨⟨bits, valid⟩⟩ := x
  obtain rfl : bits = 4607182418800017408 := UInt64.toNat_inj.mp hbits
  rfl

/-! ## Adding zero -/

/-- A zero changes no number other than zero. -/
theorem zero_add_unpacked (s : Sign) {u : UnpackedFloat} (h : ∀ s', u ≠ .zero s') :
    UnpackedFloat.add .binary64 (.zero s) u = u := by
  cases u with
  | zero s' => exact absurd rfl (h s')
  | _ => rfl

/-- **The negative zero changes no number at all.** -/
theorem negativeZero_add (x : Float) : negativeZero + x = x := by
  apply unpacked_injective
  rw [unpacked_add, show unpacked (negativeZero : Float) = .zero .negative from rfl]
  by_cases hx : ∃ s, unpacked x = .zero s
  · obtain ⟨s, hs⟩ := hx
    rw [hs]
    cases s <;> rfl
  · rw [zero_add_unpacked _ (not_exists.mp hx), stored_unpacked]

/-! ## Multiplying by one and by zero -/

theorem one_mul_notANumber : UnpackedFloat.mul .binary64 one .notANumber = .notANumber := rfl

theorem one_mul_infinity (s : Sign) :
    UnpackedFloat.mul .binary64 one (.infinity s) = .infinity s := by
  cases s <;> rfl

/-- **One changes no number.** -/
theorem one_mul (x : Float) : 1 * x = x := by
  have hcanonical := canonical_unpacked x
  have hstored := stored_unpacked x
  apply unpacked_injective
  rw [unpacked_mul, unpacked_one]
  generalize unpacked x = u at *
  cases hcanonical with
  | notANumber => rw [one_mul_notANumber, stored_notANumber]
  | infinity s => rw [one_mul_infinity, hstored]
  | zero s => rw [one_mul_result (.zero s), hstored]
  | finite s hpos standard hle => rw [one_mul_result (.finite s hpos standard), hstored]

/-- An undefined or infinite number times zero is undefined. -/
theorem mul_zero_iff (h : (y == 0) = true) : (x * y == 0) = true ↔ IsFinite x := by
  have hundefined : ¬ ∃ s, stored .notANumber = .zero s := by
    rintro ⟨s, hs⟩
    cases hs
  obtain ⟨s, hs⟩ := isZero_iff.mp h
  rw [isZero_iff, isFinite_iff, unpacked_mul, hs]
  have hcanonical := canonical_unpacked x
  generalize unpacked x = u at *
  cases hcanonical with
  | notANumber => exact iff_of_false hundefined nofun
  | infinity s' => exact iff_of_false hundefined nofun
  | zero s' => exact iff_of_true ⟨_, stored_zero (s' * s)⟩ (.zero s')
  | finite s' hpos standard =>
      exact iff_of_true ⟨_, stored_zero (s' * s)⟩ (.finite s' hpos standard)

end Binary64

end FormulaGraph
