import Mathlib.Analysis.SpecialFunctions.Trigonometric.Basic
import Mathlib.LinearAlgebra.CrossProduct
import Mathlib.LinearAlgebra.Matrix.DotProduct
import Mathlib.Tactic.FieldSimp
import Mathlib.Tactic.FinCases
import Mathlib.Tactic.LinearCombination
import Mathlib.Tactic.Module

/-!
# Turning vectors about an axis

A vector is turned about an axis of length one by an angle (`spin`), or about any vector by the
length of that vector (`turned`), which stands for both the axis and the angle.  The vector that
stands for a turn may be taken apart into any axis along it and an angle of either sign
(`turned_smul`), so what is known of turns about an axis holds of it: a turn keeps lengths and
what there is along the axis, turns about one axis add up, and the opposite vector turns back.
-/

namespace FormulaGraph

open Matrix

/-- The length of a vector. -/
noncomputable def magnitude (v : Fin 3 → ℝ) : ℝ := Real.sqrt (v ⬝ᵥ v)

/-- The vector turned about an axis of length one: what it has along the axis stays, and what it
has across turns by the angle, clockwise as seen from the tip of the axis. -/
noncomputable def spin (axis : Fin 3 → ℝ) (θ : ℝ) (v : Fin 3 → ℝ) : Fin 3 → ℝ :=
  (v ⬝ᵥ axis) • axis + Real.cos θ • (v - (v ⬝ᵥ axis) • axis) + Real.sin θ • crossProduct v axis

/-- The vector turned about `w` by the length of `w`. -/
noncomputable def turned (w v : Fin 3 → ℝ) : Fin 3 → ℝ :=
  spin ((magnitude w)⁻¹ • w) (magnitude w) v

/-! ## By an angle -/

section Axis

variable {n : Fin 3 → ℝ}

/-- A turn by no angle changes nothing. -/
theorem spin_zero (n v : Fin 3 → ℝ) : spin n 0 v = v := by
  rw [spin, Real.cos_zero, Real.sin_zero]
  module

/-- Turning the other way about the opposite axis is the same. -/
theorem spin_neg (n v : Fin 3 → ℝ) (θ : ℝ) : spin (-n) (-θ) v = spin n θ v := by
  rw [spin, spin, Real.cos_neg, Real.sin_neg, dotProduct_neg, map_neg]
  module

/-- The cross product is perpendicular to the axis. -/
theorem cross_dot_axis (v n : Fin 3 → ℝ) : crossProduct v n ⬝ᵥ n = 0 := by
  rw [dotProduct_comm, dot_cross_self]

/-- A turn keeps what there is along the axis. -/
theorem spin_dot_axis (hn : n ⬝ᵥ n = 1) (θ : ℝ) (v : Fin 3 → ℝ) :
    spin n θ v ⬝ᵥ n = v ⬝ᵥ n := by
  rw [spin, add_dotProduct, add_dotProduct, smul_dotProduct, smul_dotProduct, smul_dotProduct,
    sub_dotProduct, smul_dotProduct, cross_dot_axis, hn]
  simp

/-- Two right angles turn what is across the axis around. -/
theorem cross_cross_axis (hn : n ⬝ᵥ n = 1) (v : Fin 3 → ℝ) :
    crossProduct (crossProduct v n) n = (v ⬝ᵥ n) • n - v := by
  rw [vec3_dotProduct] at hn
  ext i
  rw [cross_apply, cross_apply, vec3_dotProduct]
  fin_cases i
  · simp
    linear_combination -v 0 * hn
  · simp
    linear_combination -v 1 * hn
  · simp
    linear_combination -v 2 * hn

/-- The cross product turns along. -/
theorem spin_cross_axis (hn : n ⬝ᵥ n = 1) (θ : ℝ) (v : Fin 3 → ℝ) :
    crossProduct (spin n θ v) n =
      Real.cos θ • crossProduct v n + Real.sin θ • ((v ⬝ᵥ n) • n - v) := by
  simp only [spin, map_add, map_sub, map_smul, LinearMap.add_apply, LinearMap.sub_apply,
    LinearMap.smul_apply, cross_self, cross_cross_axis hn, smul_zero, zero_add, sub_zero]

/-- Turns about one axis add up. -/
theorem spin_spin (hn : n ⬝ᵥ n = 1) (θ φ : ℝ) (v : Fin 3 → ℝ) :
    spin n θ (spin n φ v) = spin n (φ + θ) v := by
  rw [spin, spin_dot_axis hn, spin_cross_axis hn]
  simp only [spin, Real.cos_add, Real.sin_add]
  module

/-- A turn keeps the length. -/
theorem spin_dot_self (hn : n ⬝ᵥ n = 1) (θ : ℝ) (v : Fin 3 → ℝ) :
    spin n θ v ⬝ᵥ spin n θ v = v ⬝ᵥ v := by
  have hright : crossProduct v n ⬝ᵥ crossProduct v n = v ⬝ᵥ v - (v ⬝ᵥ n) ^ 2 := by
    rw [cross_dot_cross, hn, dotProduct_comm n v]
    ring
  have hacross : crossProduct v n ⬝ᵥ v = 0 := by rw [dotProduct_comm, dot_self_cross]
  have haxis := cross_dot_axis v n
  simp only [spin, add_dotProduct, dotProduct_add, smul_dotProduct, dotProduct_smul,
    sub_dotProduct, dotProduct_sub, dotProduct_comm n, dotProduct_comm v (crossProduct v n), hn,
    hright, hacross, haxis, smul_eq_mul]
  linear_combination (v ⬝ᵥ v - (v ⬝ᵥ n) ^ 2) * Real.sin_sq_add_cos_sq θ

end Axis

/-! ## By the length of the axis -/

/-- A multiple of the axis is as long as its factor. -/
theorem magnitude_smul {n : Fin 3 → ℝ} (hn : n ⬝ᵥ n = 1) (t : ℝ) : magnitude (t • n) = |t| := by
  rw [magnitude, smul_dotProduct, dotProduct_smul, hn, smul_eq_mul, smul_eq_mul, mul_one,
    ← sq, Real.sqrt_sq_eq_abs]

/-- Turning about a multiple of an axis of length one turns by that much. -/
theorem turned_smul {n : Fin 3 → ℝ} (hn : n ⬝ᵥ n = 1) (t : ℝ) (v : Fin 3 → ℝ) :
    turned (t • n) v = spin n t v := by
  rw [turned, magnitude_smul hn, smul_smul]
  rcases lt_trichotomy t 0 with ht | rfl | ht
  · rw [abs_of_neg ht, inv_neg, neg_mul, inv_mul_cancel₀ ht.ne, neg_one_smul, spin_neg]
  · rw [abs_zero, spin_zero, spin_zero]
  · rw [abs_of_pos ht, inv_mul_cancel₀ ht.ne', one_smul]

/-- Every vector is a multiple of one of length one. -/
theorem exists_axis (w : Fin 3 → ℝ) : ∃ (n : Fin 3 → ℝ) (t : ℝ), n ⬝ᵥ n = 1 ∧ w = t • n := by
  have hsq : magnitude w * magnitude w = w ⬝ᵥ w :=
    Real.mul_self_sqrt (Fintype.sum_nonneg fun i => mul_self_nonneg (w i))
  by_cases h : magnitude w = 0
  · refine ⟨![1, 0, 0], 0, by simp, ?_⟩
    rw [h, zero_mul] at hsq
    rw [zero_smul]
    exact dotProduct_self_eq_zero.mp hsq.symm
  · refine ⟨(magnitude w)⁻¹ • w, magnitude w, ?_, (smul_inv_smul₀ h w).symm⟩
    rw [smul_dotProduct, dotProduct_smul, ← hsq, smul_eq_mul, smul_eq_mul]
    field_simp

/-- A turn keeps lengths. -/
theorem turned_dot_self (w v : Fin 3 → ℝ) : turned w v ⬝ᵥ turned w v = v ⬝ᵥ v := by
  obtain ⟨n, t, hn, rfl⟩ := exists_axis w
  rw [turned_smul hn, spin_dot_self hn]

/-- A turn keeps the component along the axis. -/
theorem turned_dot (w v : Fin 3 → ℝ) : turned w v ⬝ᵥ w = v ⬝ᵥ w := by
  obtain ⟨n, t, hn, rfl⟩ := exists_axis w
  rw [turned_smul hn, dotProduct_smul, spin_dot_axis hn, dotProduct_smul]

/-- Turns about multiples of one vector add up. -/
theorem turned_turned (w v : Fin 3 → ℝ) (a b : ℝ) :
    turned (b • w) (turned (a • w) v) = turned ((a + b) • w) v := by
  obtain ⟨n, t, hn, rfl⟩ := exists_axis w
  rw [smul_smul, smul_smul, smul_smul, turned_smul hn, turned_smul hn, turned_smul hn,
    spin_spin hn, ← add_mul]

/-- Without an axis nothing turns. -/
theorem turned_zero (v : Fin 3 → ℝ) : turned 0 v = v := by
  rw [turned, magnitude, dotProduct_zero, Real.sqrt_zero, spin_zero]

/-- Turning back undoes the turn. -/
theorem turned_neg (w v : Fin 3 → ℝ) : turned (-w) (turned w v) = v := by
  have hback := turned_turned w v 1 (-1)
  rwa [one_smul, neg_one_smul, add_neg_cancel, zero_smul, turned_zero] at hback

end FormulaGraph
