import Mathlib
import FormulaGraph.Operation

/-!
# Real numbers with one undefined value

Theorems about what a formula means read its operations as exact ones: on real
numbers, and with **one undefined value** for what has no result.  A logarithm is
undefined unless its argument is positive, roots and inverse cosines are undefined
outside their domains, and whatever is computed from the undefined value is
undefined again, save that it gives way in a maximum or a minimum and loses every
comparison.

Sums and products of all arguments are those of a commutative monoid, undefined
values included; only a product that stops at its first zero tells an undefined
factor before the zero from one behind it.
-/

namespace FormulaGraph

/-- A real number, or no number. -/
inductive PartialReal where
  | undefined
  | real (x : ℝ)

namespace PartialReal

/-! ## The operations -/

/-- The integral of `sin t / t` from zero. -/
noncomputable def realSineIntegral (x : ℝ) : ℝ := ∫ t in (0 : ℝ)..x, Real.sinc t

/-- `γ + ln |x|` and the integral of `(cos t - 1) / t` from zero. -/
noncomputable def realCosineIntegral (x : ℝ) : ℝ :=
  Real.eulerMascheroniConstant + Real.log x + ∫ t in (0 : ℝ)..x, (Real.cos t - 1) / t

/-- A function of real numbers, undefined where its argument is. -/
def lift (f : ℝ → ℝ) : PartialReal → PartialReal
  | undefined => undefined
  | real x => real (f x)

/-- A function of two real numbers, undefined where one of them is. -/
def lift₂ (f : ℝ → ℝ → ℝ) : PartialReal → PartialReal → PartialReal
  | real x, real y => real (f x y)
  | _, _ => undefined

/-- A comparison, false where a side is undefined. -/
noncomputable def compare (r : ℝ → ℝ → Prop) [DecidableRel r] :
    PartialReal → PartialReal → Bool
  | real x, real y => decide (r x y)
  | _, _ => false

/-- A function of the real numbers in a domain. -/
def liftOn (domain : ℝ → Prop) [DecidablePred domain] (f : ℝ → ℝ) : PartialReal → PartialReal
  | undefined => undefined
  | real x => if domain x then real (f x) else undefined

/-- The quotient by a number other than zero. -/
noncomputable def quotient : PartialReal → PartialReal → PartialReal
  | real x, real y => if y = 0 then undefined else real (x / y)
  | _, _ => undefined

/-- The natural numbers a machine word holds end here. -/
def largestWord : ℕ := 2 ^ 64 - 1

/-- The greatest natural number not above a real number, in a machine word; zero for the
undefined value. -/
noncomputable def floor : PartialReal → ℕ
  | undefined => 0
  | real x => min ⌊x⌋₊ largestWord

/-- The least number of halvings that makes the width at most the precision; none
are made if no number does. -/
noncomputable def halvings : PartialReal → PartialReal → PartialReal → ℕ
  | real low, real high, real precision => sInf {n : ℕ | (high - low) / (2 ^ n : ℕ) ≤ precision}
  | _, _, _ => 0

open Classical in
/-- Exact arithmetic: the operations of the real numbers where these are defined, and
`undefined` everywhere else. -/
noncomputable instance : Scalar PartialReal where
  zero := real 0
  one := real 1
  add := lift₂ (· + ·)
  sub := lift₂ (· - ·)
  mul := lift₂ (· * ·)
  div := quotient
  neg := lift (- ·)
  beq := compare (· = ·)
  nan := undefined
  isNaN
    | undefined => true
    | real _ => false
  less := compare (· < ·)
  atMost := compare (· ≤ ·)
  abs := lift abs
  sqrt := liftOn (0 ≤ ·) Real.sqrt
  exp := lift Real.exp
  ln := liftOn (0 < ·) Real.log
  sin := lift Real.sin
  cos := lift Real.cos
  atan := lift Real.arctan
  acos := liftOn (fun x => -1 ≤ x ∧ x ≤ 1) Real.arccos
  atan2 := lift₂ fun y x => Complex.arg ⟨x, y⟩
  cosineIntegral := liftOn (· ≠ 0) realCosineIntegral
  sineIntegral := lift realSineIntegral
  ofNat n := real n
  floorNat := floor
  halvings := halvings

/-! ## On real numbers -/

@[simp] theorem zero_eq : (0 : PartialReal) = real 0 := rfl

@[simp] theorem one_eq : (1 : PartialReal) = real 1 := rfl

@[simp] theorem nan_eq : (Scalar.nan : PartialReal) = undefined := rfl

@[simp] theorem two_eq : (Scalar.two : PartialReal) = real 2 := rfl

@[simp] theorem real_add (x y : ℝ) : real x + real y = real (x + y) := rfl

@[simp] theorem real_sub (x y : ℝ) : real x - real y = real (x - y) := rfl

@[simp] theorem real_mul (x y : ℝ) : real x * real y = real (x * y) := rfl

@[simp] theorem neg_real (x : ℝ) : -real x = real (-x) := rfl

@[simp] theorem neg_undefined : -undefined = undefined := rfl

/-- Division is that of the real numbers, unless by zero. -/
theorem real_div (x : ℝ) {y : ℝ} (hy : y ≠ 0) : real x / real y = real (x / y) := if_neg hy

@[simp] theorem half_eq : (Scalar.half : PartialReal) = real (1 / 2) :=
  real_div 1 two_ne_zero

@[simp] theorem isNaN_real (x : ℝ) : Scalar.isNaN (real x) = false := rfl

@[simp] theorem isNaN_undefined : Scalar.isNaN undefined = true := rfl

/-- Real numbers are compared for equality exactly. -/
@[simp] theorem beq_real (x y : ℝ) : (real x == real y) = true ↔ x = y :=
  decide_eq_true_iff

/-- Nothing equals the undefined value, itself included. -/
@[simp] theorem beq_undefined (v : PartialReal) : (v == undefined) = false := by
  cases v <;> rfl

@[simp] theorem less_real (x y : ℝ) : Scalar.less (real x) (real y) = true ↔ x < y :=
  decide_eq_true_iff

@[simp] theorem atMost_real (x y : ℝ) : Scalar.atMost (real x) (real y) = true ↔ x ≤ y :=
  decide_eq_true_iff

/-- The greater of two real numbers is their maximum. -/
@[simp] theorem larger_real (x y : ℝ) : Scalar.larger (real x) (real y) = real (max x y) := by
  rw [Scalar.larger]
  by_cases h : x < y
  · simp [h, max_eq_right h.le]
  · simp [h, max_eq_left (not_lt.mp h)]

@[simp] theorem smaller_real (x y : ℝ) : Scalar.smaller (real x) (real y) = real (min x y) := by
  rw [Scalar.smaller]
  by_cases h : y < x
  · simp [h, min_eq_right h.le]
  · simp [h, min_eq_left (not_lt.mp h)]

@[simp] theorem exp_real (x : ℝ) : Scalar.exp (real x) = real (Real.exp x) := rfl

/-- A square root is real where the radicand is not negative. -/
theorem sqrt_real {x : ℝ} (hx : 0 ≤ x) : Scalar.sqrt (real x) = real (Real.sqrt x) :=
  if_pos hx

/-- A logarithm is real where its argument is positive. -/
theorem log_real {x : ℝ} (hx : 0 < x) : Scalar.log (real x) = real (Real.log x) := by
  have hln : Scalar.ln (real x) = real (Real.log x) := if_pos hx
  have hcond : (Scalar.isNaN (real x) || Scalar.atMost (real x) 0) = false := by
    simp [Bool.eq_false_iff, hx]
  rw [Scalar.log, hcond, hln]
  rfl

/-- There is no logarithm of a number that is not positive. -/
theorem log_real_of_nonpos {x : ℝ} (hx : x ≤ 0) : Scalar.log (real x) = undefined := by
  simp [Scalar.log, hx]

@[simp] theorem log_undefined : Scalar.log undefined = undefined := rfl

/-- The real number, if it is one. -/
def toReal : PartialReal → ℝ
  | undefined => 0
  | real x => x

/-! ## Undefined results -/

@[simp] theorem undefined_beq (v : PartialReal) : (undefined == v) = false := rfl

/-- What is not undefined is a real number. -/
theorem exists_real {v : PartialReal} (h : v ≠ undefined) : ∃ x, v = real x := by
  cases v with
  | undefined => exact absurd rfl h
  | real x => exact ⟨x, rfl⟩

/-- Values that compare as equal are the same. -/
theorem eq_of_beq {v w : PartialReal} (h : (v == w) = true) : v = w := by
  cases v <;> cases w <;> simp_all

/-- A number equal to zero is zero. -/
theorem eq_zero_of_beq {v : PartialReal} (h : (v == 0) = true) : v = real 0 :=
  eq_of_beq h

/-! ## Sums and products of all arguments -/

/-- An undefined summand makes the sum undefined. -/
theorem add_undefined (v : PartialReal) : v + undefined = undefined := by
  cases v <;> rfl

theorem undefined_add (v : PartialReal) : undefined + v = undefined := by
  cases v <;> rfl

/-- An undefined factor makes the product undefined, even beside a zero. -/
theorem mul_undefined (v : PartialReal) : v * undefined = undefined := by
  cases v <;> rfl

theorem undefined_mul (v : PartialReal) : undefined * v = undefined := by
  cases v <;> rfl

/-- With the undefined value absorbing, addition stays associative and commutative. -/
noncomputable instance : AddCommMonoid PartialReal where
  add_assoc a b c := by
    cases a <;> cases b <;> cases c <;> simp [add_undefined, undefined_add, add_assoc]
  zero_add a := by cases a <;> simp [add_undefined]
  add_zero a := by cases a <;> simp [undefined_add]
  add_comm a b := by cases a <;> cases b <;> simp [add_undefined, undefined_add, add_comm]
  nsmul := nsmulRec

/-- Multiplication is commutative and associative, with one as its unit. -/
noncomputable instance : CommMonoid PartialReal where
  mul_assoc a b c := by
    cases a <;> cases b <;> cases c <;> simp [mul_undefined, undefined_mul, mul_assoc]
  one_mul a := by cases a <;> simp [mul_undefined]
  mul_one a := by cases a <;> simp [undefined_mul]
  mul_comm a b := by cases a <;> cases b <;> simp [mul_undefined, undefined_mul, mul_comm]

/-- The sum from left to right is the sum of the list. -/
theorem sum_eq (vs : List PartialReal) : Scalar.sum vs = vs.sum := by
  have hzero : (Scalar.negativeZero : PartialReal) = 0 := by simp [Scalar.negativeZero]
  rw [Scalar.sum, hzero, List.sum_eq_foldl]

/-- The product from left to right is the product of the list. -/
theorem product_eq (vs : List PartialReal) : Scalar.product vs = vs.prod := by
  rw [Scalar.product, List.prod_eq_foldl]

/-- Sums of real numbers are real. -/
@[simp] theorem sum_map_real (xs : List ℝ) : (xs.map real).sum = real xs.sum := by
  induction xs with
  | nil => rfl
  | cons x xs ih => rw [List.map_cons, List.sum_cons, ih, List.sum_cons, real_add]

/-- Products of real numbers are real. -/
@[simp] theorem prod_map_real (xs : List ℝ) : (xs.map real).prod = real xs.prod := by
  induction xs with
  | nil => rfl
  | cons x xs ih => rw [List.map_cons, List.prod_cons, ih, List.prod_cons, real_mul]

/-- Stopping at the first zero makes no difference to a product of real numbers. -/
@[simp] theorem productUntilZero_map_real (a : ℝ) (xs : List ℝ) :
    Scalar.productUntilZero (real a) (xs.map real) = real (a * xs.prod) := by
  induction xs generalizing a with
  | nil => simp [Scalar.productUntilZero]
  | cons x xs ih =>
      simp only [List.map_cons, Scalar.productUntilZero, real_mul, zero_eq, beq_real]
      by_cases h : a * x = 0
      · rw [if_pos h, List.prod_cons, ← mul_assoc, h, zero_mul]
      · rw [if_neg h, ih, List.prod_cons, mul_assoc]

/-- The Euclidean length. -/
noncomputable def length (xs : List ℝ) : ℝ := Real.sqrt (xs.map fun x => x * x).sum

/-- A sum of squares is not negative, so its root exists. -/
theorem sum_squares_nonneg (xs : List ℝ) : 0 ≤ (xs.map fun x => x * x).sum :=
  List.sum_nonneg (by
    simp only [List.mem_map]
    intro _ hboth
    obtain ⟨x, _, rfl⟩ := hboth
    exact mul_self_nonneg x)

/-- The length of a vector of real numbers is real. -/
@[simp] theorem hypot_map_real (xs : List ℝ) : Scalar.hypot (xs.map real) = real (length xs) := by
  have hmap : (xs.map real).map (fun v => v * v) = (xs.map fun x => x * x).map real := by
    simp
  rw [Scalar.hypot, sum_eq, hmap, sum_map_real, sqrt_real (sum_squares_nonneg xs), length]

end PartialReal

end FormulaGraph
