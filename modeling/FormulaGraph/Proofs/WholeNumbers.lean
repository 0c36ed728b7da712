import FormulaGraph.Proofs.OutlineValue
import Std.Data.String.ToInt

/-!
# Formulas over the whole numbers

The smallest numbers to try formulas on: sums, differences and products are exact, all
numbers are defined, and they are written in decimal.  The functions that lead out of
the whole numbers answer zero.
-/

namespace FormulaGraph

/-- Differences of whole numbers are exact, and so are their products; nothing is undefined. -/
instance : Scalar Int where
  nan := 0
  isNaN _ := false
  less v w := decide (v < w)
  atMost v w := decide (v ≤ w)
  abs v := v.natAbs
  sqrt _ := 0
  exp _ := 0
  ln _ := 0
  sin _ := 0
  cos _ := 0
  atan _ := 0
  acos _ := 0
  atan2 _ _ := 0
  cosineIntegral _ := 0
  sineIntegral _ := 0
  ofNat n := n
  floorNat v := v.toNat
  halvings low high _ := (high - low).toNat + 1

/-- Whole numbers are written in decimal, with a minus before the negative ones. -/
instance : ScalarText Int where
  text := Int.repr

/-- The digits of a natural number are a numeral. -/
theorem isNumeral_toDigits (n : Nat) : IsNumeral (Nat.toDigits 10 n) := by
  have hdigit : ∀ c ∈ Nat.toDigits 10 n, c.isDigit = true := fun c hc =>
    Nat.isDigit_of_mem_toDigits (by decide) (by decide) hc
  cases hdigits : Nat.toDigits 10 n with
  | nil => exact absurd hdigits Nat.toDigits_ne_nil
  | cons c t =>
      rw [hdigits] at hdigit
      exact isNumeral_of_digits (hdigit c List.mem_cons_self) fun c' hc' =>
        .inl (hdigit c' (List.mem_cons_of_mem c hc'))

/-- A natural number is written with its digits alone. -/
theorem toList_text_natCast (n : Nat) :
    (ScalarText.text (n : Int)).toList = Nat.toDigits 10 n :=
  Nat.toList_repr

/-- A negative number is written as a minus and the digits of its amount. -/
theorem toList_text_negSucc (n : Nat) :
    (ScalarText.text (Int.negSucc n)).toList = '-' :: Nat.toDigits 10 (n + 1) := by
  simp [ScalarText.text, Int.repr]

/-- Decimal digits determine the number, and the sign is part of them. -/
instance : ReadableText Int where
  injective _ _ h := Int.repr_inj.mp h
  form v := by
    cases v with
    | ofNat n => exact ⟨_, isNumeral_toDigits n, .inl (toList_text_natCast n)⟩
    | negSucc n => exact ⟨_, isNumeral_toDigits (n + 1), .inr (toList_text_negSucc n)⟩
  negative v w h := by
    cases v with
    | ofNat n =>
        have hunsigned := (isNumeral_toDigits n).unsigned
        rw [← toList_text_natCast, show ScalarText.text (n : Int) = ScalarText.text (Int.ofNat n)
          from rfl, h] at hunsigned
        exact absurd rfl hunsigned
    | negSucc n =>
        rw [toList_text_negSucc] at h
        refine ⟨?_, Int.neg_neg _⟩
        rw [Int.neg_negSucc, ← (List.cons.inj h).2]
        exact toList_text_natCast (n + 1)

/-- There is only one zero, so it is neutral, and so is one. -/
instance : NeutralElements Int where
  zero_add v := by
    show -0 + v = v
    omega
  one_mul v := Int.one_mul v

end FormulaGraph
