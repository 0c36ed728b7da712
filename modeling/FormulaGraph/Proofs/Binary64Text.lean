import FormulaGraph.Proofs.Binary64Neutral
import FormulaGraph.Proofs.ShortestDecimals
import FormulaGraph.Proofs.Unambiguous

/-!
# Binary numbers as they are written

The text of a binary number is its sign and the shortest decimal that reads back
(`Binary64.textOfFloat_eq`).  No decimal rounds to two numbers (`Binary64.Standard.apart`): the
intervals of neighbours share an end, and it belongs to the even one of them.  So numbers that are
written alike are the same, bit for bit, and whatever is said of numbers that are written
unambiguously holds of the machine's numbers (`ReadableText Float`, `DistinctText Float`).
-/

namespace FormulaGraph

namespace Binary64

open Float.Model Float.Model.UnpackedFloat
open Decimal (reading)

variable {x y : Float}

/-! ## Signs and magnitudes -/

/-- The number of mantissa `m` and exponent `e`, with what rounds to it. -/
def binary (m : ℕ) (e : ℤ) : Decimal.Binary := ⟨m, e, m == 2 ^ 52 && decide (-1074 < e)⟩

/-- A number without its sign, as it is written. -/
def unsignedText : UnpackedFloat → String
  | .notANumber => "NaN"
  | .infinity _ => "inf"
  | .zero _ => "0"
  | .finite _ m e _ => (binary m e).shortest.positional

/-- A minus before negative numbers; what is not a number has no sign. -/
def signText : UnpackedFloat → String
  | .infinity .negative | .zero .negative | .finite .negative .. => "-"
  | _ => ""

/-- Before a number stands a minus, or nothing. -/
theorem signText_cases (u : UnpackedFloat) : signText u = "" ∨ signText u = "-" := by
  cases u with
  | notANumber => exact .inl rfl
  | infinity s => cases s <;> simp [signText]
  | zero s => cases s <;> simp [signText]
  | finite s m e h => cases s <;> simp [signText]

/-- What has a minus is negative, or a negative zero. -/
theorem signText_neg {u : UnpackedFloat} (h : signText u = "-") : signText u.neg = "" := by
  cases u with
  | notANumber => rfl
  | infinity s => cases s <;> simp_all [signText, UnpackedFloat.neg]
  | zero s => cases s <;> simp_all [signText, UnpackedFloat.neg]
  | finite s m e h => cases s <;> simp_all [signText, UnpackedFloat.neg]

/-- A minus is written before numbers below zero, and before the negative zero. -/
theorem place_of_signText {u : UnpackedFloat} (hu : Canonical u) (h : signText u = "-") :
    place u < 0 ∨ ∃ s, u = .zero s := by
  cases hu with
  | notANumber => simp [signText] at h
  | infinity s =>
      cases s with
      | positive => simp [signText] at h
      | negative => exact .inl (by decide)
  | zero s => exact .inr ⟨s, rfl⟩
  | finite s hpos standard =>
      cases s with
      | positive => simp [signText] at h
      | negative => exact .inl (neg_neg_of_pos standard.magnitude_pos)

/-- The first bit is set in negative numbers. -/
theorem sign_ofBits (b : BitVec Format.binary64.numBits) :
    decide (2 ^ 63 ≤ b.toNat) = (Sign.ofBitVec (unpackSign b) == .negative) := by
  have hsign := toNat_unpackSign b
  have hlt : b.toNat < 2 ^ 64 := b.isLt
  by_cases h : 2 ^ 63 ≤ b.toNat
  · have hone : unpackSign b = 1#1 := BitVec.toNat_inj.mp (by rw [hsign]; simp; omega)
    rw [decide_eq_true h, hone]
    rfl
  · have hzero : unpackSign b = 0#1 := BitVec.toNat_inj.mp (by rw [hsign]; simp; omega)
    rw [decide_eq_false h, hzero]
    rfl

/-- The evenly spaced numbers nearest to zero. -/
theorem magnitude_least (negative : Bool) (m : ℕ) :
    (⟨negative, 0, m⟩ : Decimal.Fields).magnitude = binary m (-1074) := by
  have hdense : (m == 2 ^ 52 && decide ((-1074 : ℤ) < -1074)) = false := by simp
  rw [binary, hdense]
  rfl

/-- All other numbers have a first bit that is not stored. -/
theorem magnitude_normal (negative : Bool) {k m : ℕ} (hk : 0 < k) :
    (⟨negative, k, m⟩ : Decimal.Fields).magnitude = binary (1 * 2 ^ 52 + m) (k - (1023 + 52)) := by
  have hdense : (m == 0 && decide (1 < k)) =
      (1 * 2 ^ 52 + m == 2 ^ 52 && decide (-1074 < (k : ℤ) - (1023 + 52))) := by
    rw [Bool.eq_iff_iff]
    simp
    omega
  rw [Decimal.Fields.magnitude, if_neg (by simpa using hk.ne'), binary, ← hdense]
  rfl

/-- The fields of the bits are written as what the bits say. -/
theorem text_ofBits (b : BitVec Format.binary64.numBits) :
    (⟨decide (2 ^ 63 ≤ b.toNat), b.toNat / 2 ^ 52 % 2 ^ 11, b.toNat % 2 ^ 52⟩ :
      Decimal.Fields).text =
      signText (unpack .binary64 b) ++ unsignedText (unpack .binary64 b) := by
  have hbias : ((Format.binary64.exponentBias : ℕ) : ℤ) = 1023 := rfl
  have hbits : ((Format.binary64.mantissaBitsWithoutImplicit : ℕ) : ℤ) = 52 := rfl
  rw [sign_ofBits, ← toNat_unpackExponent, ← toNat_unpackMantissa, Decimal.Fields.text,
    UnpackedFloat.unpack, hbias, hbits]
  generalize Sign.ofBitVec (unpackSign b) = s
  by_cases hall : unpackExponent b = -1#_
  · have hE : (unpackExponent b).toNat = 2047 := by rw [hall]; rfl
    rw [if_pos hall, if_pos (by rw [hE]; rfl)]
    by_cases hzero : unpackMantissa b = 0#_
    · rw [if_pos hzero, if_neg (by rw [hzero]; simp)]
      cases s <;> rfl
    · have hM : (unpackMantissa b).toNat ≠ 0 := fun h => hzero (BitVec.toNat_inj.mp h)
      rw [if_neg hzero, if_pos (bne_iff_ne.mpr hM)]
      rfl
  · have hE : (unpackExponent b).toNat ≠ 2047 := fun h => hall (BitVec.toNat_inj.mp h)
    rw [if_neg hall, if_neg (by simpa using hE)]
    by_cases hnone : unpackExponent b = 0#_
    · have hE : (unpackExponent b).toNat = 0 := by rw [hnone]; rfl
      rw [if_pos hnone, hE]
      by_cases hzero : unpackMantissa b = 0#_
      · have hM : (unpackMantissa b).toNat = 0 := by rw [hzero]; rfl
        rw [dif_pos hzero, hM]
        cases s <;> rfl
      · have hM : (unpackMantissa b).toNat ≠ 0 := fun h => hzero (BitVec.toNat_inj.mp h)
        rw [dif_neg hzero, if_neg (by simpa using hM), magnitude_least]
        cases s <;> rfl
    · have hE : (unpackExponent b).toNat ≠ 0 := fun h => hnone (BitVec.toNat_inj.mp h)
      have hM : (1#1 ++ unpackMantissa b).toNat = 1 * 2 ^ 52 + (unpackMantissa b).toNat :=
        toNat_append _ _
      rw [if_neg hnone, if_neg (by simp [hE]), magnitude_normal _ (Nat.pos_of_ne_zero hE), ← hM]
      cases s <;> rfl

/-- **The text of a number** is its sign and the shortest decimal that reads back. -/
theorem textOfFloat_eq (x : Float) :
    Decimal.textOfFloat x = signText (unpacked x) ++ unsignedText (unpacked x) :=
  text_ofBits x.toModel.toBits.toBitVec

/-! ## No decimal rounds to two numbers -/

/-- At one exponent, neighbours meet in the middle, and every other number is even. -/
theorem Standard.ends_of_lt {m m' : ℕ} {e : ℤ} (h : Standard m e) (hlt : m < m') :
    (binary m e).highest ≤ (binary m' e).lowest ∧
      ((binary m e).highest = (binary m' e).lowest → m % 2 = 1 ∨ m' % 2 = 1) := by
  have hnormal := h.normal
  have hdense : (m' == 2 ^ 52 && decide (-1074 < e)) = false := by
    rw [Bool.and_eq_false_iff, beq_eq_false_iff_ne, decide_eq_false_iff_not]
    omega
  have hplace : (0 : ℚ) < 2 ^ (e - 2) := by positivity
  have hlowest : (binary m' e).lowest = ((4 * m' - 2 : ℕ) : ℚ) * 2 ^ (e - 2) := by
    simp only [Decimal.Binary.lowest, binary, hdense, Bool.false_eq_true, if_false]
  have hhighest : (binary m e).highest = ((4 * m + 2 : ℕ) : ℚ) * 2 ^ (e - 2) := rfl
  rw [hlowest, hhighest, mul_le_mul_iff_left₀ hplace, mul_left_inj' hplace.ne', Nat.cast_le,
    Nat.cast_inj]
  omega

/-- Where the exponent grows, the last number below is odd, and the distance doubles. -/
theorem Standard.ends_of_exponent_lt {m m' : ℕ} {e e' : ℤ} (h : Standard m e)
    (h' : Standard m' e') (hlt : e < e') :
    (binary m e).highest ≤ (binary m' e').lowest ∧
      ((binary m e).highest = (binary m' e').lowest → m % 2 = 1) := by
  have hm := h.lt
  have hquarters : 2 ^ 54 - 1 ≤
      4 * m' - if (m' == 2 ^ 52 && decide (-1074 < e')) = true then 1 else 2 := by
    have hleast := h.least_le
    have hnormal := h'.normal
    by_cases hfirst : m' = 2 ^ 52
    · rw [if_pos (by simp [hfirst]; omega)]
      omega
    · rw [if_neg fun hdense => hfirst (beq_iff_eq.mp (Bool.and_eq_true_iff.mp hdense).1)]
      omega
  have hplace : (0 : ℚ) < 2 ^ (e - 2) := by positivity
  have hdouble : 2 * (2 : ℚ) ^ (e - 2) ≤ 2 ^ (e' - 2) := by
    rw [mul_comm, ← zpow_add_one₀ two_ne_zero]
    exact zpow_le_zpow_right₀ one_le_two (by omega)
  have hbegin : ((2 ^ 54 - 1 : ℕ) : ℚ) * (2 * 2 ^ (e - 2)) ≤ (binary m' e').lowest :=
    mul_le_mul (Nat.cast_le.mpr hquarters) hdouble (by positivity) (Nat.cast_nonneg _)
  have hhighest : (binary m e).highest = ((4 * m + 2 : ℕ) : ℚ) * 2 ^ (e - 2) := rfl
  have hscaled : ((2 ^ 54 - 1 : ℕ) : ℚ) * (2 * 2 ^ (e - 2)) =
      ((2 ^ 55 - 2 : ℕ) : ℚ) * 2 ^ (e - 2) := by
    rw [← mul_assoc]
    norm_num
  rw [hscaled] at hbegin
  refine ⟨?_, fun hmeet => ?_⟩
  · refine le_trans ?_ hbegin
    rw [hhighest, mul_le_mul_iff_left₀ hplace, Nat.cast_le]
    omega
  · rw [← hmeet, hhighest, mul_le_mul_iff_left₀ hplace, Nat.cast_le] at hbegin
    omega

/-- Nothing rounds to a number and to a greater one. -/
theorem Standard.not_reads {m m' : ℕ} {e e' : ℤ} {q : ℚ} (h : Standard m e) (h' : Standard m' e')
    (hlt : e < e' ∨ e = e' ∧ m < m') (hq : (binary m e).Reads q) : ¬ (binary m' e').Reads q := by
  rcases hlt with hlt | ⟨rfl, hlt⟩
  · obtain ⟨hle, hodd⟩ := h.ends_of_exponent_lt h' hlt
    exact hq.not_reads hle fun hmeet => .inl (hodd hmeet)
  · obtain ⟨hle, hodd⟩ := h.ends_of_lt hlt
    exact hq.not_reads hle hodd

/-- **No decimal rounds to two numbers.** -/
theorem Standard.apart {m m' : ℕ} {e e' : ℤ} {q : ℚ} (h : Standard m e) (h' : Standard m' e')
    (hq : (binary m e).Reads q) (hq' : (binary m' e').Reads q) : m = m' ∧ e = e' := by
  have hbelow : ¬ (e < e' ∨ e = e' ∧ m < m') := fun hlt => h.not_reads h' hlt hq hq'
  have habove : ¬ (e' < e ∨ e' = e ∧ m' < m) := fun hlt => h'.not_reads h hlt hq' hq
  omega

/-! ## Reading a number back -/

/-- The decimal that is written for a number rounds to it. -/
theorem Standard.reads_text {m : ℕ} {e : ℤ} (h : Standard m e) :
    (binary m e).Reads (reading (binary m e).shortest.positional.toList) := by
  rw [Decimal.Digits.reading_positional]
  exact (binary m e).shortest_reads h.pos h.lt

/-- Without its sign, every number is written as a numeral. -/
theorem isNumeral_unsignedText (u : UnpackedFloat) : IsNumeral (unsignedText u).toList := by
  cases u with
  | notANumber =>
      show IsNumeral "NaN".toList
      exact ⟨⟨by simp, by simp [isWordLetter], by simp⟩, .inr (.inl rfl)⟩
  | infinity s =>
      show IsNumeral "inf".toList
      exact ⟨⟨by simp, by simp [isWordLetter], by simp⟩, .inl rfl⟩
  | zero s =>
      show IsNumeral "0".toList
      exact isNumeral_of_digits (t := []) rfl (by simp)
  | finite s m e h =>
      obtain ⟨c, t, htext, hc, ht⟩ := (binary m e).shortest.begins_positional
      show IsNumeral (binary m e).shortest.positional.toList
      rw [htext]
      exact isNumeral_of_digits hc ht

/-- What is written for a finite number other than zero is written for no other kind. -/
theorem Standard.text_ne {m : ℕ} {e : ℤ} (h : Standard m e) :
    (binary m e).shortest.positional ≠ "NaN" ∧ (binary m e).shortest.positional ≠ "inf" ∧
      (binary m e).shortest.positional ≠ "0" := by
  obtain ⟨c, t, htext, hc, -⟩ := (binary m e).shortest.begins_positional
  have hbegins : ∀ d t', d.isDigit = false →
      (binary m e).shortest.positional.toList ≠ d :: t' := by
    intro d t' hd heq
    rw [htext] at heq
    rw [(List.cons.inj heq).1, hd] at hc
    cases hc
  refine ⟨?_, ?_, ?_⟩
  · intro hnan
    exact hbegins 'N' ['a', 'N'] rfl (by rw [hnan]; rfl)
  · intro hinf
    exact hbegins 'i' ['n', 'f'] rfl (by rw [hinf]; rfl)
  · intro hzero
    have hpos := h.reads_text.pos h.pos
    have hread : reading "0".toList = 0 := (Decimal.reading_whole (by simp)).trans (by simp; rfl)
    rw [hzero, hread] at hpos
    exact lt_irrefl 0 hpos

/-- What the bits say is determined by the sign and the text without it. -/
theorem eq_of_text_eq {u v : UnpackedFloat} (hu : Canonical u) (hv : Canonical v)
    (hsign : signText u = signText v) (h : unsignedText u = unsignedText v) : u = v := by
  cases hu with
  | notANumber =>
      cases hv with
      | notANumber => rfl
      | finite s _ standard => exact absurd h.symm standard.text_ne.1
      | _ => simp [unsignedText] at h
  | infinity s =>
      cases hv with
      | infinity s' => cases s <;> cases s' <;> simp_all [signText]
      | finite s' _ standard => exact absurd h.symm standard.text_ne.2.1
      | _ => simp [unsignedText] at h
  | zero s =>
      cases hv with
      | zero s' => cases s <;> cases s' <;> simp_all [signText]
      | finite s' _ standard => exact absurd h.symm standard.text_ne.2.2
      | _ => simp [unsignedText] at h
  | finite s hpos standard =>
      cases hv with
      | notANumber => exact absurd h standard.text_ne.1
      | infinity s' => exact absurd h standard.text_ne.2.1
      | zero s' => exact absurd h standard.text_ne.2.2
      | finite s' hpos' standard' =>
          have hreads := standard.reads_text
          rw [show (binary _ _).shortest.positional = (binary _ _).shortest.positional from h]
            at hreads
          obtain ⟨rfl, rfl⟩ := standard.apart standard' hreads standard'.reads_text
          cases s <;> cases s' <;> simp_all [signText]

/-- A minus stands before the numeral, or nothing. -/
theorem toList_textOfFloat (x : Float) :
    (signText (unpacked x) = "" ∧
      (Decimal.textOfFloat x).toList = (unsignedText (unpacked x)).toList) ∨
    (signText (unpacked x) = "-" ∧
      (Decimal.textOfFloat x).toList = '-' :: (unsignedText (unpacked x)).toList) := by
  rw [textOfFloat_eq, String.toList_append]
  rcases signText_cases (unpacked x) with h | h
  · exact .inl ⟨h, by rw [h]; rfl⟩
  · exact .inr ⟨h, by rw [h]; rfl⟩

/-- **Numbers that are written alike are the same**, bit for bit. -/
theorem textOfFloat_injective (h : Decimal.textOfFloat x = Decimal.textOfFloat y) : x = y := by
  have hx := (isNumeral_unsignedText (unpacked x)).unsigned
  have hy := (isNumeral_unsignedText (unpacked y)).unsigned
  rw [← String.toList_inj] at h
  have hsame : signText (unpacked x) = signText (unpacked y) ∧
      (unsignedText (unpacked x)).toList = (unsignedText (unpacked y)).toList := by
    rcases toList_textOfFloat x with ⟨hs, ht⟩ | ⟨hs, ht⟩ <;>
      rcases toList_textOfFloat y with ⟨hs', ht'⟩ | ⟨hs', ht'⟩ <;> rw [ht, ht'] at h
    · exact ⟨hs.trans hs'.symm, h⟩
    · exact absurd (by rw [h]; rfl) hx
    · exact absurd (by rw [← h]; rfl) hy
    · exact ⟨hs.trans hs'.symm, (List.cons.inj h).2⟩
  exact unpacked_injective (eq_of_text_eq (canonical_unpacked x) (canonical_unpacked y) hsame.1
    (String.toList_inj.mp hsame.2))

/-- A minus is written before negative numbers, and goes when the number is negated. -/
theorem textOfFloat_neg {w : List Char} (h : (Decimal.textOfFloat x).toList = '-' :: w) :
    (Decimal.textOfFloat (-x)).toList = w := by
  have hx := (isNumeral_unsignedText (unpacked x)).unsigned
  rcases toList_textOfFloat x with ⟨-, ht⟩ | ⟨hs, ht⟩
  · rw [← ht, h] at hx
    exact absurd rfl hx
  · have hunsigned : unsignedText (unpacked (-x)) = unsignedText (unpacked x) := by
      rw [unpacked_neg]
      cases unpacked x <;> rfl
    have hsign : signText (unpacked (-x)) = "" := by
      rw [unpacked_neg]
      exact signText_neg hs
    rw [textOfFloat_eq, hsign, hunsigned, String.empty_append]
    exact (List.cons.inj (ht.symm.trans h)).2

/-- Negating twice gives the number back. -/
theorem neg_neg (x : Float) : - -x = x := by
  apply unpacked_injective
  rw [unpacked_neg, unpacked_neg]
  cases unpacked x with
  | notANumber => rfl
  | infinity s => cases s <;> rfl
  | zero s => cases s <;> rfl
  | finite s m e h => cases s <;> rfl

end Binary64

open Binary64 in
/-- The machine's numbers are written unambiguously. -/
instance : ReadableText Float where
  injective _ _ h := textOfFloat_injective h
  form x := ⟨_, isNumeral_unsignedText (unpacked x), (toList_textOfFloat x).imp And.right And.right⟩
  negative x _ h := ⟨textOfFloat_neg h, Binary64.neg_neg x⟩

open Binary64 in
/-- Numbers of the machine that differ are written differently, unless both are undefined. -/
instance : DistinctText Float where
  numeral := ReadableText.form
  apart x y h := .inl (textOfFloat_injective h)
  undefined x y hx hy := by
    rw [unpacked_injective ((isNaN_iff.mp hx).trans (isNaN_iff.mp hy).symm)]
  unordered x hx := by
    rw [Bool.eq_false_iff, ne_eq, atMost_iff, hx]
    exact fun h => Bool.noConfusion h.2.1
  minus x hx := by
    have hunsigned := (isNumeral_unsignedText (unpacked x)).unsigned
    have hhead := beq_iff_eq.mp hx
    rcases toList_textOfFloat x with ⟨-, htext⟩ | ⟨hsign, -⟩
    · exact absurd ((congrArg List.head? htext).symm.trans hhead) hunsigned
    · refine (place_of_signText (canonical_unpacked x) hsign).imp (fun hplace => ?_) isZero_iff.mpr
      rw [Bool.eq_false_iff, ne_eq, atMost_iff]
      intro hle
      have hrank := hle.2.2
      rw [rank_eq hle.2.1] at hrank
      exact absurd (lt_of_le_of_lt hrank hplace) (by decide +kernel)

end FormulaGraph
