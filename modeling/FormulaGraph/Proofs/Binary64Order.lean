import FormulaGraph.Proofs.Brackets
import FormulaGraph.Scalar.Binary64

/-!
# Binary numbers in order

A binary number that is not undefined is ordered by its **rank**, and the rank is read off its
bits: the bits after the sign, taken for a whole number, count the numbers from zero on.  So the
machine's numbers are ordered (`OrderedNumbers Float`), and a bracket of them that is halved
loses rank each time: halving ends for every condition and every precision
(`Binary64.endsWithin_rank`).
-/

namespace FormulaGraph

open Float.Model Float.Model.UnpackedFloat

namespace Binary64

/-! ## What bits say -/

/-- Mantissa and exponent of a finite number other than zero: all bits of the mantissa are in
use, unless the exponent is the least one. -/
structure Standard (m : ℕ) (e : ℤ) : Prop where
  pos : 0 < m
  lt : m < 2 ^ 53
  least_le : -1074 ≤ e
  normal : e = -1074 ∨ 2 ^ 52 ≤ m

/-- What the bits of a number say. -/
inductive Canonical : UnpackedFloat → Prop
  | notANumber : Canonical .notANumber
  | infinity (s : Sign) : Canonical (.infinity s)
  | zero (s : Sign) : Canonical (.zero s)
  | finite (s : Sign) {m : ℕ} {e : ℤ} (h : 0 < m) (standard : Standard m e) (hle : e ≤ 971) :
      Canonical (.finite s m e h)

/-- The numbers from zero to that of mantissa `m` and exponent `e`. -/
def magnitude (m : ℕ) (e : ℤ) : ℤ := (e + 1074) * 2 ^ 52 + m

/-- The magnitude of infinity. -/
def infiniteRank : ℤ := 2047 * 2 ^ 52

/-- The position of a number in increasing order. -/
def place : UnpackedFloat → ℤ
  | .notANumber => 0
  | .infinity s => s.apply infiniteRank
  | .zero _ => 0
  | .finite s m e _ => s.apply (magnitude m e)

/-- Every number other than zero counts. -/
theorem Standard.magnitude_pos {m : ℕ} {e : ℤ} (h : Standard m e) : 0 < magnitude m e := by
  have := h.pos
  have := h.least_le
  rw [magnitude]
  omega

/-- Finite numbers are below infinity. -/
theorem Standard.magnitude_lt {m : ℕ} {e : ℤ} (h : Standard m e) (hle : e ≤ 971) :
    magnitude m e < infiniteRank := by
  have := h.lt
  rw [magnitude, infiniteRank]
  omega

/-- Exponents count before mantissas. -/
theorem compare_magnitude {m m' : ℕ} {e e' : ℤ} (h : Standard m e) (h' : Standard m' e') :
    (compare e e').then (compare m m') = compare (magnitude m e) (magnitude m' e') := by
  have hm := h.lt
  have hm' := h'.lt
  have he := h.least_le
  have he' := h'.least_le
  rcases lt_trichotomy e e' with hlt | rfl | hgt
  · have hnormal := h'.normal
    have hless : magnitude m e < magnitude m' e' := by
      rw [magnitude, magnitude]
      omega
    rw [compare_lt_iff_lt.mpr hlt, compare_lt_iff_lt.mpr hless]
    rfl
  · rw [compare_eq_iff_eq.mpr rfl, Ordering.eq_then, magnitude, magnitude]
    rcases lt_trichotomy m m' with hlt | rfl | hgt
    · rw [compare_lt_iff_lt.mpr hlt, compare_lt_iff_lt.mpr (by omega)]
    · rw [compare_eq_iff_eq.mpr rfl, compare_eq_iff_eq.mpr rfl]
    · rw [compare_gt_iff_gt.mpr hgt, compare_gt_iff_gt.mpr (by omega)]
  · have hnormal := h.normal
    have hless : magnitude m' e' < magnitude m e := by
      rw [magnitude, magnitude]
      omega
    rw [compare_gt_iff_gt.mpr hgt, compare_gt_iff_gt.mpr hless]
    rfl

/-- Comparing the other way round is comparing the negatives. -/
theorem compare_swap (a b : ℤ) : (compare a b).swap = compare (-a) (-b) := by
  rcases lt_trichotomy a b with h | rfl | h
  · rw [compare_lt_iff_lt.mpr h, compare_gt_iff_gt.mpr (neg_lt_neg h)]
    rfl
  · simp
  · rw [compare_gt_iff_gt.mpr h, compare_lt_iff_lt.mpr (neg_lt_neg h)]
    rfl

/-- **Numbers that are not undefined are compared by their places.** -/
theorem compare_eq {u v : UnpackedFloat} (hu : Canonical u) (hv : Canonical v)
    (hu' : u ≠ .notANumber) (hv' : v ≠ .notANumber) :
    u.compare v = some (compare (place u) (place v)) := by
  have hlt : ∀ {a b : ℤ}, a < b → some Ordering.lt = some (compare a b) := fun h => by
    rw [compare_lt_iff_lt.mpr h]
  have hgt : ∀ {a b : ℤ}, b < a → some Ordering.gt = some (compare a b) := fun h => by
    rw [compare_gt_iff_gt.mpr h]
  cases hu with
  | notANumber => exact absurd rfl hu'
  | infinity s =>
      cases hv with
      | notANumber => exact absurd rfl hv'
      | infinity s' => cases s <;> cases s' <;> rfl
      | zero s' => cases s <;> rfl
      | finite s' _ standard' hle' =>
          have hpos := standard'.magnitude_pos
          have hless := standard'.magnitude_lt hle'
          cases s with
          | negative => exact hlt (by cases s' <;> simp only [place, Sign.apply] <;> omega)
          | positive => exact hgt (by cases s' <;> simp only [place, Sign.apply] <;> omega)
  | zero s =>
      cases hv with
      | notANumber => exact absurd rfl hv'
      | infinity s' => cases s' <;> rfl
      | zero s' => rfl
      | finite s' _ standard' _ =>
          have hpos := standard'.magnitude_pos
          cases s' with
          | negative => exact hgt (by simp only [place, Sign.apply]; omega)
          | positive => exact hlt (by simp only [place, Sign.apply]; omega)
  | finite s _ standard hle =>
      have hpos := standard.magnitude_pos
      have hless := standard.magnitude_lt hle
      cases hv with
      | notANumber => exact absurd rfl hv'
      | infinity s' =>
          cases s' with
          | negative => exact hgt (by cases s <;> simp only [place, Sign.apply] <;> omega)
          | positive => exact hlt (by cases s <;> simp only [place, Sign.apply] <;> omega)
      | zero s' =>
          cases s with
          | negative => exact hlt (by simp only [place, Sign.apply]; omega)
          | positive => exact hgt (by simp only [place, Sign.apply]; omega)
      | finite s' _ standard' _ =>
          have hpos' := standard'.magnitude_pos
          cases s <;> cases s'
          · simp only [UnpackedFloat.compare, place, Sign.apply]
            rw [compare_magnitude standard standard', compare_swap]
          · exact hlt (by simp only [place, Sign.apply]; omega)
          · exact hgt (by simp only [place, Sign.apply]; omega)
          · simp only [UnpackedFloat.compare, place, Sign.apply]
            rw [compare_magnitude standard standard']

/-! ## Taking bits apart -/

section Bits

variable (b : BitVec Format.binary64.numBits)

/-- The last 52 bits are the mantissa. -/
theorem toNat_unpackMantissa : (unpackMantissa b).toNat = b.toNat % 2 ^ 52 := by
  simp [unpackMantissa]

/-- Before them are eleven bits for the exponent. -/
theorem toNat_unpackExponent : (unpackExponent b).toNat = b.toNat / 2 ^ 52 % 2 ^ 11 := by
  simp [unpackExponent, Nat.shiftRight_eq_div_pow]

/-- The first bit is the sign. -/
theorem toNat_unpackSign : (unpackSign b).toNat = b.toNat / 2 ^ 63 % 2 := by
  simp [unpackSign, Nat.shiftRight_eq_div_pow]

end Bits

/-- Bits in front of others count for more. -/
theorem toNat_append {m n : ℕ} (u : BitVec m) (v : BitVec n) :
    (u ++ v).toNat = u.toNat * 2 ^ n + v.toNat := by
  rw [BitVec.toNat_append, ← Nat.shiftLeft_add_eq_or_of_lt v.isLt, Nat.shiftLeft_eq]

/-- The sign and the rest of the bits. -/
theorem unpack_bits (b : BitVec Format.binary64.numBits) :
    Canonical (unpack .binary64 b) ∧ (unpack .binary64 b ≠ .notANumber →
      place (unpack .binary64 b) =
        (Sign.ofBitVec (unpackSign b)).apply (b.toNat % 2 ^ 63 : ℕ)) := by
  have hmantissa := toNat_unpackMantissa b
  have hexponent := toNat_unpackExponent b
  have hbias : ((Format.binary64.exponentBias : ℕ) : ℤ) = 1023 := rfl
  have hbits : ((Format.binary64.mantissaBitsWithoutImplicit : ℕ) : ℤ) = 52 := rfl
  have hrest : b.toNat % 2 ^ 63 = b.toNat / 2 ^ 52 % 2 ^ 11 * 2 ^ 52 + b.toNat % 2 ^ 52 := by
    omega
  rw [hrest, ← hmantissa, ← hexponent]
  have hmantissaLt : (unpackMantissa b).toNat < 2 ^ 52 := (unpackMantissa b).isLt
  have hexponentLt : (unpackExponent b).toNat < 2 ^ 11 := (unpackExponent b).isLt
  rw [UnpackedFloat.unpack]
  split
  · next hall =>
      have hE : (unpackExponent b).toNat = 2047 := by rw [hall]; rfl
      split
      · next hzero =>
          have hM : (unpackMantissa b).toNat = 0 := by rw [hzero]; rfl
          refine ⟨.infinity _, fun _ => ?_⟩
          rw [place, hE, hM, infiniteRank]
          rfl
      · exact ⟨.notANumber, fun h => absurd rfl h⟩
  · next hall =>
      split
      · next hnone =>
          have hE : (unpackExponent b).toNat = 0 := by rw [hnone]; rfl
          split
          · next hzero =>
              have hM : (unpackMantissa b).toNat = 0 := by rw [hzero]; rfl
              refine ⟨.zero _, fun _ => ?_⟩
              rw [place, hE, hM]
              cases Sign.ofBitVec (unpackSign b) <;> rfl
          · next hnonzero =>
              have hpos : 0 < (unpackMantissa b).toNat :=
                Nat.pos_of_ne_zero fun h => hnonzero (BitVec.toNat_inj.mp h)
              refine ⟨.finite _ _ ⟨hpos, by omega, by omega, .inl (by omega)⟩ (by omega),
                fun _ => ?_⟩
              rw [place, magnitude, hE, hbias, hbits]
              congr 1
      · next hsome =>
          have hE : 0 < (unpackExponent b).toNat :=
            Nat.pos_of_ne_zero fun h => hsome (BitVec.toNat_inj.mp h)
          have hE' : (unpackExponent b).toNat ≠ 2047 := fun h => hall (BitVec.toNat_inj.mp h)
          have hM : (1#1 ++ unpackMantissa b).toNat = 1 * 2 ^ 52 + (unpackMantissa b).toNat :=
            toNat_append _ _
          refine ⟨.finite _ _ ⟨by omega, by omega, by omega, .inr (by omega)⟩ (by omega),
            fun _ => ?_⟩
          rw [place, magnitude, hM, hbias, hbits]
          congr 1
          push_cast
          omega

/-! ## The machine's numbers -/

/-- What the bits of the number say. -/
def unpacked (x : Float) : UnpackedFloat := x.toModel.unpack

/-- The bits of a number say what bits can say. -/
theorem canonical_unpacked (x : Float) : Canonical (unpacked x) :=
  (unpack_bits x.toModel.toBits.toBitVec).1

/-- The undefined numbers are those whose bits say so. -/
theorem isNaN_iff {x : Float} : Scalar.isNaN x = true ↔ unpacked x = .notANumber := by
  show (unpacked x).isNaN = true ↔ _
  cases unpacked x <;> simp [UnpackedFloat.isNaN]

/-- All others are finite or infinite. -/
theorem isNaN_eq_false_iff {x : Float} : Scalar.isNaN x = false ↔ unpacked x ≠ .notANumber := by
  rw [← Bool.not_eq_true, isNaN_iff]

/-- The rank of a number is its place. -/
theorem rank_eq {x : Float} (hx : Scalar.isNaN x = false) : rank x = place (unpacked x) := by
  have hsign := toNat_unpackSign x.toModel.toBits.toBitVec
  have hlt : x.toModel.toBits.toBitVec.toNat < 2 ^ 64 := x.toModel.toBits.toBitVec.isLt
  refine Eq.trans ?_ ((unpack_bits x.toModel.toBits.toBitVec).2 (isNaN_eq_false_iff.mp hx)).symm
  show (if x.toModel.toBits.toBitVec.toNat < 2 ^ 63 then
    (x.toModel.toBits.toBitVec.toNat : ℤ) else
      -((x.toModel.toBits.toBitVec.toNat - 2 ^ 63 : ℕ) : ℤ)) = _
  generalize x.toModel.toBits.toBitVec = b at *
  by_cases hpositive : b.toNat < 2 ^ 63
  · have hzero : @unpackSign Format.binary64 b = 0#1 :=
      BitVec.toNat_inj.mp (by rw [hsign]; simp; omega)
    rw [if_pos hpositive, hzero, Nat.mod_eq_of_lt hpositive]
    rfl
  · have hone : @unpackSign Format.binary64 b = 1#1 :=
      BitVec.toNat_inj.mp (by rw [hsign]; simp; omega)
    have hmod : b.toNat % 2 ^ 63 = b.toNat - 2 ^ 63 := by omega
    rw [if_neg hpositive, hone, hmod]
    rfl

/-- Comparisons are comparisons of ranks, and false where a side is undefined. -/
theorem compare_unpacked (a b : Float) : (unpacked a).compare (unpacked b) =
    if Scalar.isNaN a || Scalar.isNaN b then none else some (compare (rank a) (rank b)) := by
  by_cases ha : Scalar.isNaN a = true
  · rw [ha, isNaN_iff.mp ha]
    rfl
  · by_cases hb : Scalar.isNaN b = true
    · rw [hb, isNaN_iff.mp hb, Bool.or_true, if_pos rfl]
      cases unpacked a with
      | infinity s => cases s <;> rfl
      | finite s => cases s <;> rfl
      | _ => rfl
    · rw [Bool.not_eq_true] at ha hb
      rw [ha, hb, compare_eq (canonical_unpacked a) (canonical_unpacked b)
        (isNaN_eq_false_iff.mp ha) (isNaN_eq_false_iff.mp hb), rank_eq ha, rank_eq hb]
      rfl

/-- A number is at most another if neither is undefined and its rank is not greater. -/
theorem atMost_iff {a b : Float} : Scalar.atMost a b = true ↔
    Scalar.isNaN a = false ∧ Scalar.isNaN b = false ∧ rank a ≤ rank b := by
  have hmodel : Scalar.atMost a b = true ↔
      ((unpacked a).compare (unpacked b)).any (·.isLE) = true :=
    decide_eq_true_iff.trans decide_eq_true_iff
  rw [hmodel, compare_unpacked]
  cases Scalar.isNaN a <;> cases Scalar.isNaN b <;>
    simp [Ordering.isLE_iff_ne_gt, compare_gt_iff_gt]

/-- A defined number is less than another if its rank is. -/
theorem less_iff {a b : Float} : Scalar.less a b = true ↔
    Scalar.isNaN a = false ∧ Scalar.isNaN b = false ∧ rank a < rank b := by
  have hmodel : Scalar.less a b = true ↔
      ((unpacked a).compare (unpacked b) == some .lt) = true :=
    decide_eq_true_iff.trans decide_eq_true_iff
  rw [hmodel, compare_unpacked]
  cases Scalar.isNaN a <;> cases Scalar.isNaN b <;> simp [compare_lt_iff_lt]

end Binary64

open Binary64 in
/-- The machine's numbers are in order, except for the undefined one. -/
instance : OrderedNumbers Float where
  nan_undefined := by decide +kernel
  defined_of_atMost h := ⟨(atMost_iff.mp h).1, (atMost_iff.mp h).2.1⟩
  total ha hb := (le_total _ _).imp (fun h => atMost_iff.mpr ⟨ha, hb, h⟩)
    fun h => atMost_iff.mpr ⟨hb, ha, h⟩
  trans h h' := by
    obtain ⟨ha, hb, hab⟩ := atMost_iff.mp h
    obtain ⟨-, hc, hbc⟩ := atMost_iff.mp h'
    exact atMost_iff.mpr ⟨ha, hc, hab.trans hbc⟩
  less_iff {a b} := by
    have hnot : Scalar.atMost b a = false ↔
        ¬ (Scalar.isNaN b = false ∧ Scalar.isNaN a = false ∧ rank b ≤ rank a) := by
      rw [← atMost_iff, Bool.not_eq_true]
    rw [less_iff, atMost_iff, hnot]
    constructor
    · rintro ⟨ha, hb, hab⟩
      exact ⟨⟨ha, hb, hab.le⟩, fun h => absurd hab (not_lt.mpr h.2.2)⟩
    · rintro ⟨⟨ha, hb, -⟩, hnot⟩
      exact ⟨ha, hb, lt_of_not_ge fun h => hnot ⟨hb, ha, h⟩⟩

namespace Binary64

/-! ## Results -/

/-- What the bits say in which a result is stored. -/
def stored (u : UnpackedFloat) : UnpackedFloat :=
  UnpackedFloat.unpack .binary64 (UnpackedFloat.pack .binary64 u)

/-- A sum is rounded when it is stored. -/
theorem unpacked_add (a b : Float) :
    unpacked (a + b) = stored (UnpackedFloat.add .binary64 (unpacked a) (unpacked b)) := rfl

/-- A difference is the stored difference of the operands taken apart. -/
theorem unpacked_sub (a b : Float) :
    unpacked (a - b) = stored (UnpackedFloat.sub .binary64 (unpacked a) (unpacked b)) := rfl

/-- A product is the stored product of the operands taken apart. -/
theorem unpacked_mul (a b : Float) :
    unpacked (a * b) = stored (UnpackedFloat.mul .binary64 (unpacked a) (unpacked b)) := rfl

/-- A quotient is the stored quotient of the operands taken apart. -/
theorem unpacked_div (a b : Float) :
    unpacked (a / b) = stored (UnpackedFloat.div .binary64 (unpacked a) (unpacked b)) := rfl

/-- Undefined results are stored as such. -/
theorem stored_notANumber : stored .notANumber = .notANumber := rfl

/-- A difference with an undefined side is undefined. -/
theorem isNaN_sub {a b : Float} (h : Scalar.isNaN a = true ∨ Scalar.isNaN b = true) :
    Scalar.isNaN (a - b) = true := by
  rw [isNaN_iff, isNaN_iff] at h
  rw [isNaN_iff, unpacked_sub]
  have hsub : UnpackedFloat.sub .binary64 (unpacked a) (unpacked b) = .notANumber := by
    rcases h with h | h
    · rw [h]
      cases unpacked b <;> rfl
    · rw [h]
      cases unpacked a <;> rfl
  rw [hsub, stored_notANumber]

/-! ## Halving ends -/

variable {past : Float → Bool} {precision : Float}

/-- A bracket with an undefined end is not halved. -/
theorem finished_of_undefined {b : Bracket Float}
    (h : Scalar.isNaN b.low = true ∨ Scalar.isNaN b.high = true) : b.Finished precision := by
  refine .inl (Bool.eq_false_iff.mpr fun hless => ?_)
  rw [less_iff, isNaN_sub h.symm] at hless
  cases hless.2.1

/-- A halving makes the bracket smaller by a number at least, or is the last. -/
theorem rank_halve {b : Bracket Float} (hlow : Scalar.isNaN b.low = false)
    (hhigh : Scalar.isNaN b.high = false) (hmove : ¬ b.Finished precision) :
    (b.halve past).Finished precision ∨
      Scalar.isNaN (b.halve past).low = false ∧ Scalar.isNaN (b.halve past).high = false ∧
        0 < rank (b.halve past).high - rank (b.halve past).low ∧
        rank (b.halve past).high - rank (b.halve past).low < rank b.high - rank b.low := by
  rw [Bracket.halve]
  cases hmiddle : Scalar.isNaN b.middle with
  | true => exact .inl (finished_of_undefined (by split <;> simp [hmiddle]))
  | false =>
      obtain ⟨hbelow, habove⟩ := Bracket.middle_inside hlow hhigh hmiddle hmove
      have hbelow' := (less_iff.mp hbelow).2.2
      have habove' := (less_iff.mp habove).2.2
      right
      split
      · exact ⟨hlow, hmiddle, by dsimp only; omega, by dsimp only; omega⟩
      · exact ⟨hmiddle, hhigh, by dsimp only; omega, by dsimp only; omega⟩

/-- **Halving ends** for every precision and whatever is answered: within as many halvings as
there are numbers in the bracket, and one more. -/
theorem alwaysEndsWithin_rank {n : ℕ} {b : Bracket Float} (hlow : Scalar.isNaN b.low = false)
    (hhigh : Scalar.isNaN b.high = false) (hn : rank b.high - rank b.low ≤ n) :
    b.AlwaysEndsWithin precision (n + 1) := by
  induction n generalizing b with
  | zero =>
      by_cases hfinished : b.Finished precision
      · exact .inl hfinished
      · refine .inr fun answer => ?_
        rcases @rank_halve (fun _ => answer) precision b hlow hhigh hfinished with
          hlast | ⟨-, -, hpos, hless⟩
        · exact hlast
        · omega
  | succ n ih =>
      by_cases hfinished : b.Finished precision
      · exact .inl hfinished
      · refine .inr fun answer => ?_
        rcases @rank_halve (fun _ => answer) precision b hlow hhigh hfinished with
          hlast | ⟨hlow', hhigh', -, hless⟩
        · exact Bracket.alwaysEndsWithin_of_finished hlast (n + 1)
        · exact ih hlow' hhigh' (by rw [Bracket.answered]; omega)

/-- Halving ends for every condition. -/
theorem endsWithin_rank {n : ℕ} {b : Bracket Float} (hlow : Scalar.isNaN b.low = false)
    (hhigh : Scalar.isNaN b.high = false) (hn : rank b.high - rank b.low ≤ n) :
    b.EndsWithin past precision (n + 1) :=
  (alwaysEndsWithin_rank hlow hhigh hn).endsWithin past

end Binary64

end FormulaGraph
