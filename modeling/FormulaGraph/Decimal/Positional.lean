import FormulaGraph.Decimal.Shortest

/-!
# Numbers written out in full

A number is written with the fewest digits that read back, in place notation
whatever its size: no exponent, no point after a whole number, a zero before a
leading point.  The sign is kept on a negative zero; the undefined number is
`NaN` and the infinities are `inf` and `-inf`.
-/

namespace FormulaGraph.Decimal

/-- Place notation of `digits · 10^exponent`. -/
def Digits.positional (d : Digits) : String :=
  let ds := Nat.toDigits 10 d.digits
  if 0 ≤ d.exponent then
    String.ofList (ds ++ List.replicate d.exponent.toNat '0')
  else
    let places := (-d.exponent).toNat
    if places < ds.length then
      let whole := ds.length - places
      String.ofList (ds.take whole ++ '.' :: ds.drop whole)
    else
      String.ofList ('0' :: '.' :: (List.replicate (places - ds.length) '0' ++ ds))

/-- The parts of a 64-bit binary number: sign, exponent field, fraction. -/
structure Fields where
  negative : Bool
  exponent : Nat
  fraction : Nat

def Fields.ofBits (bits : UInt64) : Fields :=
  let n := bits.toNat
  { negative := Nat.pow 2 63 ≤ n
    exponent := n / Nat.pow 2 52 % Nat.pow 2 11
    fraction := n % Nat.pow 2 52 }

/-- The magnitude, when it is neither zero nor infinite nor undefined.  A zero
exponent field marks the evenly spaced numbers nearest to zero. -/
def Fields.magnitude (f : Fields) : Binary :=
  if f.exponent == 0 then ⟨f.fraction, -1074, false⟩
  else ⟨Nat.pow 2 52 + f.fraction, f.exponent - 1075, f.fraction == 0 && 1 < f.exponent⟩

/-- Text of a 64-bit binary number. -/
def Fields.text (f : Fields) : String :=
  if f.exponent == 2047 then
    if f.fraction != 0 then "NaN" else if f.negative then "-inf" else "inf"
  else
    let sign := if f.negative then "-" else ""
    if f.exponent == 0 && f.fraction == 0 then sign ++ "0"
    else sign ++ f.magnitude.shortest.positional

/-- Text of a machine number. -/
def textOfFloat (x : Float) : String :=
  (Fields.ofBits x.toBits).text

end FormulaGraph.Decimal
