/-!
# Cosine and sine integrals on the machine

`Ci x = γ + ln x + ∫₀ˣ (cos t - 1)/t dt` and `Si x = ∫₀ˣ sin t / t dt`, so that
`Ci x + i Si x` is an antiderivative of `e^(ix)/x`.

Both come from one computation on `|x|`.  Above two it is the continued
fraction of the exponential integral at `i|x|`, evaluated from the front by
the modified Lentz recurrence; up to two it is the power series, in which the
odd terms make the sine integral and the even ones the cosine integral.
-/

namespace FormulaGraph.CosineIntegral

/-- A complex number as a pair of binary numbers. -/
structure Cartesian where
  re : Float
  im : Float

namespace Cartesian

/-- The sum, part by part. -/
def add (a b : Cartesian) : Cartesian := ⟨a.re + b.re, a.im + b.im⟩

/-- The product of two complex numbers. -/
def mul (a b : Cartesian) : Cartesian :=
  ⟨a.re * b.re - a.im * b.im, a.re * b.im + a.im * b.re⟩

/-- The quotient of two complex numbers. -/
def div (a b : Cartesian) : Cartesian :=
  let n := b.re * b.re + b.im * b.im
  ⟨(a.re * b.re + a.im * b.im) / n, (a.im * b.re - a.re * b.im) / n⟩

/-- A complex number times a real one. -/
def scale (a : Cartesian) (k : Float) : Cartesian := ⟨a.re * k, a.im * k⟩

end Cartesian

/-- The constant in the series of the cosine integral. -/
def eulerGamma : Float := 0.5772156649015329

/-- A quarter turn, the limit of the sine integral. -/
def halfPi : Float := 1.5707963267948966

/-- Distance from one to the next binary number. -/
def epsilon : Float := 2.220446049250313e-16

/-- Four times the least normal number. -/
def tiny : Float := 2.2250738585072014e-308 * 4.0

/-- The most terms of the series, and the most steps of the recurrence. -/
def maxIterations : Nat := 100

/-- State of the Lentz recurrence: the current denominator term, the two
ratios, and the value accumulated so far. -/
structure Lentz where
  b : Cartesian
  c : Cartesian
  d : Cartesian
  h : Cartesian

/-- Runs the recurrence from term `i` for at most the given number of terms,
until a term changes the value by less than `epsilon`. -/
def lentz : Nat → Nat → Lentz → Cartesian
  | 0, _, s => s.h
  | left + 1, i, s =>
    let a : Float := -((i - 1) * (i - 1)).toFloat
    let b : Cartesian := ⟨s.b.re + 2.0, s.b.im⟩
    let d := Cartesian.div ⟨1.0, 0.0⟩ ((s.d.scale a).add b)
    let c := b.add (Cartesian.div ⟨a, 0.0⟩ s.c)
    let delta := c.mul d
    let h := s.h.mul delta
    if (delta.re - 1.0).abs + delta.im.abs < epsilon then h
    else lentz left (i + 1) ⟨b, c, d, h⟩

/-- Both integrals at `t > 2`. -/
def continuedFraction (t : Float) : Float × Float :=
  let b : Cartesian := ⟨1.0, t⟩
  let d := Cartesian.div ⟨1.0, 0.0⟩ b
  let h := lentz (maxIterations - 1) 2 ⟨b, ⟨1.0 / tiny, 0.0⟩, d, d⟩
  let h := Cartesian.mul ⟨t.cos, -t.sin⟩ h
  (-h.re, halfPi + h.im)

/-- State of the power series: the sum being extended, the two integrals so
far, the sign of the next odd pair, the factor `tᵏ/k!`, and whether the next
term is odd. -/
structure Series where
  sum : Float
  sine : Float
  cosine : Float
  sign : Float
  factor : Float
  odd : Bool

/-- Adds the terms from `k` on, at most the given number of them, until a term
no longer matters. -/
def seriesFrom (t : Float) : Nat → Nat → Series → Float × Float
  | 0, _, s => (s.cosine, s.sine)
  | left + 1, k, s =>
    let factor := s.factor * (t / k.toFloat)
    let term := factor / k.toFloat
    let sum := s.sum + s.sign * term
    let err := term / sum.abs
    let next : Series :=
      if s.odd then ⟨s.cosine, sum, s.cosine, -s.sign, factor, false⟩
      else ⟨s.sine, s.sine, sum, s.sign, factor, true⟩
    if err < epsilon then (next.cosine, next.sine) else seriesFrom t left (k + 1) next

/-- Both integrals at `0 < t ≤ 2`. -/
def powerSeries (t : Float) : Float × Float :=
  let (cosine, sine) :=
    if t < tiny.sqrt then (0.0, t)
    else seriesFrom t maxIterations 1 ⟨0.0, 0.0, 0.0, 1.0, 1.0, true⟩
  (cosine + t.log + eulerGamma, sine)

/-- `(Ci x, Si x)`.  At a negative argument `Ci` is that of `|x|` and `Si` is
odd; at zero `Ci` is minus infinity. -/
def both (x : Float) : Float × Float :=
  if x.isNaN then (0.0 / 0.0, 0.0 / 0.0)
  else
    let t := x.abs
    let (cosine, sine) : Float × Float :=
      if t == 0.0 then (-1.0 / 0.0, 0.0)
      else if t.isInf then (0.0, halfPi)
      else if t > 2.0 then continuedFraction t
      else powerSeries t
    if x < 0.0 then (cosine, -sine) else (cosine, sine)

/-- The cosine integral. -/
def cosineIntegral (x : Float) : Float := (both x).1

/-- The sine integral. -/
def sineIntegral (x : Float) : Float := (both x).2

end FormulaGraph.CosineIntegral
