import FormulaGraph.Table
import FormulaGraph.Proofs.PartialReal

/-!
# Tables are polygons

Whatever its argument, a table reads two neighbouring values.  In exact arithmetic it is the
polygon through its points, and beyond the outermost points it goes on along the outermost lines
(`IsPolygon`).

Measured in steps from the first point, the grid is the natural numbers, and the segment an
argument is read from is the whole part of its place, cut off at both ends.  A segment has its
say on a **stretch** of the line: from its left end on, or from anywhere if it is the first, up to
its right end, or without end if it is the last.  The stretches overlap in grid points only, where
neighbouring segments agree (`polygon_eq`), and there are finitely many of them, so the polygon is
continuous (`continuous_polygon`).
-/

namespace FormulaGraph

open PartialReal

/-! ## Polygons over the natural numbers -/

section Polygon

variable {ys : ℕ → ℝ} {last i : ℕ} {p : ℝ}

/-- The line through `(i, ys i)` and `(i + 1, ys (i + 1))`. -/
def segmentLine (ys : ℕ → ℝ) (i : ℕ) (p : ℝ) : ℝ := ys i * (1 - (p - i)) + ys (i + 1) * (p - i)

/-- The line of a segment begins at its left point. -/
theorem segmentLine_left (ys : ℕ → ℝ) (i : ℕ) : segmentLine ys i i = ys i := by
  rw [segmentLine]
  ring

/-- The line of a segment ends at its right point. -/
theorem segmentLine_right (ys : ℕ → ℝ) (i : ℕ) : segmentLine ys i (i + 1) = ys (i + 1) := by
  rw [segmentLine]
  ring

/-- Lines are continuous. -/
theorem continuous_segmentLine (ys : ℕ → ℝ) (i : ℕ) : Continuous (segmentLine ys i) := by
  unfold segmentLine
  fun_prop

/-- The polygon with the segments `0` to `last`, the first and the last of them without end. -/
noncomputable def polygon (ys : ℕ → ℝ) (last : ℕ) (p : ℝ) : ℝ :=
  segmentLine ys (min ⌊p⌋₊ last) p

/-- Where segment `i` has its say. -/
def stretch (last i : ℕ) : Set ℝ := {p | (i ≠ 0 → i ≤ p) ∧ (i ≠ last → p ≤ i + 1)}

/-- Every point is in the stretch of its segment. -/
theorem mem_stretch (last : ℕ) (p : ℝ) : p ∈ stretch last (min ⌊p⌋₊ last) := by
  refine ⟨fun hne => ?_, fun hne => ?_⟩
  · have hfloor : ⌊p⌋₊ ≠ 0 := by
      rintro hzero
      simp [hzero] at hne
    refine (Nat.cast_le.mpr (min_le_left ⌊p⌋₊ last)).trans (Nat.floor_le ?_)
    exact (Nat.pos_of_floor_pos (Nat.pos_of_ne_zero hfloor)).le
  · have hcut : min ⌊p⌋₊ last = ⌊p⌋₊ := by
      omega
    rw [hcut]
    exact (Nat.lt_floor_add_one p).le

/-- On its stretch, a segment is the polygon. -/
theorem polygon_eq (hi : i ≤ last) (hp : p ∈ stretch last i) :
    polygon ys last p = segmentLine ys i p := by
  obtain ⟨hleft, hright⟩ := hp
  rw [polygon]
  obtain hbefore | hsame | hbehind := lt_trichotomy (min ⌊p⌋₊ last) i
  · have hfloor : i ≤ ⌊p⌋₊ := Nat.le_floor (hleft (by omega))
    omega
  · rw [hsame]
  · -- the next segment can only be chosen at its left end
    have hnext : i + 1 ≤ ⌊p⌋₊ := by omega
    have hle : (i + 1 : ℝ) ≤ p := by
      exact_mod_cast (Nat.le_floor_iff' i.succ_ne_zero).mp hnext
    obtain rfl : p = i + 1 := le_antisymm (hright (by omega)) hle
    have hfloor : ⌊(i + 1 : ℝ)⌋₊ = i + 1 := by exact_mod_cast Nat.floor_natCast (R := ℝ) (i + 1)
    have hchosen : min ⌊(i + 1 : ℝ)⌋₊ last = i + 1 := by omega
    rw [hchosen, segmentLine_right]
    exact_mod_cast segmentLine_left ys (i + 1)

/-- Stretches contain their ends. -/
theorem isClosed_stretch (last i : ℕ) : IsClosed (stretch last i) :=
  (isClosed_imp isOpen_const (isClosed_le continuous_const continuous_id)).inter
    (isClosed_imp isOpen_const (isClosed_le continuous_id continuous_const))

/-- Neighbouring lines meet, so the polygon is continuous. -/
theorem continuous_polygon (ys : ℕ → ℝ) (last : ℕ) : Continuous (polygon ys last) := by
  let stretches : Fin (last + 1) → Set ℝ := fun i => stretch last i
  refine (locallyFinite_of_finite stretches).continuous ?_ (fun i => isClosed_stretch last i) ?_
  · refine Set.eq_univ_of_forall fun p => Set.mem_iUnion.mpr ⟨⟨min ⌊p⌋₊ last, by omega⟩, ?_⟩
    exact mem_stretch last p
  · intro i
    exact (continuous_segmentLine ys i).continuousOn.congr fun p hp =>
      polygon_eq (Nat.le_of_lt_succ i.isLt) hp

end Polygon

/-! ## Polygons over a grid -/

/-- The line through `(a, y)` and `(b, z)`. -/
noncomputable def lineThrough (a y b z x : ℝ) : ℝ := y + (z - y) / (b - a) * (x - a)

/-- Over the grid `a`, `a + h`, …, the function goes through the values, in lines from each to the
next, and on along the outermost lines. -/
structure IsPolygon (ys : Array ℝ) (a h : ℝ) (two : 2 ≤ ys.size) (f : ℝ → ℝ) : Prop where
  at_point : ∀ i (hi : i < ys.size), f (a + i * h) = ys[i]
  between : ∀ i (hi : i + 1 < ys.size) x, a + i * h ≤ x → x ≤ a + (i + 1 : ℕ) * h →
    f x = lineThrough (a + i * h) ys[i] (a + (i + 1 : ℕ) * h) ys[i + 1] x
  before : ∀ x ≤ a, f x = lineThrough a ys[0] (a + h) ys[1] x
  behind : ∀ x ≥ a + (ys.size - 1 : ℕ) * h, f x =
    lineThrough (a + (ys.size - 2 : ℕ) * h) ys[ys.size - 2]
      (a + (ys.size - 1 : ℕ) * h) ys[ys.size - 1] x
  continuous : Continuous f

/-- On the grid, the line of a segment is the line through its points. -/
theorem segmentLine_eq_lineThrough (ys : ℕ → ℝ) (i : ℕ) (a x : ℝ) {h : ℝ} (hh : 0 < h) :
    segmentLine ys i ((x - a) / h) =
      lineThrough (a + i * h) (ys i) (a + (i + 1 : ℕ) * h) (ys (i + 1)) x := by
  have hstep : a + (i + 1 : ℕ) * h - (a + i * h) = h := by
    push_cast
    ring
  rw [segmentLine, lineThrough, hstep]
  field_simp
  ring

section Grid

variable {ys : Array ℝ} {a h : ℝ} {i : ℕ} {x : ℝ}

/-- The polygon through the values over the grid. -/
noncomputable def gridPolygon (ys : Array ℝ) (a h x : ℝ) : ℝ :=
  polygon (fun i => ys.getD i 0) (ys.size - 2) ((x - a) / h)

/-- Between two points of the grid the polygon is the line through them; the outer segments go
on. -/
theorem gridPolygon_eq (hh : 0 < h) (hi : i + 1 < ys.size) (hleft : i ≠ 0 → a + i * h ≤ x)
    (hright : i + 2 ≠ ys.size → x ≤ a + (i + 1 : ℕ) * h) :
    gridPolygon ys a h x = lineThrough (a + i * h) ys[i] (a + (i + 1 : ℕ) * h) ys[i + 1] x := by
  have hplace : (x - a) / h ∈ stretch (ys.size - 2) i := by
    refine ⟨fun hfirst => ?_, fun hlast => ?_⟩
    · rw [le_div_iff₀ hh]
      linarith [hleft hfirst]
    · rw [div_le_iff₀ hh]
      have hle := hright (by omega)
      push_cast at hle
      linarith
  rw [gridPolygon, polygon_eq (by omega) hplace, segmentLine_eq_lineThrough _ i a x hh]
  simp [Array.getD, hi, Nat.lt_of_succ_lt hi]

/-- At a point of the grid the polygon has its value. -/
theorem gridPolygon_point (hh : 0 < h) (two : 2 ≤ ys.size) (hi : i < ys.size) :
    gridPolygon ys a h (a + i * h) = ys[i] := by
  have hplace : (a + i * h - a) / h = i := by
    field_simp
    ring
  have hvalue : ys.getD i 0 = ys[i] := by simp [Array.getD, hi]
  rw [gridPolygon, hplace]
  by_cases hlast : i + 1 = ys.size
  · obtain ⟨j, rfl⟩ : ∃ j, i = j + 1 := ⟨i - 1, by omega⟩
    have hend : ((j + 1 : ℕ) : ℝ) ∈ stretch (ys.size - 2) j := by
      refine ⟨fun _ => ?_, fun hne => absurd (by omega) hne⟩
      exact_mod_cast j.le_succ
    rw [polygon_eq (by omega) hend, ← hvalue]
    exact_mod_cast segmentLine_right _ j
  · have hend : (i : ℝ) ∈ stretch (ys.size - 2) i := ⟨fun _ => le_rfl, fun _ => by simp⟩
    rw [polygon_eq (by omega) hend, segmentLine_left, hvalue]

/-- The polygon over the grid has all a polygon should have. -/
theorem isPolygon_gridPolygon (hh : 0 < h) (two : 2 ≤ ys.size) :
    IsPolygon ys a h two (gridPolygon ys a h) where
  at_point i hi := gridPolygon_point hh two hi
  between i hi x hleft hright := gridPolygon_eq hh hi (fun _ => hleft) fun _ => hright
  before x hx := by
    have hi : 0 + 1 < ys.size := two
    have hfirst := gridPolygon_eq (i := 0) (x := x) (a := a) hh hi
      (fun hne => absurd rfl hne) fun _ => ?_
    · simpa using hfirst
    · push_cast
      linarith
  behind x hx := by
    have hlast : ys.size - 2 + 1 = ys.size - 1 := by omega
    have hle : (ys.size - 2 : ℕ) ≤ (ys.size - 1 : ℕ) := by omega
    have hi : ys.size - 2 + 1 < ys.size := by omega
    have hbehind := gridPolygon_eq (i := ys.size - 2) (x := x) (a := a) hh hi
      (fun _ => ?_) fun hne => absurd (by omega) hne
    · simpa only [hlast] using hbehind
    · have hcast : ((ys.size - 2 : ℕ) : ℝ) * h ≤ (ys.size - 1 : ℕ) * h :=
        mul_le_mul_of_nonneg_right (by exact_mod_cast hle) hh.le
      linarith
  continuous := (continuous_polygon _ _).comp (by fun_prop)

end Grid

/-! ## Tables -/

namespace Table

variable {ε : Type}

/-- What is accepted has a positive step, and becomes the table. -/
theorem fields_of_ofValues {α : Type} [Scalar α] {name : String} {values : Array α}
    {min step : α} {derivative : Option ε} {t : Table α ε}
    (h : ofValues name values min step derivative = .ok t) :
    Scalar.less 0 step = true ∧ t.values = values ∧ t.min = min ∧ t.step = step := by
  rw [ofValues] at h
  split at h
  · split at h
    · next hstep =>
        cases h
        exact ⟨hstep, rfl, rfl, rfl⟩
    · cases h
  · cases h

/-- The segment of a real place, if a machine word counts the values. -/
theorem segment_real {t : Table PartialReal ε} (hsize : t.values.size ≤ largestWord) (p : ℝ) :
    t.segment (real p) = Min.min ⌊p⌋₊ (t.values.size - 2) := by
  rw [segment]
  by_cases hp : p ≤ 0
  · rw [if_pos (by simpa using hp), Nat.floor_of_nonpos hp, Nat.zero_min]
  · rw [if_neg (by simpa using hp)]
    show Min.min (Min.min ⌊p⌋₊ largestWord) (t.values.size - 2) = _
    omega

/-- A table of real numbers is a polygon. -/
theorem interpolate_real {t : Table PartialReal ε} {ys : Array ℝ} {a h : ℝ}
    (hvalues : t.values = ys.map real) (hmin : t.min = real a) (hstep : t.step = real h)
    (hh : 0 < h) (hsize : ys.size ≤ largestWord) (x : ℝ) :
    t.interpolate (real x) = real (gridPolygon ys a h x) := by
  have hposition : t.position (real x) = real ((x - a) / h) := by
    simp [position, hmin, hstep, real_div _ hh.ne']
  have hcount : t.values.size = ys.size := by rw [hvalues, Array.size_map]
  have hvalue : ∀ i (hi : i < t.values.size), t.values[i] = real (ys.getD i 0) := by
    intro i hi
    have hys : i < ys.size := hcount ▸ hi
    simp [hvalues, Array.getD, hys]
  simp only [interpolate, hposition, hvalue, segment_real (hcount ▸ hsize), hcount]
  rfl

/-- **A table is a polygon**, in exact arithmetic and if a machine word counts its values: over
the grid, the function goes through its values in lines, and on along the outermost lines before
the first point and behind `max`.  Where the argument is undefined it is the first value.  In any
arithmetic, and for any argument, two neighbouring values are read. -/
theorem interpolation :
    (∀ (α ε : Type) [Scalar α] (t : Table α ε) (v : α),
      ∃ (i : ℕ) (hi : i + 1 < t.values.size), t.interpolate v =
        t.values[i] * (1 - (t.position v - Scalar.ofNat i)) +
          t.values[i + 1] * (t.position v - Scalar.ofNat i)) ∧
    ∀ (ε : Type) (name : String) (ys : Array ℝ) (a h : ℝ) (derivative : Option ε)
      (t : Table PartialReal ε),
      ofValues name (ys.map real) (real a) (real h) derivative = .ok t → ys.size ≤ largestWord →
      t.max = real (a + (ys.size - 1 : ℕ) * h) ∧
        ∃ (two : 2 ≤ ys.size) (f : ℝ → ℝ), (∀ x, t.interpolate (real x) = real (f x)) ∧
          IsPolygon ys a h two f ∧ t.interpolate undefined = real ys[0] := by
  refine ⟨fun α ε _ t v => ⟨t.segment (t.position v), t.segment_lt _, rfl⟩, ?_⟩
  intro ε name ys a h derivative t haccepted hsize
  obtain ⟨hless, hvalues, hmin, hstep⟩ := fields_of_ofValues haccepted
  have hh : 0 < h := (less_real 0 h).mp hless
  have hcount : t.values.size = ys.size := by rw [hvalues, Array.size_map]
  have two : 2 ≤ ys.size := hcount ▸ t.two_le_size
  have hpolygon := isPolygon_gridPolygon (a := a) hh two
  have hreal := interpolate_real hvalues hmin hstep hh hsize
  refine ⟨?_, two, gridPolygon ys a h, hreal, hpolygon, ?_⟩
  · rw [max, hmin, hstep, hcount]
    exact congrArg (fun x => real (a + x)) (mul_comm h _)
  · have hfirst : gridPolygon ys a h a = ys[0] := by
      simpa using hpolygon.at_point 0 (by omega)
    -- an undefined argument has the place of the first point
    have hundefined : (undefined - real a) / real h = undefined := rfl
    have hposition : t.position undefined = t.position (real a) := by
      simp [position, hmin, hstep, hundefined, real_div _ hh.ne']
    rw [← hfirst, ← hreal]
    simp only [interpolate, hposition]

/-- The table of the first square numbers, from zero on in steps of one. -/
theorem interpolation_of_squares :
    let squares : Array ℝ := #[0, 1, 4, 9]
    let accepted : Except (Defect PartialReal) (Table PartialReal Unit) :=
      ofValues "squares" (squares.map real) (real 0) (real 1) none
    ∃ t, accepted = .ok t ∧ t.max = real (0 + (squares.size - 1 : ℕ) * 1) ∧
      ∃ (two : 2 ≤ squares.size) (f : ℝ → ℝ), (∀ x, t.interpolate (real x) = real (f x)) ∧
        IsPolygon squares 0 1 two f ∧ t.interpolate undefined = real squares[0] := by
  intro squares accepted
  have haccepted : accepted = .ok ⟨"squares", squares.map real, real 0, real 1, none, by
      simp [squares]⟩ := by
    refine (dif_pos (by simp [squares])).trans (if_pos ?_)
    simp
  exact ⟨_, haccepted, interpolation.2 Unit "squares" squares 0 1 none _ haccepted (by decide)⟩

end Table

end FormulaGraph
