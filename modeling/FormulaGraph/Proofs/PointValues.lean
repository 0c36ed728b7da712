import FormulaGraph.Point
import FormulaGraph.Proofs.AxisTurns
import FormulaGraph.Proofs.Denotations
import FormulaGraph.Proofs.LexicalScope

/-!
# What points of formulas denote

A point of formulas denotes a vector if its coordinates denote those of the vector.  The
operations on points are computed coordinate by coordinate, and denote the operations on vectors:
sums, multiples, scalar and vector products, and the turn about an axis (`rotate_denotes`).

A point is evaluated in one pass, in which its coordinates share what was computed before.  As
long as they keep to one scope, a point that denotes a vector evaluates to it
(`Denotes.evaluate`).
-/

namespace FormulaGraph

open PartialReal Matrix

namespace Point3

open Formula

/-- The point whose coordinates are those of the vector. -/
def ofVector (v : Fin 3 → ℝ) : Point3 PartialReal := ⟨real (v 0), real (v 1), real (v 2)⟩

/-- The coordinates denote those of the vector. -/
structure Denotes (S : Set NodeId) (ρ : Valuation PartialReal) (v : Fin 3 → ℝ)
    (L : Ledger PartialReal) (p : Point3 (Formula PartialReal)) : Prop where
  x : p.x.Denotes S ρ (v 0) L
  y : p.y.Denotes S ρ (v 1) L
  z : p.z.Denotes S ρ (v 2) L

variable {S : Set NodeId} {ρ : Valuation PartialReal} {L : Ledger PartialReal}
  {v w : Fin 3 → ℝ} {x : ℝ} {k : Formula PartialReal} {p q : Point3 (Formula PartialReal)}

/-- What a point denotes does not depend on what else has been built. -/
theorem Denotes.mono {L' : Ledger PartialReal} (hp : p.Denotes S ρ v L) (hL : L.Extends L') :
    p.Denotes S ρ v L' :=
  ⟨hp.x.mono hL, hp.y.mono hL, hp.z.mono hL⟩

/-- The coordinates denote the entries of the vector, in order. -/
theorem Denotes.all (hp : p.Denotes S ρ v L) : DenoteAll S ρ [v 0, v 1, v 2] L p.toList :=
  .cons hp.x (.cons hp.y (.cons hp.z .nil))

/-- The vector that a point denotes if all its coordinates can be evaluated. -/
theorem exists_denotes {t : Store PartialReal} (ht : t.Reachable)
    (hp : ∀ e ∈ p.toList, e.Evaluable L S t) : ∃ v, p.Denotes S t.read v L := by
  obtain ⟨hx, hy, hz⟩ : p.x.Evaluable L S t ∧ p.y.Evaluable L S t ∧ p.z.Evaluable L S t := by
    simpa [toList] using hp
  exact ⟨![_, _, _], hx.denotes ht, hy.denotes ht, hz.denotes ht⟩

/-! ## Coordinate by coordinate -/

/-- Applying an operation to each coordinate applies its function to each entry. -/
theorem mapM_denotes {f : Formula PartialReal → Fresh (Formula PartialReal)} {F : ℝ → ℝ}
    (hp : p.Denotes S ρ v L)
    (hf : ∀ L' e x, L.Extends L' → e.Denotes S ρ x L' →
      Builds (f e) L' (Formula.Denotes S ρ (F x))) :
    Builds (p.mapM f) L (Denotes S ρ fun i => F (v i)) := by
  rw [mapM]
  refine .bind (hf L _ _ (.refl L) hp.x) fun L₁ a hL₁ ha => ?_
  refine .bind (hf L₁ _ _ hL₁ (hp.y.mono hL₁)) fun L₂ b hL₂ hb => ?_
  have hL := hL₁.trans hL₂
  refine .bind (hf L₂ _ _ hL (hp.z.mono hL)) fun L₃ c hL₃ hc => ?_
  exact .pure ⟨ha.mono (hL₂.trans hL₃), hb.mono hL₃, hc⟩

/-- Combining two points coordinate by coordinate combines their vectors entry by entry. -/
theorem zipM_denotes {f : Formula PartialReal → Formula PartialReal → Fresh (Formula PartialReal)}
    {F : ℝ → ℝ → ℝ} (hp : p.Denotes S ρ v L) (hq : q.Denotes S ρ w L)
    (hf : ∀ L' a b x y, a.Denotes S ρ x L' → b.Denotes S ρ y L' →
      Builds (f a b) L' (Formula.Denotes S ρ (F x y))) :
    Builds (p.zipM f q) L (Denotes S ρ fun i => F (v i) (w i)) := by
  rw [zipM]
  refine .bind (hf L _ _ _ _ hp.x hq.x) fun L₁ a hL₁ ha => ?_
  refine .bind (hf L₁ _ _ _ _ (hp.y.mono hL₁) (hq.y.mono hL₁)) fun L₂ b hL₂ hb => ?_
  have hL := hL₁.trans hL₂
  refine .bind (hf L₂ _ _ _ _ (hp.z.mono hL) (hq.z.mono hL)) fun L₃ c hL₃ hc => ?_
  exact .pure ⟨ha.mono (hL₂.trans hL₃), hb.mono hL₃, hc⟩

/-- Sums of points denote sums of vectors. -/
theorem add_denotes (hp : p.Denotes S ρ v L) (hq : q.Denotes S ρ w L) :
    Builds (p.add q) L (Denotes S ρ (v + w)) :=
  zipM_denotes (F := (· + ·)) hp hq fun _ _ _ _ _ => Formula.add_denotes

/-- Differences of points denote differences of vectors. -/
theorem sub_denotes (hp : p.Denotes S ρ v L) (hq : q.Denotes S ρ w L) :
    Builds (p.sub q) L (Denotes S ρ (v - w)) :=
  zipM_denotes (F := (· - ·)) hp hq fun _ _ _ _ _ => subtract_denotes

/-- Negated points denote negated vectors. -/
theorem neg_denotes (hp : p.Denotes S ρ v L) : Builds p.neg L (Denotes S ρ (-v)) :=
  mapM_denotes hp fun _ _ _ _ => negate_denotes

/-- A point may be scaled from the left. -/
theorem scale_denotes (hk : k.Denotes S ρ x L) (hp : p.Denotes S ρ v L) :
    Builds (scale k p) L (Denotes S ρ (x • v)) :=
  mapM_denotes hp fun _ _ _ hL he => multiply_denotes (hk.mono hL) he

/-- A point may be scaled from the right as well. -/
theorem mul_denotes (hp : p.Denotes S ρ v L) (hk : k.Denotes S ρ x L) :
    Builds (p.mul k) L (Denotes S ρ (x • v)) := by
  have hmul := mapM_denotes (f := fun c => multiply c k) hp fun _ _ _ hL he =>
    multiply_denotes he (hk.mono hL)
  simp only [mul_comm _ x] at hmul
  exact hmul

/-- Divided by zero a point vanishes, since every quotient by zero is zero. -/
theorem div_denotes (hp : p.Denotes S ρ v L) (hk : k.Denotes S ρ x L) :
    Builds (p.div k) L (Denotes S ρ (x⁻¹ • v)) := by
  have hdiv := mapM_denotes (f := fun c => divide c k) hp fun _ _ _ hL he =>
    divide_denotes he (hk.mono hL)
  simp only [div_eq_inv_mul] at hdiv
  exact hdiv

/-! ## Lengths and products -/

/-- The length of a point is that of its vector. -/
theorem length_denotes (hp : p.Denotes S ρ v L) :
    Builds p.length L (Formula.Denotes S ρ (magnitude v)) := by
  have hlength := assoc_denotes .hypot hp.all
  rwa [AssocOp.amount, PartialReal.length, List.map_cons, List.map_cons, List.map_singleton,
    List.sum_cons, List.sum_pair, ← add_assoc, ← vec3_dotProduct v v] at hlength

/-- A point is divided by its length, and one at the origin stays there. -/
theorem normal_denotes (hp : p.Denotes S ρ v L) :
    Builds p.normal L (Denotes S ρ ((magnitude v)⁻¹ • v)) := by
  rw [normal]
  exact .bind (length_denotes hp) fun L₁ k hL₁ hk => div_denotes (hp.mono hL₁) hk

/-- The product of two points is the scalar product. -/
theorem dot_denotes (hp : p.Denotes S ρ v L) (hq : q.Denotes S ρ w L) :
    Builds (p.dot q) L (Formula.Denotes S ρ (v ⬝ᵥ w)) := by
  rw [dot]
  refine .bind (zipM_denotes hp hq fun _ _ _ _ _ => multiply_denotes) fun L₁ products _ h => ?_
  have hsum := assoc_denotes .add h.all
  rwa [AssocOp.amount, List.sum_cons, List.sum_pair, ← add_assoc, ← vec3_dotProduct v w] at hsum

/-- The difference of two products, of which cross products are made. -/
theorem minor_denotes {a b c d : Formula PartialReal} {x y z u : ℝ} (ha : a.Denotes S ρ x L)
    (hb : b.Denotes S ρ y L) (hc : c.Denotes S ρ z L) (hd : d.Denotes S ρ u L) :
    Builds (minor a b c d) L (Formula.Denotes S ρ (x * y - z * u)) := by
  rw [minor]
  refine .bind (multiply_denotes ha hb) fun L₁ ab hL₁ hab => ?_
  refine .bind (multiply_denotes (hc.mono hL₁) (hd.mono hL₁)) fun L₂ cd hL₂ hcd => ?_
  exact subtract_denotes (hab.mono hL₂) hcd

/-- The cross product of points is that of vectors. -/
theorem cross_denotes (hp : p.Denotes S ρ v L) (hq : q.Denotes S ρ w L) :
    Builds (p.cross q) L (Denotes S ρ (crossProduct v w)) := by
  rw [cross, cross_apply]
  refine .bind (minor_denotes hp.y hq.z hp.z hq.y) fun L₁ a hL₁ ha => ?_
  have hp₁ := hp.mono hL₁
  have hq₁ := hq.mono hL₁
  refine .bind (minor_denotes hp₁.z hq₁.x hp₁.x hq₁.z) fun L₂ b hL₂ hb => ?_
  have hp₂ := hp₁.mono hL₂
  have hq₂ := hq₁.mono hL₂
  refine .bind (minor_denotes hp₂.x hq₂.y hp₂.y hq₂.x) fun L₃ c hL₃ hc => ?_
  exact .pure ⟨ha.mono (hL₂.trans hL₃), hb.mono hL₃, hc⟩

/-! ## Turning about an axis -/

/-- A point is split into the part along an axis and the rest. -/
theorem project_denotes (hp : p.Denotes S ρ v L) (hq : q.Denotes S ρ w L) :
    Builds (p.project q) L fun L' parts => parts.vertical.Denotes S ρ ((v ⬝ᵥ w) • w) L' ∧
      parts.horizontal.Denotes S ρ (v - (v ⬝ᵥ w) • w) L' := by
  rw [project]
  refine .bind (dot_denotes hp hq) fun L₁ k hL₁ hk => ?_
  refine .bind (scale_denotes hk (hq.mono hL₁)) fun L₂ vertical hL₂ hvertical => ?_
  refine .bind (sub_denotes (hp.mono (hL₁.trans hL₂)) hvertical) fun L₃ _ hL₃ hhorizontal => ?_
  exact .pure ⟨hvertical.mono hL₃, hhorizontal⟩

/-- **Turning a point turns the vector.** -/
theorem rotate_denotes (hp : p.Denotes S ρ v L) (hq : q.Denotes S ρ w L) :
    Builds (p.rotate q) L (Denotes S ρ (turned w v)) := by
  rw [rotate]
  refine .bind (normal_denotes hq) fun L₁ direction hL₁ hdirection => ?_
  refine .bind (project_denotes (hp.mono hL₁) hdirection) fun L₂ parts hL₂ hparts => ?_
  obtain ⟨hvertical, hhorizontal⟩ := hparts
  refine .bind (length_denotes (hq.mono (hL₁.trans hL₂))) fun L₃ size hL₃ hsize => ?_
  refine .bind (unary_denotes .cos hsize rfl) fun L₄ cos hL₄ hcos => ?_
  have hL₂₄ := hL₃.trans hL₄
  refine .bind (mul_denotes (hhorizontal.mono hL₂₄) hcos) fun L₅ across hL₅ hacross => ?_
  refine .bind (add_denotes (hvertical.mono (hL₂₄.trans hL₅)) hacross) fun L₆ still hL₆ hstill => ?_
  have hL₂₆ := (hL₂₄.trans hL₅).trans hL₆
  refine .bind (cross_denotes (hp.mono ((hL₁.trans hL₂).trans hL₂₆))
    (hdirection.mono (hL₂.trans hL₂₆))) fun L₇ product hL₇ hproduct => ?_
  have hL₃₇ := ((hL₄.trans hL₅).trans hL₆).trans hL₇
  refine .bind (unary_denotes .sin (hsize.mono hL₃₇) rfl) fun L₈ sin hL₈ hsin => ?_
  refine .bind (mul_denotes (hproduct.mono hL₈) hsin) fun L₉ turned hL₉ hturned => ?_
  exact add_denotes (hstill.mono ((hL₇.trans hL₈).trans hL₉)) hturned

/-! ## Evaluating a point -/

section Evaluation

variable {D : Directory PartialReal} {g : Generation}

/-- The coordinates are answered in one pass, each with its value. -/
theorem evaluateIn_delivers {α : Type} [Scalar α] {D : Directory α} {ρ : Valuation α}
    {p : Point3 (Formula α)} (hp : ∀ e ∈ p.toList, e.Scoped S ∧ e.ListedIn D) :
    Delivers D g S ρ (p.evaluateIn g) (p.map (value ρ)) := by
  obtain ⟨hx, hy, hz⟩ : (p.x.Scoped S ∧ p.x.ListedIn D) ∧ (p.y.Scoped S ∧ p.y.ListedIn D) ∧
      p.z.Scoped S ∧ p.z.ListedIn D := by simpa [toList] using hp
  refine Delivers.answering.bind (Formula.evaluateIn_delivers hx.1 hx.2 g ρ) ?_
  refine Delivers.answering.bind (Formula.evaluateIn_delivers hy.1 hy.2 g ρ) ?_
  refine Delivers.answering.bind (Formula.evaluateIn_delivers hz.1 hz.2 g ρ) ?_
  exact Delivers.answering.pure _

/-- The first coordinate is evaluated first. -/
theorem evaluate_x {α : Type} [Scalar α] (p : Point3 (Formula α)) (t : Store α) :
    (p.evaluate.run t).1.x = (p.x.evaluate.run t).1 := rfl

/-- The coordinates are evaluated in order. -/
theorem evaluate_run {x y z : Formula PartialReal} {t t₁ t₂ : Store PartialReal}
    {a b c : PartialReal}
    (hx : (x.evaluateIn (t.generation + 1)).run (Evaluation.nextGeneration.run t).2 = (a, t₁))
    (hy : (y.evaluateIn (t.generation + 1)).run t₁ = (b, t₂))
    (hz : ((z.evaluateIn (t.generation + 1)).run t₂).1 = c) :
    ((Point3.mk x y z).evaluate.run t).1 = ⟨a, b, c⟩ := by
  have hrest : (do
      let y ← y.evaluateIn (t.generation + 1)
      let z ← z.evaluateIn (t.generation + 1)
      return (⟨a, y, z⟩ : Point3 PartialReal) : Evaluation PartialReal _).run t₁ =
        (⟨a, b, c⟩, ((z.evaluateIn (t.generation + 1)).run t₂).2) := by
    rw [StateT.run_bind, hy, ← hz]
    rfl
  have hrun : (Point3.mk x y z).evaluate.run t =
      ((x.evaluateIn (t.generation + 1)) >>= fun x => do
        let y ← y.evaluateIn (t.generation + 1)
        let z ← z.evaluateIn (t.generation + 1)
        return ⟨x, y, z⟩ : Evaluation PartialReal _).run (Evaluation.nextGeneration.run t).2 := rfl
  rw [hrun, StateT.run_bind, hx]
  exact congrArg Prod.fst hrest

/-- **A point that denotes a vector evaluates to it.** -/
theorem Denotes.evaluate {t : Store PartialReal} (hp : p.Denotes S t.read v L)
    (ht : t.Reachable) : (p.evaluate.run t).1 = ofVector v := by
  have hmember : ∀ e ∈ p.toList, e.Scoped S ∧ e.ListedIn L.directory := fun e he =>
    ⟨(hp.all.member e he).holds, (hp.all.member e he).known.listed⟩
  refine (evaluateIn_delivers hmember _ (ht.issued.serves_next fun _ _ => rfl)).1.trans ?_
  rw [map, hp.x.value_eq, hp.y.value_eq, hp.z.value_eq, ofVector]

/-- What is built so that it denotes a vector evaluates to it. -/
theorem evaluate_of_builds {x : Fresh (Point3 (Formula PartialReal))} {t : Store PartialReal}
    (ht : t.Reachable) (hx : Builds x L (Denotes S t.read v)) :
    ((x.run L.next).1.evaluate.run t).1 = ofVector v := by
  obtain ⟨L', -, -, h⟩ := hx
  exact h.evaluate ht

end Evaluation

end Point3

end FormulaGraph
