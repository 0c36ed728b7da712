import FormulaGraph.Proofs.LingeringRoots
import FormulaGraph.Proofs.NeutralConstants
import FormulaGraph.Proofs.PointValues

/-!
# Turning a point is a rotation

A point is turned about an angle vector by way of its parts along and across the axis, sines and
cosines, and a normal that is zero where the angle vector is.  What comes of it evaluates to the
vector of the point, turned about the vector of the angle, and so it obeys the laws of rotations
(`rotate_evaluation`).
-/

namespace FormulaGraph

open PartialReal Matrix

namespace Point3

open Formula

variable {α : Type} [Scalar α]

/-- The point turned about `k` times an angle vector. -/
def rotateBy (k : α) (u p : Point3 (Formula α)) : Fresh (Point3 (Formula α)) := do
  p.rotate (← scale (← constant k) u)

/-- The point turned about an angle vector and then about the opposite one. -/
def rotateBack (a p : Point3 (Formula α)) : Fresh (Point3 (Formula α)) := do
  let q ← p.rotate a
  q.rotate (← a.neg)

section

variable {S : Set NodeId} {ρ : Valuation PartialReal} {L : Ledger PartialReal}
  {v w : Fin 3 → ℝ} {p a : Point3 (Formula PartialReal)}

theorem rotateBy_denotes (x : ℝ) (ha : a.Denotes S ρ w L) (hp : p.Denotes S ρ v L) :
    Builds (rotateBy (real x) a p) L (Denotes S ρ (turned (x • w) v)) := by
  rw [rotateBy]
  refine .bind (constant_denotes (S := S) (ρ := ρ) x) fun L₁ k hL₁ hk => ?_
  refine .bind (scale_denotes hk (ha.mono hL₁)) fun L₂ u hL₂ hu => ?_
  exact rotate_denotes (hp.mono (hL₁.trans hL₂)) hu

theorem rotateBack_denotes (ha : a.Denotes S ρ w L) (hp : p.Denotes S ρ v L) :
    Builds (rotateBack a p) L (Denotes S ρ v) := by
  rw [rotateBack]
  refine .bind (rotate_denotes hp ha) fun L₁ q hL₁ hq => ?_
  refine .bind (neg_denotes (ha.mono hL₁)) fun L₂ b hL₂ hb => ?_
  have hback := rotate_denotes (hq.mono hL₂) hb
  rwa [turned_neg] at hback

/-- **Turning about an angle vector is a rotation**, in exact arithmetic and wherever nothing is
undefined, if the coordinates are scoped in the same variables: it keeps the length and the scalar
product with the angle vector, the opposite vector turns back, and turns about multiples of one
vector add up.  The angle vector may be zero. -/
theorem rotate_evaluation (L : Ledger PartialReal) (S : Set NodeId) (t : Store PartialReal)
    (ht : t.Reachable) (p a : Point3 (Formula PartialReal))
    (hp : ∀ e ∈ p.toList, e.Evaluable L S t) (ha : ∀ e ∈ a.toList, e.Evaluable L S t) :
    ∃ v w : Fin 3 → ℝ, (p.evaluate.run t).1 = ofVector v ∧ (a.evaluate.run t).1 = ofVector w ∧
      (∃ r, (((p.rotate a).run L.next).1.evaluate.run t).1 = ofVector r ∧
        r ⬝ᵥ r = v ⬝ᵥ v ∧ r ⬝ᵥ w = v ⬝ᵥ w) ∧
      (((rotateBack a p).run L.next).1.evaluate.run t).1 = ofVector v ∧
      ∀ x y : ℝ, (((rotateBy (real x) a p >>= rotateBy (real y) a).run L.next).1.evaluate.run t).1 =
        (((rotateBy (real (x + y)) a p).run L.next).1.evaluate.run t).1 := by
  obtain ⟨v, hv⟩ := exists_denotes ht hp
  obtain ⟨w, hw⟩ := exists_denotes ht ha
  have hturned := rotate_denotes hv hw
  refine ⟨v, w, hv.evaluate ht, hw.evaluate ht, ?_, ?_, ?_⟩
  · exact ⟨turned w v, evaluate_of_builds ht hturned, turned_dot_self w v, turned_dot w v⟩
  · exact evaluate_of_builds ht (rotateBack_denotes hw hv)
  · intro x y
    have htwice : Builds (rotateBy (real x) a p >>= rotateBy (real y) a) L
        (Denotes S t.read (turned (y • w) (turned (x • w) v))) :=
      .bind (rotateBy_denotes x hw hv) fun L₁ q hL₁ hq => rotateBy_denotes y (hw.mono hL₁) hq
    rw [evaluate_of_builds ht htwice, evaluate_of_builds ht (rotateBy_denotes (x + y) hw hv),
      turned_turned]

/-- A point with a variable coordinate, turned about a variable multiple of the third axis. -/
theorem rotate_evaluation_of_variables :
    let x : Formula PartialReal := node 2 (.var "x")
    let y : Formula PartialReal := node 3 (.var "y")
    let p : Point3 (Formula PartialReal) := ⟨x, one, zero⟩
    let a : Point3 (Formula PartialReal) := ⟨zero, zero, y⟩
    let t : Store PartialReal := (Store.empty.write 2 (real 2)).write 3 (real 1)
    ∃ v w : Fin 3 → ℝ, (p.evaluate.run t).1 = ofVector v ∧ (a.evaluate.run t).1 = ofVector w ∧
      (∃ r, (((p.rotate a).run 4).1.evaluate.run t).1 = ofVector r ∧
        r ⬝ᵥ r = v ⬝ᵥ v ∧ r ⬝ᵥ w = v ⬝ᵥ w) ∧
      (((rotateBack a p).run 4).1.evaluate.run t).1 = ofVector v ∧
      ∀ b c : ℝ, (((rotateBy (real b) a p >>= rotateBy (real c) a).run 4).1.evaluate.run t).1 =
        (((rotateBy (real (b + c)) a p).run 4).1.evaluate.run t).1 := by
  intro x y p a t
  have hread : t.read 2 = real 2 ∧ t.read 3 = real 1 := by
    simp [t, Store.read_write, Valuation.set]
  obtain ⟨hx, hy⟩ := evaluable_variables "x" "y" hread.1 hread.2
  have hnext : (Ledger.ofNodes [x, y]).next = 4 := rfl
  rw [← hnext]
  refine rotate_evaluation _ Set.univ t (.write (.write .empty 2 _) 3 _) p a ?_ ?_
  · simpa [p, toList] using ⟨hx, one_evaluable t, zero_evaluable t⟩
  · simpa [a, toList] using ⟨zero_evaluable t, hy⟩

end

/-! ## A quarter turn -/

variable {e f g z k : Formula PartialReal} {id : NodeId} {x : ℝ} {n : Point3 (Formula PartialReal)}

theorem length_number (hz : z.IsNumber 0) (hk : k.IsNumber x) :
    Yields (length ⟨z, k, z⟩) (IsNumber |x|) := by
  refine build_number trivial (by simp) ?_ ?_
  · simp [Shape.children, toList, hz.isConstant, hk.isConstant]
  · have hvalues : values (fun _ => undefined) [z, k, z] = [0, x, 0].map real := by
      simp [values_eq_map, hz.value_eq, hk.value_eq]
    have hamount : AssocOp.hypot.amount [0, x, 0] = |x| := by
      rw [AssocOp.amount, PartialReal.length]
      simp [Real.sqrt_mul_self_eq_abs]
    rw [toList, value, hvalues, AssocOp.apply_map_real, hamount]

/-- The normal of a vector along the second axis. -/
theorem normal_number (hz : z.IsNumber 0) (hk : k.IsNumber x) (hx : 0 < x) :
    Yields (normal ⟨z, k, z⟩) fun n => n.x.IsNumber 0 ∧ n.y.IsNumber 1 ∧ n.z.IsNumber 0 := by
  have hunit : Scalar.safeDiv (real x) (real |x|) = real 1 := by
    rw [safeDiv_real, abs_of_pos hx, div_self hx.ne']
  refine .bind (length_number hz hk) fun size hsize => ?_
  refine .bind (divide_zero hz) fun nx hx => ?_
  refine .bind (binary_number .divide hk hsize hunit) fun ny hy => ?_
  exact .bind (divide_zero hz) fun nz hz => .pure ⟨hx, hy, hz⟩

section Quarter

variable (he : e.Whole) (hf : f.Whole) (hz : z.IsNumber 0) (hx : n.x.IsNumber 0)
  (hy : n.y.IsNumber 1) (hn : n.z.IsNumber 0)

include he hf hz hy hn

theorem dot_second : Yields (dot ⟨z, e, f⟩ n) (· = e) := by
  have hzip : Yields (zipM multiply ⟨z, e, f⟩ n) fun p =>
      p.x.IsNumber 0 ∧ p.y = e ∧ p.z.IsNumber 0 := by
    refine .bind (zero_multiply hz) fun a ha => ?_
    refine .bind (.of_eq (multiply_one he.not_constant he.not_product hy)) fun b hb => ?_
    refine .bind (multiply_zero (hf.finiteConstant) hn) fun c hc => ?_
    exact .pure ⟨ha, hb, hc⟩
  refine .bind hzip fun p hp => ?_
  obtain ⟨ha, hb, hc⟩ := hp
  rw [toList, hb]
  exact .of_eq (assoc_beside_neutral (by simp) he.not_constant he.not_sum [p.x] [p.z] (by
    simpa using And.intro ha.neutral_add hc.neutral_add))

include hx

/-- What a point has along the second axis, and across it. -/
theorem project_second : Yields (project ⟨z, e, f⟩ n) fun parts =>
    (parts.vertical.x.IsNumber 0 ∧ parts.vertical.y = e ∧ parts.vertical.z.IsNumber 0) ∧
      parts.horizontal.x.IsNumber 0 ∧ parts.horizontal.y.FiniteConstant ∧
        parts.horizontal.z = f := by
  have he' := he.finiteConstant
  have hscale : Yields (scale e n) fun v => v.x.IsNumber 0 ∧ v.y = e ∧ v.z.IsNumber 0 := by
    refine .bind (multiply_zero he' hx) fun a ha => ?_
    refine .bind (.of_eq (multiply_one he.not_constant he.not_product hy)) fun b hb => ?_
    exact .bind (multiply_zero he' hn) fun c hc => .pure ⟨ha, hb, hc⟩
  refine .bind (dot_second he hf hz hy hn) fun d hd => ?_
  subst hd
  refine .bind hscale fun v hv => ?_
  obtain ⟨hvx, hvy, hvz⟩ := hv
  have hself : Yields (subtract d v.y) FiniteConstant := by
    have hd := he.not_constant
    rw [subtract, binary, build_of_not_isConstant (c := d) _ (by simp [Shape.children]) hd,
      binaryRule, hvy, if_neg (by simp [isConstantValue_eq_false hd]),
      if_neg (by simp [isConstantValue_eq_false hd])]
    exact .new fun id => finiteConstant_of_not_isConstant rfl
  have hsub : Yields (sub ⟨z, d, f⟩ v) fun h =>
      h.x.IsNumber 0 ∧ h.y.FiniteConstant ∧ h.z = f := by
    refine .bind (subtract_zero_zero hz hvx) fun a ha => ?_
    refine .bind hself fun b hb => ?_
    exact .bind (.of_eq (subtract_zero hf.not_constant hvz)) fun c hc => .pure ⟨ha, hb, hc⟩
  exact .bind hsub fun h hh => .pure ⟨⟨hvx, hvy, hvz⟩, hh⟩

theorem cross_second (hg : negate f = pure g) : Yields (cross ⟨z, e, f⟩ n) fun c =>
    c.x = g ∧ c.y.IsNumber 0 ∧ c.z.IsNumber 0 := by
  have he' := he.finiteConstant
  have hf' := hf.finiteConstant
  have hx' : Yields (minor e n.z f n.y) (· = g) := by
    refine .bind (multiply_zero he' hn) fun a ha => ?_
    refine .bind (.of_eq (multiply_one hf.not_constant hf.not_product hy)) fun b hb => ?_
    subst hb
    exact .of_eq ((zero_subtract hf.not_constant ha).trans hg)
  have hy' : Yields (minor f n.x z n.z) (IsNumber 0) := by
    refine .bind (multiply_zero hf' hx) fun a ha => ?_
    exact .bind (zero_multiply hz) fun b hb => subtract_zero_zero ha hb
  have hz' : Yields (minor z n.y e n.x) (IsNumber 0) := by
    refine .bind (zero_multiply hz) fun a ha => ?_
    exact .bind (multiply_zero he' hx) fun b hb => subtract_zero_zero ha hb
  refine .bind hx' fun a ha => .bind hy' fun b hb => .bind hz' fun c hc => ?_
  exact .pure ⟨ha, hb, hc⟩

end Quarter

/-- A quarter turn about the second axis. -/
theorem rotate_quarter (he : e.Whole) (hf : f.Whole) (hg : g.Whole) (hneg : negate f = pure g)
    (hz : z.IsNumber 0) (hk : k.IsNumber (Real.pi / 2)) :
    Yields (rotate ⟨z, e, f⟩ ⟨z, k, z⟩) fun q => q.x = g ∧ q.y = e ∧ q.z.IsNumber 0 := by
  have hpi : 0 < Real.pi / 2 := Real.pi_div_two_pos
  have hsize := length_number hz hk
  rw [abs_of_pos hpi] at hsize
  refine .bind (normal_number hz hk hpi) fun n hn => ?_
  obtain ⟨hnx, hny, hnz⟩ := hn
  refine .bind (project_second he hf hz hnx hny hnz) fun parts hparts => ?_
  obtain ⟨⟨hvx, hvy, hvz⟩, hhx, hhy, hhz⟩ := hparts
  refine .bind hsize fun size hsize => ?_
  refine .bind (unary_number .cos hsize (congrArg real Real.cos_pi_div_two)) fun cos hcos => ?_
  have hacross : Yields (parts.horizontal.mul cos) fun q =>
      q.x.IsNumber 0 ∧ q.y.IsNumber 0 ∧ q.z.IsNumber 0 := by
    refine .bind (zero_multiply hhx) fun a ha => .bind (multiply_zero hhy hcos) fun b hb => ?_
    have hf' := hf.finiteConstant
    exact .bind (multiply_zero (hhz ▸ hf') hcos) fun c hc => .pure ⟨ha, hb, hc⟩
  refine .bind hacross fun across hacross => ?_
  obtain ⟨hax, hay, haz⟩ := hacross
  have hstill : Yields (parts.vertical.add across) fun q =>
      q.x.IsNumber 0 ∧ q.y = e ∧ q.z.IsNumber 0 := by
    refine .bind (sum_of_zero (by simp [hvx, hax])) fun a ha => ?_
    refine .bind (.of_eq (hvy ▸ (add_zero he.not_constant he.not_sum hay).1)) fun b hb => ?_
    exact .bind (sum_of_zero (by simp [hvz, haz])) fun c hc => .pure ⟨ha, hb.trans hvy, hc⟩
  refine .bind hstill fun still hstill => ?_
  obtain ⟨hsx, hsy, hsz⟩ := hstill
  refine .bind (cross_second he hf hz hnx hny hnz hneg) fun product hproduct => ?_
  obtain ⟨hpx, hpy, hpz⟩ := hproduct
  refine .bind (unary_number .sin hsize (congrArg real Real.sin_pi_div_two)) fun sin hsin => ?_
  have hturned : Yields (product.mul sin) fun q =>
      q.x = g ∧ q.y.IsNumber 0 ∧ q.z.IsNumber 0 := by
    refine .bind (.of_eq (hpx ▸ multiply_one hg.not_constant hg.not_product hsin)) fun a ha => ?_
    refine .bind (zero_multiply hpy) fun b hb => .bind (zero_multiply hpz) fun c hc => ?_
    exact .pure ⟨ha.trans hpx, hb, hc⟩
  refine .bind hturned fun turned hturned => ?_
  obtain ⟨htx, hty, htz⟩ := hturned
  refine .bind (.of_eq (htx ▸ (add_zero hg.not_constant hg.not_sum hsx).2)) fun a ha => ?_
  refine .bind (.of_eq (hsy ▸ (add_zero he.not_constant he.not_sum hty).1)) fun b hb => ?_
  exact .bind (sum_of_zero (by simp [hsz, htz])) fun c hc =>
    .pure ⟨ha.trans htx, hb.trans hsy, hc⟩

/-! ## Where the coordinates are not scoped alike -/

/-- The coordinate along the axis finds the root of `1 - t` and the last one reads `t`.  The point
evaluates to `(0, 1, -1)`, but a quarter turn brings the last coordinate to the front, where `t` is
still three. -/
theorem rotate_ahead_of_root :
    let minusT : Formula PartialReal := node 6 (.unary .negate UnitRoot.t)
    let quarter : Formula PartialReal := node 7 (.const (real (Real.pi / 2)))
    let p : Point3 (Formula PartialReal) := ⟨zero, UnitRoot.root, minusT⟩
    let a : Point3 (Formula PartialReal) := ⟨zero, quarter, zero⟩
    let s : Store PartialReal := Store.empty.write 2 (real 3)
    (∀ e ∈ p.toList ++ a.toList, e.EvaluatesThroughout s) ∧
      (p.evaluate.run s).1 = ofVector ![0, 1, -1] ∧
      (((p.rotate a).run 8).1.evaluate.run s).1 = ofVector ![3, 1, 0] ∧
      (![3, 1, 0] ⬝ᵥ ![3, 1, 0] : ℝ) ≠ ![0, 1, -1] ⬝ᵥ ![0, 1, -1] := by
  intro minusT quarter p a s
  let L : Ledger PartialReal :=
    (UnitRoot.ledger.add minusT.shape).add (.const (real (Real.pi / 2)))
  have hL : UnitRoot.ledger.Extends L := (Ledger.extends_add _ _).trans (Ledger.extends_add _ _)
  have hs : s.Reachable := .write .empty 2 _
  have hread : s.read 2 = real 3 := by simp [s, Store.read_write, Valuation.set]
  have hroot : UnitRoot.root.ListedIn L.directory := (UnitRoot.root_known.mono hL).listed
  have hadded : minusT.KnownTo (UnitRoot.ledger.add minusT.shape) :=
    add_known (by simpa [minusT, shape, Shape.refs, Shape.children] using UnitRoot.t_known)
  have hminusT : minusT.KnownTo L := hadded.mono (Ledger.extends_add _ _)
  have hquarter : quarter.KnownTo L := add_known (by simp [Shape.refs, Shape.children])
  obtain ⟨hone, hserves⟩ := UnitRoot.after_root hroot hs.issued
  have hzero : (zero : Formula PartialReal).IsNumber 0 := rfl
  have hturned : Yields (p.rotate a) fun q =>
      q.x = UnitRoot.t ∧ q.y = UnitRoot.root ∧ q.z.IsNumber 0 :=
    rotate_quarter ⟨rfl, rfl, rfl⟩ ⟨rfl, rfl, rfl⟩ ⟨rfl, rfl, rfl⟩ rfl rfl rfl
  refine ⟨?_, ?_, ?_, ?_⟩
  · have hroot := UnitRoot.root_evaluable hs (Set.notMem_empty 2) hread
    have ht : UnitRoot.t.Evaluable UnitRoot.ledger Set.univ s :=
      UnitRoot.t_evaluable (Set.mem_univ 2) hread
    have hminusT : minusT.Evaluable L Set.univ s := by
      refine evaluable_node hs hminusT ?_ ?_ ?_
      · simpa [minusT, scoped_iff, Shape.passParts, Shape.children] using ht.inScope
      · simp [minusT, UnitRoot.t, value, UnaryOp.apply, hread]
      · simpa [minusT, Formula.children, Shape.children] using ht.defined
    have hquarter : quarter.Evaluable L Set.univ s := evaluable_const hquarter
    have hzero : (zero : Formula PartialReal).Evaluable L Set.univ s := zero_evaluable s
    simpa [p, a, toList] using
      ⟨hzero.defined, hroot.defined, hminusT.defined, hzero.defined, hquarter.defined,
        hzero.defined⟩
  · have hfirst := hzero.evaluateIn_run (s.generation + 1) (Evaluation.nextGeneration.run s).2
    refine (evaluate_run hfirst (Prod.ext hone rfl) (c := real (-1)) ?_).trans ?_
    · have hscoped : minusT.Scoped ({2} : Set NodeId) := by
        simp [minusT, UnitRoot.t, scoped_iff, Shape.passParts, Shape.children]
      rw [(Formula.evaluateIn_delivers hscoped hminusT.listed _ _ _ hserves).1]
      simp [minusT, UnitRoot.t, value, UnaryOp.apply]
    · simp [ofVector]
  · obtain ⟨hqx, hqy, hqz⟩ := hturned 8
    generalize ((p.rotate a).run 8).1 = q at hqx hqy hqz
    obtain ⟨qx, qy, qz⟩ := q
    obtain rfl : qx = UnitRoot.t := hqx
    obtain rfl : qy = UnitRoot.root := hqy
    have ht := UnitRoot.t_run (s := (Evaluation.nextGeneration.run s).2) (s.generation + 1) hread
    refine (evaluate_run ht (Prod.ext hone rfl)
      (congrArg Prod.fst (hqz.evaluateIn_run _ _))).trans ?_
    simp [ofVector]
  · simp
    norm_num

end Point3

end FormulaGraph
