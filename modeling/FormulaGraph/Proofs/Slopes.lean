import FormulaGraph.Proofs.RegularPoints

/-!
# Slopes of formulas

While one variable moves and the others stay, the value of a formula is a function
of a real number.  A formula is **regular** at a valuation when it is made, at every
node that its value needs, by an operation at a regular point.  Then its value is
defined around the present value of the variable and has a slope there
(`Regular.hasSlope`): from the slopes of the children the operation makes that of
the node, and the branch that a conditional selects stays selected.
-/

namespace FormulaGraph

open PartialReal Filter Topology

namespace Formula

/-- The node is made by an operation at a regular point, or it is a number. -/
def RegularAt (ρ : Valuation PartialReal) :
    NodeId → Shape PartialReal (Formula PartialReal) → Prop
  | _, .const v => v ≠ undefined
  | id, .var _ => ρ id ≠ undefined
  | _, .unary op a => op.RegularAt (realValue ρ a)
  | _, .binary op a b => op.RegularAt (realValue ρ a) (realValue ρ b)
  | _, .assoc op args => op.RegularAt (args.map (realValue ρ))
  | _, .conditional _ c _ _ => realValue ρ c ≠ 0
  | _, .tabulated .. | _, .solver _ => False

/-- Every node of which the value is made is at a regular point. -/
inductive Regular (ρ : Valuation PartialReal) : Formula PartialReal → Prop
  | node {id : NodeId} {shape : Shape PartialReal (Formula PartialReal)}
      (here : RegularAt ρ id shape) (needed : ∀ c ∈ needed ρ shape, Regular ρ c) :
      Regular ρ (node id shape)

/-- Around `x₀` the formula has a value for each value of the variable `x`, and
there it has the slope `v`. -/
structure HasSlope (ρ : Valuation PartialReal) (x : NodeId) (x₀ : ℝ) (e : Formula PartialReal)
    (v : ℝ) : Prop where
  defined : ∀ᶠ t in 𝓝 x₀, value (ρ.set x (real t)) e ≠ undefined
  deriv : HasDerivAt (fun t => realValue (ρ.set x (real t)) e) v x₀

variable {ρ : Valuation PartialReal} {x : NodeId} {x₀ : ℝ}

/-- A formula that is regular is so at its root. -/
theorem Regular.here {e : Formula PartialReal} (he : e.Regular ρ) :
    RegularAt ρ e.id e.shape := by
  cases he with
  | node here _ => exact here

/-- A regular formula is regular in every part its value needs. -/
theorem Regular.needed {c e : Formula PartialReal} (he : e.Regular ρ)
    (hc : c ∈ needed ρ e.shape) : c.Regular ρ := by
  cases he with
  | node _ needed => exact needed c hc

/-- A regular formula is defined. -/
theorem Regular.defined {e : Formula PartialReal} (he : e.Regular ρ) : e.Defined ρ := by
  induction he with
  | @node id shape here _ ih =>
      refine .node ?_ fun c hc => ih c (mem_needed_of_mem_neededInPass hc)
      cases shape with
      | const v => rwa [value]
      | var name => rwa [value]
      | unary op a =>
          have ha := ih a (by simp [Formula.needed, Shape.children])
          rw [value, ha.value_eq, op.apply_real here]
          simp
      | binary op a b =>
          have ha := ih a (by simp [Formula.needed, Shape.children])
          have hb := ih b (by simp [Formula.needed, Shape.children])
          rw [value, ha.value_eq, hb.value_eq, op.apply_real]
          simp
      | assoc op args =>
          have hargs : ∀ e ∈ args, e.Defined ρ := ih
          rw [value, apply_values op hargs]
          simp
      | conditional op c a b =>
          have hselected := ih (if op.selectsFirst (value ρ c) then a else b)
            (by simp [Formula.needed])
          rw [value]
          split at hselected
          · next h => rw [if_pos h]; exact hselected.here
          · next h => rw [if_neg h]; exact hselected.here
      | tabulated mark t a => exact here.elim
      | solver s => exact here.elim

/-! ## The slope of each kind of node -/

/-- Of related lists, every element of the first has a partner. -/
theorem exists_of_forall₂_left {β γ : Type} {R : β → γ → Prop} {bs : List β} {cs : List γ}
    (h : List.Forall₂ R bs cs) {b : β} (hb : b ∈ bs) : ∃ c, R b c := by
  induction h with
  | nil => cases hb
  | cons hhead _ ih =>
      rcases List.mem_cons.mp hb with rfl | hb
      · exact ⟨_, hhead⟩
      · exact ih hb

/-- Setting a variable to what it holds changes nothing. -/
theorem set_self (hx : ρ x = real x₀) : ρ.set x (real x₀) = ρ := by
  funext w
  rw [Valuation.set]
  split
  · next h => rw [h, hx]
  · rfl

/-- A formula whose values near the point are those of a differentiable function has its slope.
-/
theorem HasSlope.of_eventually {e : Formula PartialReal} {g : ℝ → ℝ} {v : ℝ}
    (hvalue : ∀ᶠ t in 𝓝 x₀, value (ρ.set x (real t)) e = real (g t))
    (hg : HasDerivAt g v x₀) : HasSlope ρ x x₀ e v := by
  refine ⟨?_, ?_⟩
  · filter_upwards [hvalue] with t ht
    rw [ht]
    simp
  · refine hg.congr_of_eventuallyEq ?_
    filter_upwards [hvalue] with t ht
    exact realValue_eq ht

/-- Constants have slope zero. -/
theorem hasSlope_const {id : NodeId} {v : PartialReal} (hv : v ≠ undefined) :
    HasSlope ρ x x₀ (node id (.const v)) 0 := by
  obtain ⟨y, rfl⟩ := exists_real hv
  exact .of_eventually (Eventually.of_forall fun _ => by rw [value]) (hasDerivAt_const x₀ y)

/-- The variable itself has slope one. -/
theorem hasSlope_var_self {name : String} : HasSlope ρ x x₀ (node x (.var name)) 1 := by
  refine .of_eventually (Eventually.of_forall fun t => ?_) (hasDerivAt_id x₀)
  rw [value, Valuation.set, if_pos rfl]
  rfl

/-- Other variables have slope zero. -/
theorem hasSlope_var_other {id : NodeId} {name : String} (hid : id ≠ x)
    (hv : ρ id ≠ undefined) : HasSlope ρ x x₀ (node id (.var name)) 0 := by
  obtain ⟨y, hy⟩ := exists_real hv
  refine .of_eventually (Eventually.of_forall fun t => ?_) (hasDerivAt_const x₀ y)
  rw [value, Valuation.set, if_neg hid, hy]

section Operations

variable (hx : ρ x = real x₀)

include hx

/-- The chain rule for unary functions. -/
theorem hasSlope_unary {id : NodeId} {op : UnaryOp} {a : Formula PartialReal} {d : ℝ}
    (h : op.RegularAt (realValue ρ a)) (ha : HasSlope ρ x x₀ a d) :
    HasSlope ρ x x₀ (node id (.unary op a)) (op.slope (realValue ρ a) d) := by
  rw [← set_self hx] at h
  have hslope := UnaryOp.hasDerivAt_onReals h ha.deriv
  rw [set_self hx] at hslope
  refine .of_eventually ?_ hslope
  filter_upwards [ha.defined, h.eventually ha.deriv.continuousAt] with t hdefined hregular
  rw [value, value_eq_real hdefined, op.apply_real hregular]

/-- The rules for differences, quotients, angles and extremes. -/
theorem hasSlope_binary {id : NodeId} {op : BinaryOp} {a b : Formula PartialReal} {da db : ℝ}
    (h : op.RegularAt (realValue ρ a) (realValue ρ b)) (ha : HasSlope ρ x x₀ a da)
    (hb : HasSlope ρ x x₀ b db) :
    HasSlope ρ x x₀ (node id (.binary op a b))
      (op.slope (realValue ρ a) (realValue ρ b) da db) := by
  rw [← set_self hx] at h
  have hslope := BinaryOp.hasDerivAt_onReals h ha.deriv hb.deriv
  rw [set_self hx] at hslope
  refine .of_eventually ?_ hslope
  filter_upwards [ha.defined, hb.defined] with t hda hdb
  rw [value, value_eq_real hda, value_eq_real hdb, op.apply_real]

/-- The rules for sums, products and lengths, with any number of arguments. -/
theorem hasSlope_assoc {id : NodeId} {op : AssocOp} {args : List (Formula PartialReal)}
    {ds : List ℝ} (h : op.RegularAt (args.map (realValue ρ)))
    (hargs : List.Forall₂ (HasSlope ρ x x₀) args ds) :
    HasSlope ρ x x₀ (node id (.assoc op args)) (op.slope (args.map (realValue ρ)) ds) := by
  rw [← set_self hx] at h
  have hslope := AssocOp.hasDerivAt_amount h (hargs.imp fun _ _ ha => ha.deriv)
  rw [set_self hx] at hslope
  refine .of_eventually ?_ hslope
  have hdefined : ∀ᶠ t in 𝓝 x₀, ∀ a ∈ args, value (ρ.set x (real t)) a ≠ undefined := by
    refine (eventually_all_finite (List.finite_toSet args)).mpr ?_
    intro a ha
    obtain ⟨d, hd⟩ := exists_of_forall₂_left hargs ha
    exact hd.defined
  filter_upwards [hdefined] with t ht
  rw [value, values_eq_map_realValue ht, op.apply_map_real]

/-- The branch selected stays selected while the condition stays on its side of
zero. -/
theorem hasSlope_conditional {id : NodeId} {op : ConditionalOp} {c a b : Formula PartialReal}
    {dc d : ℝ} (h : realValue ρ c ≠ 0) (hc : HasSlope ρ x x₀ c dc)
    (hselected : HasSlope ρ x x₀ (if op.selectsFirst (value ρ c) then a else b) d) :
    HasSlope ρ x x₀ (node id (.conditional op c a b)) d := by
  have hself : realValue (ρ.set x (real x₀)) c = realValue ρ c := by rw [set_self hx]
  have hpositive : ∀ᶠ t in 𝓝 x₀, 0 < realValue (ρ.set x (real t)) c * realValue ρ c := by
    have hcontinuous := hc.deriv.continuousAt.mul_const (realValue ρ c)
    refine hcontinuous.eventually (lt_mem_nhds ?_)
    simpa only [hself] using mul_self_pos.mpr h
  have hcondition : value ρ c = real (realValue ρ c) := by
    have hvalue := hc.defined.self_of_nhds
    rw [set_self hx] at hvalue
    exact value_eq_real hvalue
  refine .of_eventually ?_ hselected.deriv
  filter_upwards [hc.defined, hselected.defined, hpositive] with t hdc hd ht
  rw [← value_eq_real hd, value, value_eq_real hdc, op.selectsFirst_of_mul_pos ht, hcondition]
  split <;> rfl

end Operations

/-! ## Regular formulas have slopes -/

/-- The slope of the formula at `x₀`. -/
noncomputable def slope (ρ : Valuation PartialReal) (x : NodeId) (x₀ : ℝ)
    (e : Formula PartialReal) : ℝ :=
  deriv (fun t => realValue (ρ.set x (real t)) e) x₀

/-- The slope is what the formula has for a slope. -/
theorem HasSlope.slope_eq {e : Formula PartialReal} {v : ℝ} (h : HasSlope ρ x x₀ e v) :
    slope ρ x x₀ e = v :=
  h.deriv.deriv

/-- A formula that has any slope has the one that is chosen. -/
theorem HasSlope.hasSlope_slope {e : Formula PartialReal} {v : ℝ} (h : HasSlope ρ x x₀ e v) :
    HasSlope ρ x x₀ e (slope ρ x x₀ e) := by
  rwa [h.slope_eq]

/-- **Regular formulas have slopes.** -/
theorem Regular.hasSlope (hx : ρ x = real x₀) {e : Formula PartialReal} (he : e.Regular ρ) :
    HasSlope ρ x x₀ e (slope ρ x x₀ e) := by
  induction he with
  | @node id shape here _ ih =>
      cases shape with
      | const v => exact (hasSlope_const here).hasSlope_slope
      | var name =>
          by_cases hid : id = x
          · subst hid
            exact hasSlope_var_self.hasSlope_slope
          · exact (hasSlope_var_other hid here).hasSlope_slope
      | unary op a =>
          have ha := ih a (by simp [Formula.needed, Shape.children])
          exact (hasSlope_unary hx here ha).hasSlope_slope
      | binary op a b =>
          have ha := ih a (by simp [Formula.needed, Shape.children])
          have hb := ih b (by simp [Formula.needed, Shape.children])
          exact (hasSlope_binary hx here ha hb).hasSlope_slope
      | assoc op args =>
          have hargs : List.Forall₂ (HasSlope ρ x x₀) args (args.map (slope ρ x x₀)) := by
            rw [List.forall₂_map_right_iff]
            exact List.forall₂_same.mpr ih
          exact (hasSlope_assoc hx here hargs).hasSlope_slope
      | conditional op c a b =>
          have hc := ih c (by simp [Formula.needed])
          have hselected := ih (if op.selectsFirst (value ρ c) then a else b)
            (by simp [Formula.needed])
          exact (hasSlope_conditional hx here hc hselected).hasSlope_slope
      | tabulated mark t a => exact here.elim
      | solver s => exact here.elim

end Formula

end FormulaGraph
