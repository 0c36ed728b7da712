import FormulaGraph.Proofs.PartialReal
import FormulaGraph.Proofs.Ledger
import FormulaGraph.Formula.Construction

/-!
# Where a formula is defined

The value of a conditional is made of its condition and of the branch selected,
that of any other node of all its children.  A formula is **defined** at a
valuation when no value that its own is made of is undefined, its own included.
The body of a solver does not count here: it has no value at the valuation itself,
only at those of the trials.

Over the real numbers with one undefined value, defined formulas are what the
rules of construction are about: `log (e ^ x)` is `x` only if `x` is something, and
a product with a zero is zero only if the other factors are.  So a rule is read as
follows: over defined arguments it gives a formula that *means* the value of the
operation, which is a formula with that value, and a defined one if the value is.
-/

namespace FormulaGraph

namespace Formula

/-! ## Values that do not depend on the variables -/

section Constants

variable {α : Type} [Scalar α]

omit [Scalar α] in
/-- A formula with a constant value is a constant node. -/
theorem eq_const_of_asConstant {e : Formula α} {v : α} (h : e.asConstant = some v) :
    e = node e.id (.const v) := by
  cases e with
  | node id shape => cases shape <;> simp_all [asConstant]

omit [Scalar α] in
/-- A formula that counts as constant is a constant node. -/
theorem eq_const_of_isConstant {e : Formula α} (h : e.isConstant = true) :
    ∃ v, e = node e.id (.const v) := by
  obtain ⟨v, hv⟩ := Option.isSome_iff_exists.mp h
  exact ⟨v, eq_const_of_asConstant hv⟩

/-- The value of a constant is the same at every point. -/
theorem value_of_asConstant {e : Formula α} {v : α} (h : e.asConstant = some v)
    (ρ : Valuation α) : value ρ e = v := by
  rw [eq_const_of_asConstant h, value]

/-- A constant compares with a number as its value does, at every point. -/
theorem value_of_isConstantValue {e : Formula α} {v : α} (h : e.isConstantValue v = true)
    (ρ : Valuation α) : (value ρ e == v) = true := by
  rw [isConstantValue] at h
  cases hconst : e.asConstant with
  | none => simp [hconst] at h
  | some w =>
      rw [value_of_asConstant hconst]
      simpa [hconst] using h

/-- Constants do not depend on the point. -/
theorem value_eq_of_isConstant {e : Formula α} (h : e.isConstant = true)
    (ρ ρ' : Valuation α) : value ρ e = value ρ' e := by
  obtain ⟨v, hv⟩ := eq_const_of_isConstant h
  rw [hv, value, value]

/-- The number of a node other than a variable does not count for its value. -/
theorem value_node {shape : Shape α (Formula α)} (h : ∀ name, shape ≠ .var name)
    (ρ : Valuation α) (id id' : NodeId) :
    value ρ (node id shape) = value ρ (node id' shape) := by
  cases shape with
  | var name => exact absurd rfl (h name)
  | solver s =>
      obtain ⟨body, bound, low, high, precision, guard⟩ := s
      simp only [value]
  | _ => simp only [value]

/-- What constants fold to is the value of the operation on them. -/
theorem value_of_foldConstants {shape : Shape α (Formula α)} {v : α}
    (h : foldConstants shape = some v) (ρ : Valuation α) (id : NodeId) :
    value ρ (node id shape) = v := by
  let ρ₀ : Valuation α := fun _ => Scalar.nan
  have hfold : ∀ {b : Bool} {w : α}, (if b then some w else none) = some v →
      b = true ∧ w = v := by
    intro b w hb
    cases b <;> simp_all
  cases shape with
  | unary op a =>
      obtain ⟨hconst, hv⟩ := hfold h
      have ha : a.isConstant = true := by simpa [Shape.children] using hconst
      rw [← hv, value, value, value_eq_of_isConstant ha]
  | binary op a b =>
      obtain ⟨hconst, hv⟩ := hfold h
      have hab : a.isConstant = true ∧ b.isConstant = true := by
        simpa [Shape.children] using hconst
      rw [← hv, value, value, value_eq_of_isConstant hab.1 ρ ρ₀,
        value_eq_of_isConstant hab.2 ρ ρ₀]
  | assoc op args =>
      obtain ⟨hconst, hv⟩ := hfold h
      have hargs : ∀ e ∈ args, value ρ e = value ρ₀ e := fun e he =>
        value_eq_of_isConstant (List.all_eq_true.mp hconst e he) ρ ρ₀
      rw [← hv, value, value, values_eq_map, values_eq_map, List.map_congr_left hargs]
  | conditional op c a b =>
      obtain ⟨hconst, hv⟩ := hfold h
      have habc : c.isConstant = true ∧ a.isConstant = true ∧ b.isConstant = true := by
        simpa [Shape.children] using hconst
      rw [← hv, value, value, value_eq_of_isConstant habc.1 ρ ρ₀,
        value_eq_of_isConstant habc.2.1 ρ ρ₀, value_eq_of_isConstant habc.2.2 ρ ρ₀]
  | tabulated mark t a =>
      obtain ⟨hconst, hv⟩ := hfold h
      have ha : a.isConstant = true := by simpa [Shape.children] using hconst
      rw [← hv, value, value, value_eq_of_isConstant ha]
  | const w => cases h
  | var name => cases h
  | solver s => cases h

end Constants

/-! ## Defined formulas -/

open PartialReal

/-- The formulas of which the value of a node of this shape is made. -/
noncomputable def needed (ρ : Valuation PartialReal) :
    Shape PartialReal (Formula PartialReal) → List (Formula PartialReal)
  | .conditional op c a b => [c, if op.selectsFirst (value ρ c) then a else b]
  | shape => shape.children

/-- The formulas needed at the valuation itself: the body of a solver is not. -/
noncomputable def neededInPass (ρ : Valuation PartialReal) :
    Shape PartialReal (Formula PartialReal) → List (Formula PartialReal)
  | .solver s => [s.low, s.high, s.precision]
  | shape => needed ρ shape

/-- All values of which that of the formula is made are defined. -/
inductive Defined (ρ : Valuation PartialReal) : Formula PartialReal → Prop
  | node {id : NodeId} {shape : Shape PartialReal (Formula PartialReal)}
      (here : value ρ (node id shape) ≠ undefined)
      (needed : ∀ c ∈ neededInPass ρ shape, Defined ρ c) : Defined ρ (node id shape)

variable {ρ : Valuation PartialReal}

/-- A formula that is defined has a value. -/
theorem Defined.here {e : Formula PartialReal} (he : e.Defined ρ) :
    value ρ e ≠ undefined := by
  cases he with
  | node here _ => exact here

/-- What a pass needs of it is defined too. -/
theorem Defined.needed {c e : Formula PartialReal} (he : e.Defined ρ)
    (hc : c ∈ neededInPass ρ e.shape) : c.Defined ρ := by
  cases he with
  | node _ needed => exact needed c hc

/-- Only children are needed. -/
theorem mem_children_of_mem_needed {shape : Shape PartialReal (Formula PartialReal)}
    {c : Formula PartialReal} (hc : c ∈ needed ρ shape) : c ∈ shape.children := by
  cases shape with
  | conditional op c a b =>
      rcases List.mem_cons.mp hc with rfl | hc
      · simp [Shape.children]
      · rw [List.mem_singleton.mp hc]
        split <;> simp [Shape.children]
  | _ => exact hc

/-- A pass needs no more than the value does. -/
theorem mem_needed_of_mem_neededInPass {shape : Shape PartialReal (Formula PartialReal)}
    {c : Formula PartialReal} (hc : c ∈ neededInPass ρ shape) : c ∈ needed ρ shape := by
  cases shape with
  | solver s => exact List.mem_cons_of_mem _ hc
  | _ => exact hc

/-- A formula is defined as soon as nothing within it is undefined. -/
theorem defined_of_within {e : Formula PartialReal}
    (h : ∀ d, d.Within e → value ρ d ≠ undefined) : e.Defined ρ := by
  induction e using inductionOnRefs with
  | h id shape ih =>
      refine .node (h _ (.refl _)) ?_
      intro c hc
      have hchild := mem_children_of_mem_needed (mem_needed_of_mem_neededInPass hc)
      exact ih c (Shape.mem_refs_of_mem_children hchild) fun d hd => h d (.child hchild hd)

/-- The real value of a formula that is defined. -/
noncomputable def realValue (ρ : Valuation PartialReal) (e : Formula PartialReal) : ℝ :=
  (value ρ e).toReal

/-- The real value is read off the value. -/
theorem realValue_eq {e : Formula PartialReal} {x : ℝ} (h : value ρ e = real x) :
    realValue ρ e = x := by
  rw [realValue, h, toReal]

/-- Whatever is not undefined is its real value. -/
theorem value_eq_real {e : Formula PartialReal} (he : value ρ e ≠ undefined) :
    value ρ e = real (realValue ρ e) := by
  obtain ⟨x, hx⟩ := exists_real he
  rw [hx, realValue_eq hx]

/-- Where a formula is defined, its value is its real value. -/
theorem Defined.value_eq {e : Formula PartialReal} (he : e.Defined ρ) :
    value ρ e = real (realValue ρ e) :=
  value_eq_real he.here

/-- Several formulas at once: their values are their real values. -/
theorem values_eq_map_realValue {es : List (Formula PartialReal)}
    (hes : ∀ e ∈ es, value ρ e ≠ undefined) :
    values ρ es = (es.map (realValue ρ)).map real := by
  rw [values_eq_map, List.map_map]
  exact List.map_congr_left fun e he => value_eq_real (hes e he)

/-- The formula has the value `v` and is defined if `v` is. -/
structure Means (ρ : Valuation PartialReal) (v : PartialReal) (e : Formula PartialReal) :
    Prop where
  value_eq : value ρ e = v
  defined : v ≠ undefined → e.Defined ρ

/-- Where a formula is defined, it means its value. -/
theorem Defined.means {e : Formula PartialReal} (he : e.Defined ρ) : e.Means ρ (value ρ e) :=
  ⟨rfl, fun _ => he⟩

/-- A formula that means a real number is defined. -/
theorem Means.defined_of_real {e : Formula PartialReal} {x : ℝ} (he : e.Means ρ (real x)) :
    e.Defined ρ :=
  he.defined (by simp)

/-- A node other than a variable, over what it needs, means its value. -/
theorem node_means {id : NodeId} {shape : Shape PartialReal (Formula PartialReal)}
    (hshape : ∀ name, shape ≠ .var name) (hneeded : ∀ c ∈ neededInPass ρ shape, c.Defined ρ) :
    (node id shape).Means ρ (value ρ (node 0 shape)) := by
  have hvalue := value_node hshape ρ id 0
  exact ⟨hvalue, fun h => .node (by rwa [hvalue]) hneeded⟩

/-- A variable is defined where it holds a number. -/
theorem defined_var {id : NodeId} {name : String} (h : ρ id ≠ undefined) :
    (node id (.var name)).Defined ρ :=
  .node (by rwa [value]) (by simp [neededInPass, Formula.needed, Shape.children])

/-- A new node means what its operation makes of its children. -/
theorem new_means {shape : Shape PartialReal (Formula PartialReal)}
    (hshape : ∀ name, shape ≠ .var name) (hneeded : ∀ c ∈ neededInPass ρ shape, c.Defined ρ) :
    Yields (new shape) (Means ρ (value ρ (node 0 shape))) :=
  .new fun _ => node_means hshape hneeded

/-- A constant means its number. -/
theorem const_means (id : NodeId) (v : PartialReal) : (node id (.const v)).Means ρ v :=
  ⟨by rw [value], fun h => .node (by rwa [value])
    (by simp [neededInPass, Formula.needed, Shape.children])⟩

/-- The factory of constants keeps the number. -/
theorem constant_means (v : PartialReal) : Yields (constant v) (Means ρ v) :=
  .new fun id => const_means id v

theorem zero_means : (zero : Formula PartialReal).Means ρ (real 0) := const_means 0 _

theorem one_means : (one : Formula PartialReal).Means ρ (real 1) := const_means 1 _

/-- A constant folded, or what the rule says, or the node as it stands. -/
theorem build_means {shape : Shape PartialReal (Formula PartialReal)}
    {rule : Option (Fresh (Formula PartialReal))} (hshape : ∀ name, shape ≠ .var name)
    (hneeded : ∀ c ∈ neededInPass ρ shape, c.Defined ρ)
    (hrule : ∀ r ∈ rule, Yields r (Means ρ (value ρ (node 0 shape)))) :
    Yields (build shape rule) (Means ρ (value ρ (node 0 shape))) := by
  rw [build]
  cases hfold : foldConstants shape with
  | some v =>
      rw [value_of_foldConstants hfold]
      exact constant_means v
  | none =>
      cases rule with
      | some r => exact hrule r rfl
      | none => exact new_means hshape hneeded

end Formula

end FormulaGraph
