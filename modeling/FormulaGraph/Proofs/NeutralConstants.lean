import FormulaGraph.Proofs.AbsentVariables
import FormulaGraph.Proofs.Amounts
import FormulaGraph.Proofs.Unfolding

/-!
# Formulas beside neutral constants

Where zeros are added and ones multiplied by, the simple constructors leave no trace of them: a
sum or product of one formula and neutral constants is that very formula, and no node is built
(`assoc_beside_neutral`).  Nor is one for a difference to zero.  So a computation on mostly
constant formulas can be followed node by node.
-/

namespace FormulaGraph

open PartialReal

/-- What is handed back unbuilt is known exactly. -/
theorem Yields.of_eq {β : Type} {c : Fresh β} {b : β} (h : c = Pure.pure b) : Yields c (· = b) :=
  h ▸ .pure rfl

/-- A new node has the shape it was made with. -/
theorem Yields.of_new {α : Type} {c : Fresh (Formula α)} {shape : Shape α (Formula α)}
    (h : c = Formula.new shape) : Yields c fun e => ∃ id, e = .node id shape :=
  h ▸ .new fun id => ⟨id, rfl⟩

namespace Formula

variable {op : AssocOp} {e z : Formula PartialReal}

/-- Constants that are all neutral combine to one that is. -/
theorem combine_neutral (hop : op ≠ .hypot) {vs : List PartialReal}
    (h : ∀ v ∈ vs, op.isNeutral v = true) : op.isNeutral (op.combine vs) = true := by
  cases op with
  | add =>
      rw [AssocOp.combine, sum_eq, List.sum_eq_zero fun v hv => eq_of_beq (h v hv)]
      simp [AssocOp.isNeutral]
  | multiply =>
      rw [AssocOp.combine, product_eq, List.prod_eq_one fun v hv => eq_of_beq (h v hv)]
      simp [AssocOp.isNeutral]
  | hypot => exact absurd rfl hop

/-- A neutral constant may not stay where it is. -/
theorem not_admits_neutral (hop : op ≠ .hypot) {v : PartialReal} (h : op.isNeutral v = true) :
    op.admits v = false := by
  cases op with
  | add => simp_all [AssocOp.isNeutral, AssocOp.admits]
  | multiply => simp_all [AssocOp.isNeutral, AssocOp.admits]
  | hypot => exact absurd rfl hop

/-- A constant that changes nothing among the arguments of the operation. -/
def IsNeutral (op : AssocOp) (c : Formula PartialReal) : Prop :=
  ∃ v, c.asConstant = some v ∧ op.isNeutral v = true

/-- A neutral element is a constant. -/
theorem IsNeutral.isConstant (h : e.IsNeutral op) : e.isConstant = true := by
  obtain ⟨v, hv, -⟩ := h
  rw [Formula.isConstant, hv]
  rfl

/-- A constant is no sum, product or length that could be merged into another. -/
theorem isAssoc_of_isConstant (h : e.isConstant = true) : e.isAssoc op = false := by
  obtain ⟨id, shape⟩ := e
  cases shape with
  | assoc inner args => cases h
  | _ => rfl

/-- A single argument, or one beside neutral constants, is not canonical. -/
theorem isCanonical_beside_neutral (hop : op ≠ .hypot) {before after : List (Formula PartialReal)}
    (hneutral : ∀ c ∈ before ++ after, c.IsNeutral op) :
    isCanonical op (before ++ e :: after) = false := by
  by_contra hcanonical
  rw [Bool.not_eq_false, isCanonical] at hcanonical
  simp only [Bool.and_eq_true] at hcanonical
  obtain ⟨⟨⟨-, hlength⟩, -⟩, hmatch⟩ := hcanonical
  have hhypot : (op == .hypot) = false := by simpa using hop
  have hne : before ++ after ≠ [] := by
    intro hnil
    obtain ⟨rfl, rfl⟩ := List.append_eq_nil_iff.mp hnil
    simp [hhypot] at hlength
  obtain ⟨c, hc⟩ := List.exists_mem_of_ne_nil _ hne
  obtain ⟨v, hv, hneutral⟩ := hneutral c hc
  have hmem : v ∈ (before ++ e :: after).filterMap asConstant := by
    refine List.mem_filterMap.mpr ⟨c, ?_, hv⟩
    simp only [List.mem_append, List.mem_cons] at hc ⊢
    tauto
  split at hmatch
  · next hnil => simp [hnil] at hmem
  · next w hw =>
      rw [hw, List.mem_singleton] at hmem
      rw [← hmem, not_admits_neutral hop hneutral, Bool.and_false] at hmatch
      cases hmatch
  · cases hmatch

/-- **Neutral constants leave no trace** beside a formula that is neither constant nor taken
apart. -/
theorem assoc_beside_neutral (hop : op ≠ .hypot) (hconst : e.isConstant = false)
    (hassoc : e.isAssoc op = false) (before after : List (Formula PartialReal))
    (hneutral : ∀ c ∈ before ++ after, c.IsNeutral op) :
    assoc op (before ++ e :: after) = pure e := by
  have hnone : e.asConstant = none := asConstant_eq_none hconst
  have hmem : ∀ c ∈ before ++ e :: after, c = e ∨ c.IsNeutral op := by
    intro c hc
    simp only [List.mem_append, List.mem_cons] at hc hneutral
    rcases hc with hc | rfl | hc
    · exact .inr (hneutral c (.inl hc))
    · exact .inl rfl
    · exact .inr (hneutral c (.inr hc))
  have hflat : argumentsOfAll op (before ++ e :: after) = before ++ e :: after := by
    refine argumentsOfAll_of_not_isAssoc fun c hc => ?_
    rcases hmem c hc with rfl | h
    · exact hassoc
    · exact isAssoc_of_isConstant h.isConstant
  have hterms : (before ++ e :: after).filter (fun c => !c.isConstant) = [e] := by
    have hnil : ∀ cs : List (Formula PartialReal), (∀ c ∈ cs, c ∈ before ++ after) →
        cs.filter (fun c => !c.isConstant) = [] := fun cs hcs =>
      List.filter_eq_nil_iff.mpr fun c hc => by simp [(hneutral c (hcs c hc)).isConstant]
    rw [List.filter_append, List.filter_cons_of_pos (by simp [hconst]),
      hnil before fun c hc => List.mem_append_left _ hc,
      hnil after fun c hc => List.mem_append_right _ hc]
    rfl
  have hconstants : ∀ v ∈ (before ++ e :: after).filterMap asConstant, op.isNeutral v = true := by
    intro v hv
    obtain ⟨c, hc, hcv⟩ := List.mem_filterMap.mp hv
    obtain rfl | ⟨w, hw, hneutral⟩ := hmem c hc
    · rw [hnone] at hcv
      cases hcv
    · rw [hw] at hcv
      rwa [← Option.some.inj hcv]
  have hzero : (op == .multiply &&
      ((before ++ e :: after).filterMap asConstant).any (· == 0)) = false := by
    cases op with
    | multiply =>
        refine List.any_eq_false.mpr fun v hv hzero => ?_
        have hone := hconstants v hv
        rw [eq_of_beq hzero] at hone
        simp [AssocOp.isNeutral] at hone
    | _ => rfl
  rw [assoc, build_of_not_isConstant (c := e) _ (by simp [Shape.children]) hconst, assocRule,
    isCanonical_beside_neutral hop hneutral]
  have hcombine := combine_neutral hop hconstants
  simp only [Option.getD, flatten, hflat, hzero, hterms, addConstant, hcombine]
  cases op with
  | hypot => exact absurd rfl hop
  | add => rfl
  | multiply => rfl

/-! ## Numbers -/

/-- The formula is the constant `x`. -/
def IsNumber (x : ℝ) (e : Formula PartialReal) : Prop := e.asConstant = some (real x)

section Numbers

variable {x y : ℝ} {a b : Formula PartialReal} {args : List (Formula PartialReal)}

/-- A number is a constant. -/
theorem IsNumber.isConstant (h : e.IsNumber x) : e.isConstant = true := by
  rw [Formula.isConstant, h]
  rfl

/-- A constant has its number for a value at every point. -/
theorem IsNumber.value_eq (h : e.IsNumber x) (ρ : Valuation PartialReal) : value ρ e = real x :=
  value_of_asConstant h ρ

/-- A number means itself, since nothing else needs to be defined. -/
theorem IsNumber.means (h : e.IsNumber x) (ρ : Valuation PartialReal) : e.Means ρ (real x) := by
  rw [eq_const_of_asConstant h]
  exact const_means _ _

/-- Evaluating it touches no slot and no variable. -/
theorem IsNumber.evaluateIn_run (h : e.IsNumber x) (g : Generation) (s : Store PartialReal) :
    (evaluateIn g e).run s = (real x, s) := by
  rw [eq_const_of_asConstant h, evaluateIn]
  rfl

/-- The number zero vanishes without any condition. -/
theorem IsNumber.vanishes (h : e.IsNumber 0) : e.Vanishes False := by
  obtain ⟨id, shape⟩ := e
  cases shape with
  | const v =>
      obtain rfl : v = real 0 := Option.some.inj h
      exact .zero (by simp)
  | _ => cases h

/-- What vanishes without any condition is the number zero. -/
theorem isNumber_of_vanishes (h : e.Vanishes False) : e.IsNumber 0 := by
  cases h with
  | zero hv => rw [eq_of_beq hv]; rfl
  | _ => contradiction

/-- Zero is neutral in a sum. -/
theorem IsNumber.neutral_add (h : e.IsNumber 0) : e.IsNeutral .add :=
  ⟨_, h, by simp [AssocOp.isNeutral]⟩

/-- One is neutral in a product. -/
theorem IsNumber.neutral_multiply (h : e.IsNumber 1) : e.IsNeutral .multiply :=
  ⟨_, h, by simp [AssocOp.isNeutral]⟩

/-- Of constants an operation builds the number that it makes of theirs. -/
theorem build_number {shape : Shape PartialReal (Formula PartialReal)}
    {rule : Option (Fresh (Formula PartialReal))} (hshape : shape.IsOperation)
    (hleaf : ∀ v, shape ≠ .const v) (hconst : ∀ c ∈ shape.children, c.isConstant = true)
    (hvalue : value (fun _ => undefined) (node 0 shape) = real y) :
    Yields (build shape rule) (IsNumber y) := by
  refine build_of_folded (v := real y) ?_
  rw [← hvalue]
  exact foldConstants_of_isConstant hshape hleaf hconst

/-- A function of a number is folded if the result is real. -/
theorem unary_number (op : UnaryOp) (ha : a.IsNumber x) (hop : op.apply (real x) = real y) :
    Yields (unary op a) (IsNumber y) :=
  build_number trivial (by simp) (by simpa [Shape.children] using ha.isConstant) (by
    rw [value, ha.value_eq, hop])

/-- An operation on two numbers is folded if the result is real. -/
theorem binary_number (op : BinaryOp) {z : ℝ} (ha : a.IsNumber x) (hb : b.IsNumber y)
    (hop : op.apply (real x) (real y) = real z) : Yields (binary op a b) (IsNumber z) :=
  build_number trivial (by simp)
    (by simpa [Shape.children] using And.intro ha.isConstant hb.isConstant) (by
      rw [value, ha.value_eq, hb.value_eq, hop])

/-- Real numbers are finite constants. -/
theorem IsNumber.finiteConstant (h : e.IsNumber x) : e.FiniteConstant := by
  intro v hv
  rw [h] at hv
  obtain rfl := Option.some.inj hv
  rfl

/-- What is no constant is no infinite one either. -/
theorem finiteConstant_of_not_isConstant (h : e.isConstant = false) : e.FiniteConstant := by
  intro v hv
  rw [asConstant_eq_none h] at hv
  cases hv

/-- A zero in front makes the product zero, whatever the other factor is. -/
theorem zero_multiply (h : a.IsNumber 0) : Yields (multiply a b) (IsNumber 0) :=
  (product_vanishes_left h.vanishes).mono fun _ => isNumber_of_vanishes

/-- A zero behind a factor that is not infinite makes the product zero. -/
theorem multiply_zero (ha : a.FiniteConstant) (h : b.IsNumber 0) :
    Yields (multiply a b) (IsNumber 0) :=
  (product_vanishes_right ha h.vanishes).mono fun _ => isNumber_of_vanishes

/-- A sum of zeros is folded to zero. -/
theorem sum_of_zero (h : ∀ c ∈ args, c.IsNumber 0) : Yields (sum args) (IsNumber 0) :=
  (sum_vanishes fun c hc => (h c hc).vanishes).mono fun _ => isNumber_of_vanishes

/-- Zero less zero is folded to zero. -/
theorem subtract_zero_zero (ha : a.IsNumber 0) (hb : b.IsNumber 0) :
    Yields (subtract a b) (IsNumber 0) :=
  binary_number .subtract ha hb (by simp [BinaryOp.apply])

/-- A quotient of zero is folded to zero, whatever it is divided by. -/
theorem divide_zero (h : a.IsNumber 0) : Yields (divide a b) (IsNumber 0) :=
  (divide_vanishes h.vanishes).mono fun _ => isNumber_of_vanishes

/-- Neither a constant nor a sum or product, which are taken apart. -/
structure Whole (e : Formula PartialReal) : Prop where
  not_constant : e.isConstant = false
  not_sum : e.isAssoc .add = false
  not_product : e.isAssoc .multiply = false

/-- Whatever is not taken apart is no constant, and so no infinite one. -/
theorem Whole.finiteConstant (he : e.Whole) : e.FiniteConstant :=
  finiteConstant_of_not_isConstant he.not_constant

/-- The product of two formulas that are not taken apart. -/
theorem multiply_whole (ha : a.Whole) (hb : b.Whole) :
    multiply a b = new (.assoc .multiply [a, b]) := by
  have hcanonical : isCanonical .multiply [a, b] = true := by
    simp [isCanonical, ha.not_constant, ha.not_product, hb.not_product,
      asConstant_eq_none ha.not_constant, asConstant_eq_none hb.not_constant]
  rw [multiply, product, assoc,
    build_of_not_isConstant (c := a) _ (by simp [Shape.children]) ha.not_constant, assocRule,
    if_pos hcanonical]
  rfl

/-- The product of a product and a formula has all factors side by side. -/
theorem multiply_product_whole {id : NodeId} {c : Formula PartialReal} (ha : a.Whole)
    (hb : b.Whole) (hc : c.Whole) :
    multiply (node id (.assoc .multiply [a, b])) c = new (.assoc .multiply [a, b, c]) := by
  have hcanonical : isCanonical .multiply [node id (.assoc .multiply [a, b]), c] = false := by
    simp [isCanonical, isAssoc]
  have hflat : argumentsOfAll .multiply [node id (.assoc .multiply [a, b]), c] = [a, b, c] := by
    simp [argumentsOfAll, argumentsOf, argumentsOf_of_not_isAssoc ha.not_product,
      argumentsOf_of_not_isAssoc hb.not_product, argumentsOf_of_not_isAssoc hc.not_product]
  have hconstants : [a, b, c].filterMap asConstant = [] := by
    simp [asConstant_eq_none ha.not_constant, asConstant_eq_none hb.not_constant,
      asConstant_eq_none hc.not_constant]
  have hterms : [a, b, c].filter (fun e => !e.isConstant) = [a, b, c] := by
    simp [ha.not_constant, hb.not_constant, hc.not_constant]
  have hneutral : AssocOp.multiply.isNeutral
      (AssocOp.multiply.combine ([] : List PartialReal)) = true :=
    combine_neutral (by simp) (by simp)
  rw [multiply, product, assoc,
    build_of_not_isConstant (c := c) _ (by simp [Shape.children]) hc.not_constant, assocRule,
    hcanonical]
  simp only [Option.getD, flatten, hflat, hconstants, hterms, addConstant, hneutral]
  rfl

/-- Zeros leave no trace in a length, which stays one. -/
theorem hypot_beside_zeros (hz : z.IsNumber 0) (hconst : e.isConstant = false)
    (hassoc : e.isAssoc .hypot = false) : hypot [z, z, e] = new (.assoc .hypot [e]) := by
  have hconstants : [z, z, e].filterMap asConstant = [0, 0].map real := by
    have hzero : z.asConstant = some (real 0) := hz
    simp [hzero, asConstant_eq_none hconst]
  have hnot : ¬isCanonical .hypot [z, z, e] = true := by simp [isCanonical, hconstants]
  have hterms : [z, z, e].filter (fun c => !c.isConstant) = [e] := by
    simp [hz.isConstant, hconst]
  have hflat : argumentsOfAll .hypot [z, z, e] = [z, z, e] :=
    argumentsOfAll_of_not_isAssoc (by simp [hassoc, isAssoc_of_isConstant hz.isConstant])
  have hneutral : AssocOp.hypot.isNeutral (AssocOp.hypot.combine ([0, 0].map real)) = true := by
    rw [AssocOp.combine_map_real]
    simp [AssocOp.isNeutral, AssocOp.amount, PartialReal.length]
  rw [hypot, assoc, build_of_not_isConstant (c := e) _ (by simp [Shape.children]) hconst, assocRule,
    if_neg hnot]
  simp only [Option.getD, flatten, hflat, hconstants, hterms, addConstant, hneutral]
  rfl

/-- Zero is dropped on either side of a sum, and what is left needs no sum. -/
theorem add_zero (hconst : e.isConstant = false) (hassoc : e.isAssoc .add = false)
    (hz : z.IsNumber 0) : add e z = pure e ∧ add z e = pure e :=
  ⟨assoc_beside_neutral (by simp) hconst hassoc [] [z] (by simpa using hz.neutral_add),
    assoc_beside_neutral (by simp) hconst hassoc [z] [] (by simpa using hz.neutral_add)⟩

/-- One is dropped from a product. -/
theorem multiply_one (hconst : e.isConstant = false) (hassoc : e.isAssoc .multiply = false)
    (hz : z.IsNumber 1) : multiply e z = pure e :=
  assoc_beside_neutral (by simp) hconst hassoc [] [z] (by simpa using hz.neutral_multiply)

/-- A constant is compared by its value. -/
theorem isConstantValue_eq {c : PartialReal} (hc : e.asConstant = some c) (v : PartialReal) :
    e.isConstantValue v = (c == v) := by
  rw [isConstantValue, hc]

/-- A reciprocal is built as it stands. -/
theorem one_divide (hconst : e.isConstant = false) :
    divide one e = new (.binary .divide one e) := by
  have hone : (one : Formula PartialReal).isConstantValue 0 = false :=
    Bool.eq_false_iff.mpr fun h => one_ne_zero ((beq_real 1 0).mp h)
  rw [divide, binary, build_of_not_isConstant (c := e) _ (by simp [Shape.children]) hconst,
    binaryRule, hone, isConstantValue_eq_false hconst, asConstant_eq_none hconst]
  rfl

/-- Nothing is taken away. -/
theorem subtract_zero (hconst : e.isConstant = false) (hz : z.IsNumber 0) :
    subtract e z = pure e := by
  have hzero : z.isConstantValue 0 = true := by simp [isConstantValue_eq hz]
  rw [subtract, binary, build_of_not_isConstant (c := e) _ (by simp [Shape.children]) hconst,
    binaryRule, if_pos hzero]
  rfl

/-- A difference from zero is written as a negative. -/
theorem zero_subtract (hconst : e.isConstant = false) (hz : z.IsNumber 0) :
    subtract z e = negate e := by
  have hzero : z.isConstantValue 0 = true := by simp [isConstantValue_eq hz]
  rw [subtract, binary, build_of_not_isConstant (c := e) _ (by simp [Shape.children]) hconst,
    binaryRule, if_neg (by simp [isConstantValue_eq_false hconst]), if_pos hzero]
  rfl

end Numbers

end Formula

end FormulaGraph
