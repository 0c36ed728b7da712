import FormulaGraph.Proofs.Binary64Neutral
import FormulaGraph.Proofs.SimpleNodes
import FormulaGraph.Proofs.Passes
import FormulaGraph.Proofs.Generations

/-!
# Quotients in which a side is zero

A quotient with a zero on either side is to be zero.  Nodes that divide take care of this, and so
do constants that are folded.  A quotient by a constant other than zero is built differently
(`ByReciprocal`): as a product with the reciprocal of the divisor, which is combined with the
constant factors the dividend has already, and comes first.

What is multiplied by zero is zero only if it is **finite**.  A zero dividend that is no product
stays zero exactly if the reciprocal is finite: not if the divisor is undefined, or so small that
its reciprocal overflows.  A product stays zero if a factor of it is zero before anything
overflows; if it is zero because it is too small, the reciprocal may raise it again.
-/

namespace FormulaGraph

open Scalar

/-- Numbers of which a factor zero turns exactly the finite ones into zero. -/
class AbsorbingZero (α : Type) [Scalar α] : Prop where
  zero_beq : ((0 : α) == 0) = true
  finite_of_zero : ∀ {v : α}, (v == 0) = true → IsFinite v
  eq_one : ∀ {v : α}, (v == 1) = true → v = 1
  one_finite : IsFinite (1 : α)
  one_mul_one : (1 : α) * 1 = 1
  finite_one_mul : ∀ {v : α}, IsFinite (1 * v) ↔ IsFinite v
  mul_zero_iff : ∀ {u v : α}, (v == 0) = true → ((u * v == 0) = true ↔ IsFinite u)

variable {α : Type} [Scalar α]

namespace Formula

variable {ρ : Valuation α} {a b : Formula α} {d : α}

/-! ## How a quotient is built -/

/-- The quotient of `a` by `b` is built as a product with the reciprocal of the constant `d`. -/
structure ByReciprocal (a b : Formula α) (d : α) : Prop where
  divisor : b.asConstant = some d
  nonzero : (d == 0) = false
  dividend : a.isConstant = false

/-- The product that the quotient is built as. -/
def timesReciprocal (a : Formula α) (d : α) : Fresh (Formula α) := do
  let reciprocal ← constant (1 / d)
  product [a, reciprocal]

/-- A constant divisor is turned into a factor. -/
theorem divide_of_reciprocal (h : ByReciprocal a b d) : divide a b = timesReciprocal a d := by
  have hconst : a.asConstant = none := asConstant_eq_none h.dividend
  have hnotZero : ¬ (a.isConstantValue 0 || b.isConstantValue 0) = true := by
    simp [isConstantValue, hconst, h.divisor, h.nonzero]
  rw [divide, binary, build_of_not_isConstant (c := a) _ (by simp [Shape.children]) h.dividend,
    binaryRule, if_neg hnotZero, h.divisor]
  rfl

/-- Every other quotient has the value of a node that divides. -/
theorem divide_direct (h : ∀ d, ¬ ByReciprocal a b d) :
    Yields (divide a b) fun e => e.value ρ = safeDiv (a.value ρ) (b.value ρ) := by
  rw [divide, binary, build]
  cases hfold : foldConstants (.binary .divide a b) with
  | some v =>
      have hvalue := value_of_foldConstants hfold ρ 0
      rw [value] at hvalue
      exact .new fun id => hvalue.symm
  | none =>
      by_cases hzero : (a.isConstantValue 0 || b.isConstantValue 0) = true
      · have hquotient : safeDiv (a.value ρ) (b.value ρ) = 0 := by
          rw [Bool.or_eq_true] at hzero
          rw [safeDiv, if_pos]
          rw [Bool.or_eq_true]
          exact hzero.imp (value_of_isConstantValue · ρ) (value_of_isConstantValue · ρ)
        rw [binaryRule, if_pos hzero, hquotient]
        exact .pure rfl
      · rw [binaryRule, if_neg hzero]
        cases hdivisor : b.asConstant with
        | none => exact .new fun id => rfl
        | some d =>
            rw [Bool.or_eq_true, not_or] at hzero
            have hdividend : a.isConstant = false := by
              simpa [foldConstants, Shape.children, isConstant, hdivisor] using hfold
            exact absurd ⟨hdivisor, by simpa [isConstantValue, hdivisor] using hzero.2, hdividend⟩
              (h d)

/-! ## Products that meet a zero -/

/-- The constants among the factors of a formula. -/
def constantFactors (a : Formula α) : List α := (argumentsOf .multiply a).filterMap asConstant

/-- The other factors. -/
def otherFactors (a : Formula α) : List (Formula α) :=
  (argumentsOf .multiply a).filter fun e => !e.isConstant

/-- The constant factor of the product with the reciprocal. -/
def leadingFactor (a : Formula α) (d : α) : α := Scalar.product (constantFactors a ++ [1 / d])

/-- The value of the product with the reciprocal: zero if it has the constant zero for a factor;
otherwise that of the other factors, after the constant one unless this is one. -/
def timesReciprocalValue (ρ : Valuation α) (a : Formula α) (d : α) : α :=
  if (constantFactors a ++ [1 / d]).any (· == 0) then 0
  else if otherFactors a = [] then leadingFactor a d
  else if leadingFactor a d == 1 then
    match otherFactors a with
    | [e] => e.value ρ
    | es => productUntilZero 1 (values ρ es)
  else productUntilZero 1 (leadingFactor a d :: values ρ (otherFactors a))

/-- A constant after other factors is out of its place. -/
theorem isCanonical_reciprocal (h : a.isConstant = false) (id : NodeId) (v : α) :
    isCanonical .multiply [a, node id (.const v)] = false := by
  have hconst : a.asConstant = none := asConstant_eq_none h
  have hconstants : [a, node id (.const v)].filterMap asConstant = [v] := by
    rw [List.filterMap_cons_none hconst]
    rfl
  have hplace : (constantPlace? .multiply [a, node id (.const v)]).any isConstant = false := h
  rw [isCanonical, hconstants]
  simp [hplace]

/-- What the product with the reciprocal is built as, with numbers from `n` on for new nodes. -/
inductive IsTimesReciprocal (n : NodeId) (a : Formula α) (d : α) : Formula α → Prop
  | zero (hzero : (constantFactors a ++ [1 / d]).any (· == 0) = true) :
      IsTimesReciprocal n a d zero
  | constant {id : NodeId} (hid : n ≤ id)
      (hnonzero : (constantFactors a ++ [1 / d]).any (· == 0) = false)
      (hothers : otherFactors a = []) :
      IsTimesReciprocal n a d (node id (.const (leadingFactor a d)))
  | single {e : Formula α} (hnonzero : (constantFactors a ++ [1 / d]).any (· == 0) = false)
      (hone : (leadingFactor a d == 1) = true) (hothers : otherFactors a = [e]) :
      IsTimesReciprocal n a d e
  | several {id : NodeId} {e e' : Formula α} {es : List (Formula α)} (hid : n ≤ id)
      (hnonzero : (constantFactors a ++ [1 / d]).any (· == 0) = false)
      (hone : (leadingFactor a d == 1) = true) (hothers : otherFactors a = e :: e' :: es) :
      IsTimesReciprocal n a d (node id (.assoc .multiply (e :: e' :: es)))
  | scaled {id c : NodeId} {e : Formula α} {es : List (Formula α)} (hid : n ≤ id)
      (hnonzero : (constantFactors a ++ [1 / d]).any (· == 0) = false)
      (hone : (leadingFactor a d == 1) = false) (hothers : otherFactors a = e :: es) :
      IsTimesReciprocal n a d
        (node id (.assoc .multiply (node c (.const (leadingFactor a d)) :: e :: es)))

/-- A dividend times a reciprocal is built as one product, with the factor in front. -/
theorem timesReciprocal_builds (h : a.isConstant = false) (n : NodeId) :
    YieldsFrom n (timesReciprocal a d) (IsTimesReciprocal n a d) := by
  rw [timesReciprocal]
  refine .bind (.new fun id _ => ⟨id, rfl⟩ : YieldsFrom n _ fun r =>
    ∃ id, r = node id (.const (1 / d))) ?_
  rintro _ ⟨id, rfl⟩
  have hflat : argumentsOfAll .multiply [a, node id (.const (1 / d))] =
      argumentsOf .multiply a ++ [node id (.const (1 / d))] := by
    simp [argumentsOfAll, argumentsOf]
  have hconstants : (argumentsOf .multiply a ++ [node id (.const (1 / d))]).filterMap asConstant =
      constantFactors a ++ [1 / d] := by
    simp [constantFactors, asConstant]
  have hothers : (argumentsOf .multiply a ++ [node id (.const (1 / d))]).filter
      (fun e => !e.isConstant) = otherFactors a := by
    simp [otherFactors, isConstant, asConstant]
  rw [product, assoc, build_of_not_isConstant (c := a) _ (by simp [Shape.children]) h, assocRule,
    isCanonical_reciprocal h]
  show YieldsFrom n (flatten .multiply _) _
  rw [flatten, hflat, hconstants, hothers]
  cases hzero : (constantFactors a ++ [1 / d]).any (· == 0) with
  | true => exact .pure (.zero hzero)
  | false =>
      rw [if_neg (by simp)]
      cases hes : otherFactors a with
      | nil => exact .new fun id hid => .constant hid hzero hes
      | cons e es =>
          have hcombine : AssocOp.multiply.combine (constantFactors a ++ [1 / d]) =
              leadingFactor a d := rfl
          rw [if_neg (by simp), hcombine, addConstant, AssocOp.isNeutral]
          cases hone : leadingFactor a d == 1 with
          | true =>
              cases es with
              | nil => exact .pure (.single hzero hone hes)
              | cons e' es => exact .new fun id hid => .several hid hzero hone hes
          | false =>
              intro m hm
              have hid : n ≤ m + 1 := Nat.le_succ_of_le hm
              exact ⟨Nat.le_succ_of_le hid, .scaled hid hzero hone hes⟩

/-- A dividend times a reciprocal has the value of the product from left to right. -/
theorem timesReciprocal_value (h : a.isConstant = false) :
    Yields (timesReciprocal a d) fun e => e.value ρ = timesReciprocalValue ρ a d := by
  refine (timesReciprocal_builds h 0).yields.mono fun q hq => ?_
  rw [timesReciprocalValue]
  cases hq with
  | zero hzero => rw [if_pos hzero]; rfl
  | constant _ hnonzero hothers => rw [hnonzero, if_neg (by simp), if_pos hothers]; rfl
  | single hnonzero hone hothers =>
      rw [hnonzero, hothers, if_neg (by simp), if_neg (by simp), if_pos hone]
  | several _ hnonzero hone hothers =>
      rw [hnonzero, hothers, if_neg (by simp), if_neg (by simp), if_pos hone]
      rfl
  | scaled _ hnonzero hone hothers =>
      rw [hnonzero, hothers, if_neg (by simp), if_neg (by simp), hone, if_neg (by simp)]
      rfl

section Zeros

variable [AbsorbingZero α]

omit [AbsorbingZero α] in
/-- A product with one more factor. -/
theorem productUntilZero_singleton (acc v : α) : productUntilZero acc [v] = acc * v := by
  rw [productUntilZero]
  split <;> rfl

/-- A product that is finite up to a factor that is zero is zero. -/
theorem productUntilZero_of_zero {acc v : α} {vs ws : List α} (hv : (v == 0) = true)
    (hfinite : IsFinite (vs.foldl (· * ·) acc)) :
    (productUntilZero acc (vs ++ v :: ws) == 0) = true := by
  induction vs generalizing acc with
  | nil =>
      have hnext : (acc * v == 0) = true := (AbsorbingZero.mul_zero_iff hv).mpr hfinite
      rw [List.nil_append, productUntilZero, if_pos hnext, hnext]
  | cons w vs ih =>
      rw [List.cons_append, productUntilZero]
      split
      · next hnext => exact hnext
      · exact ih hfinite

/-- **A zero dividend that is no product stays zero exactly if the reciprocal is finite.** -/
theorem timesReciprocal_zero_iff (hconst : a.isConstant = false)
    (hproduct : a.isAssoc .multiply = false) (hzero : (a.value ρ == 0) = true) :
    (timesReciprocalValue ρ a d == 0) = true ↔ IsFinite (1 / d) := by
  have hnone : a.asConstant = none := asConstant_eq_none hconst
  have harguments : argumentsOf .multiply a = [a] := by
    obtain ⟨id, shape⟩ := a
    cases shape with
    | assoc op args => rw [argumentsOf, if_neg (by simpa [isAssoc] using hproduct)]
    | _ => rfl
  have hconstants : constantFactors a = [] := by simp [constantFactors, harguments, hnone]
  have hothers : otherFactors a = [a] := by simp [otherFactors, harguments, hconst]
  have hleading : IsFinite (leadingFactor a d) ↔ IsFinite (1 / d) := by
    have heq : leadingFactor a d = 1 * (1 / d) := by rw [leadingFactor, hconstants]; rfl
    rw [heq, AbsorbingZero.finite_one_mul]
  rw [timesReciprocalValue, hconstants, hothers]
  simp only [List.nil_append, List.any_cons, List.any_nil, Bool.or_false]
  split
  · next h => exact iff_of_true AbsorbingZero.zero_beq (AbsorbingZero.finite_of_zero h)
  · rw [if_neg (by simp)]
    split
    · next hone =>
        refine iff_of_true hzero (hleading.mp ?_)
        rw [AbsorbingZero.eq_one hone]
        exact AbsorbingZero.one_finite
    · rw [values, values, productUntilZero]
      split
      · next hnext =>
          refine iff_of_true hnext (hleading.mp ?_)
          exact AbsorbingZero.finite_one_mul.mp (AbsorbingZero.finite_of_zero hnext)
      · rw [productUntilZero_singleton, AbsorbingZero.mul_zero_iff hzero,
          AbsorbingZero.finite_one_mul, hleading]

/-- Where the quotient of a zero dividend by the constant `d` stays zero: the dividend is no
product and the reciprocal is finite; or one of its factors is the constant zero; or the product
of its constants, the reciprocal and the factors before one that is zero is finite. -/
inductive KeepsZero (ρ : Valuation α) (a : Formula α) (d : α) : Prop
  | single (hproduct : a.isAssoc .multiply = false) (hfinite : IsFinite (1 / d))
  | constant {c : α} (hc : c ∈ constantFactors a) (hzero : (c == 0) = true)
  | factor {es fs : List (Formula α)} {e : Formula α} (hfactors : otherFactors a = es ++ e :: fs)
      (hzero : (e.value ρ == 0) = true)
      (hfinite : IsFinite (Scalar.product (leadingFactor a d :: es.map (value ρ))))

/-- Where zero is kept, a dividend of zero makes the product zero. -/
theorem KeepsZero.timesReciprocal (h : KeepsZero ρ a d) (hconst : a.isConstant = false)
    (hzero : (a.value ρ == 0) = true) : (timesReciprocalValue ρ a d == 0) = true := by
  cases h with
  | single hproduct hfinite =>
      exact (timesReciprocal_zero_iff hconst hproduct hzero).mpr hfinite
  | constant hc hzero =>
      have hany : (constantFactors a ++ [1 / d]).any (· == 0) = true :=
        List.any_eq_true.mpr ⟨_, List.mem_append_left _ hc, hzero⟩
      rw [timesReciprocalValue, if_pos hany]
      exact AbsorbingZero.zero_beq
  | @factor es fs e hfactors hzero hfinite =>
      have hvalues : values ρ (otherFactors a) =
          es.map (value ρ) ++ e.value ρ :: fs.map (value ρ) := by
        rw [hfactors, values_eq_map, List.map_append, List.map_cons]
      rw [timesReciprocalValue]
      split
      · exact AbsorbingZero.zero_beq
      · rw [if_neg (by simp [hfactors])]
        split
        · next hone =>
            rw [AbsorbingZero.eq_one hone, Scalar.product, List.foldl_cons,
              AbsorbingZero.one_mul_one] at hfinite
            split
            · next e' hsingle =>
                have hmem : e ∈ [e'] := by simp [← hsingle, hfactors]
                rwa [← List.mem_singleton.mp hmem]
            · rw [hvalues]
              exact productUntilZero_of_zero hzero hfinite
        · rw [hvalues, ← List.cons_append]
          exact productUntilZero_of_zero hzero hfinite

/-! ## Quotients with a zero side -/

/-- The value of the quotient `e`, whichever way it is built: if not as a product, what a node that
divides computes; if as a product, zero for a zero dividend that is no product exactly if the
reciprocal is finite; and in any case zero with a zero side that the product keeps. -/
structure DividesSafely (ρ : Valuation α) (a b e : Formula α) : Prop where
  direct : (∀ d, ¬ ByReciprocal a b d) → e.value ρ = safeDiv (a.value ρ) (b.value ρ)
  reciprocal : ∀ d, ByReciprocal a b d → a.isAssoc .multiply = false → (a.value ρ == 0) = true →
    ((e.value ρ == 0) = true ↔ IsFinite (1 / d))
  zero : (a.value ρ == 0) = true ∨ (b.value ρ == 0) = true →
    (∀ d, ByReciprocal a b d → KeepsZero ρ a d) → (e.value ρ == 0) = true

/-- On every route division is safe, as far as the factor allows. -/
theorem divide_safely (ρ : Valuation α) (a b : Formula α) :
    Yields (divide a b) (DividesSafely ρ a b) := by
  by_cases h : ∃ d, ByReciprocal a b d
  · obtain ⟨d, hd⟩ := h
    rw [divide_of_reciprocal hd]
    refine (timesReciprocal_value (ρ := ρ) hd.dividend).mono fun e he => ⟨?_, ?_, ?_⟩
    · exact fun hnot => absurd hd (hnot d)
    · intro d' hd' hproduct hzero
      obtain rfl := Option.some.inj (hd.divisor.symm.trans hd'.divisor)
      rw [he]
      exact timesReciprocal_zero_iff hd.dividend hproduct hzero
    · rintro (hzero | hzero) hkeeps
      · rw [he]
        exact (hkeeps d hd).timesReciprocal hd.dividend hzero
      · rw [value_of_asConstant hd.divisor, hd.nonzero] at hzero
        cases hzero
  · rw [not_exists] at h
    refine (divide_direct (ρ := ρ) h).mono fun e he => ⟨fun _ => he, ?_, ?_⟩
    · exact fun d hd => absurd hd (h d)
    · intro hzero _
      rw [he, safeDiv, if_pos (by rwa [Bool.or_eq_true])]
      exact AbsorbingZero.zero_beq

/-- **Quotients with a zero side.**  A quotient is zero if a side is, for all values of the
variables, unless it is built as a product with a reciprocal that loses the zero; and so it is
when solver-free formulas are evaluated in a store. -/
theorem quotient_of_zero :
    (∀ (ρ : Valuation α) (a b : Formula α), Yields (divide a b) (DividesSafely ρ a b)) ∧
    ∀ (L : Ledger α) (s : Store α) (a b : Formula α), s.Reachable →
      a.Member SolverFree L → b.Member SolverFree L →
      ((a.evaluate.run s).1 == 0) = true ∨ ((b.evaluate.run s).1 == 0) = true →
      (∀ d, ByReciprocal a b d → KeepsZero s.read a d) →
      ((((divide a b).run L.next).1.evaluate.run s).1 == 0) = true := by
  refine ⟨divide_safely, ?_⟩
  intro L s a b hs ha hb hzero hkeeps
  have hbuilds : Builds (divide a b) L fun L' e => e.Member SolverFree L' :=
    binary_builds solverFree_admitsRebuilding.toAdmitsOperations .divide ha hb
  obtain ⟨L', -, -, hquotient⟩ := hbuilds
  rw [evaluate_run ha.holds ha.known.listed hs, evaluate_run hb.holds hb.known.listed hs] at hzero
  have hvalue := (divide_safely s.read a b L.next).zero hzero hkeeps
  rwa [← evaluate_run hquotient.holds hquotient.known.listed hs] at hvalue

end Zeros

end Formula

/-! ## Exact arithmetic -/

namespace PartialReal

/-- In exact arithmetic zero times anything defined is zero. -/
instance : AbsorbingZero PartialReal where
  zero_beq := (beq_real 0 0).mpr rfl
  finite_of_zero h := by
    rw [eq_of_beq h]
    exact isFinite_real 0
  eq_one h := eq_of_beq h
  one_finite := isFinite_real 1
  one_mul_one := by simp
  finite_one_mul {v} := by
    cases v with
    | undefined => exact Iff.rfl
    | real x => exact Iff.rfl
  mul_zero_iff {u v} h := by
    rw [eq_of_beq h]
    cases u with
    | undefined => exact iff_of_false nofun nofun
    | real x => exact iff_of_true ((beq_real _ _).mpr (mul_zero x)) (isFinite_real x)

end PartialReal

/-! ## The machine's numbers -/

open Binary64 in
/-- Among binary numbers zero times a finite number is a zero. -/
instance : AbsorbingZero Float where
  zero_beq := by decide +kernel
  finite_of_zero h := by
    obtain ⟨s, hs⟩ := isZero_iff.mp h
    rw [isFinite_iff, hs]
    exact .zero s
  eq_one := eq_one_of_beq
  one_finite := by decide +kernel
  one_mul_one := by decide +kernel
  finite_one_mul := iff_of_eq (congrArg IsFinite (Binary64.one_mul _))
  mul_zero_iff := mul_zero_iff

namespace Formula

/-- The ledger of a variable and a constant. -/
def ledgerWith (d : Float) : Ledger Float := (Ledger.initial.add (.var "x")).add (.const d)

/-- The variable is known. -/
theorem variable_member (d : Float) : (node 2 (.var "x")).Member SolverFree (ledgerWith d) := by
  have hknown : (node 2 (.var "x")).KnownTo (Ledger.initial.add (.var "x") : Ledger Float) :=
    add_known (by simp [Shape.refs, Shape.children])
  exact ⟨hknown.mono (Ledger.extends_add _ _), .node (by simp) (by simp [Shape.children])⟩

/-- The constant divisor is known. -/
theorem constant_member (d : Float) : (node 3 (.const d)).Member SolverFree (ledgerWith d) :=
  ⟨add_known (by simp [Shape.refs, Shape.children]), .node (by simp) (by simp [Shape.children])⟩

/-- An empty store holds zero everywhere. -/
theorem read_empty : (Store.empty : Store Float).read = fun _ => 0 :=
  funext fun _ => Std.HashMap.getD_empty

/-- The variable evaluates to zero there. -/
theorem evaluate_variable (d : Float) :
    ((node 2 (.var "x") : Formula Float).evaluate.run Store.empty).1 = 0 := by
  rw [evaluate_run (variable_member d).holds (variable_member d).known.listed .empty, read_empty]
  rfl

/-- The quotient evaluates to its value. -/
theorem evaluate_quotient (d : Float) :
    (((divide (node 2 (.var "x")) (node 3 (.const d))).run 4).1.evaluate.run Store.empty).1 =
      ((divide (node 2 (.var "x")) (node 3 (.const d))).run 4).1.value fun _ => 0 := by
  have hbuilds : Builds (divide (node 2 (.var "x")) (node 3 (.const d))) (ledgerWith d)
      fun L' e => e.Member SolverFree L' :=
    binary_builds solverFree_admitsRebuilding.toAdmitsOperations .divide (variable_member d)
      (constant_member d)
  obtain ⟨L', -, -, hquotient⟩ := hbuilds
  rw [← read_empty]
  exact evaluate_run hquotient.holds hquotient.known.listed .empty

/-- A half of zero is zero, and so is a third of a product with a factor zero. -/
theorem quotients_of_zero :
    ((((divide (node 2 (.var "x")) (node 3 (.const (2 : Float)))).run 4).1.evaluate.run
      Store.empty).1 == 0) = true ∧
    ((((divide (node 4 (.assoc .multiply [node 3 (.var "y"), node 2 (.var "x")]))
      (node 5 (.const (3 : Float)))).run 6).1.value fun id => if id = 2 then 0 else 1e200) == 0) =
        true := by
  obtain ⟨hvalue, hevaluate⟩ := quotient_of_zero (α := Float)
  refine ⟨hevaluate (ledgerWith 2) Store.empty _ _ .empty (variable_member 2) (constant_member 2)
    (.inl ?_) ?_, (hvalue _ _ _ 6).zero (.inl (by decide +kernel)) ?_⟩
  · rw [evaluate_variable 2]
    decide +kernel
  · rintro d ⟨⟨⟩, -, -⟩
    exact .single rfl (by decide +kernel)
  · rintro d ⟨⟨⟩, -, -⟩
    have hfactors : otherFactors (node 4 (.assoc .multiply
        [node 3 (.var "y"), node 2 (.var "x")]) : Formula Float) =
          [node 3 (.var "y")] ++ node 2 (.var "x") :: [] := rfl
    exact .factor hfactors (by decide +kernel) (by decide +kernel)

/-- A zero dividend does not stay zero over a number so small that its reciprocal overflows, nor
over an undefined one; and a dividend that is zero because it is too small is raised again. -/
theorem reciprocals_that_lose_zero :
    ((node 2 (.var "x") : Formula Float).evaluate.run Store.empty).1 = 0 ∧
      ((((divide (node 2 (.var "x")) (node 3 (.const (1e-310 : Float)))).run 4).1.evaluate.run
        Store.empty).1 == 0) = false ∧
      ((((divide (node 2 (.var "x")) (node 3 (.const (nan : Float)))).run 4).1.evaluate.run
        Store.empty).1 == 0) = false ∧
      ((node 3 (.assoc .multiply [node 2 (.var "x"), node 2 (.var "x")])).value
        (fun _ => (1e-200 : Float)) == 0) = true ∧
      (((divide (node 3 (.assoc .multiply [node 2 (.var "x"), node 2 (.var "x")]))
        (node 4 (.const (1e-300 : Float)))).run 5).1.value (fun _ => 1e-200) == 0) = false := by
  rw [evaluate_quotient, evaluate_quotient]
  exact ⟨evaluate_variable 0, by decide +kernel⟩

end Formula

end FormulaGraph
