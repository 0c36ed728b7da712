import FormulaGraph.Proofs.NestedSums
import FormulaGraph.Proofs.SimpleNodes
import FormulaGraph.Proofs.WholeNumbers
import FormulaGraph.Proofs.Workbench

/-!
# Derivatives for absent variables

The rules of calculus build a derivative through the simple constructors, so that vanishing terms
vanish while it is built.  If the variable does not occur, all of them do: nothing but zeros comes
up from the leaves, and what the rules make of zeros is the constant zero, as long as nothing is
selected (`derivative_of_absent`).

No rule tells that the branches of a selection are alike, so a selection between two zeros stays
one.  What is made of such selections is zero by its form all the same (`Vanishes`), and in exact
arithmetic it has no other value (`Vanishes.value_real`).

Behind an infinite or undefined constant a zero does not count.  So constants by which the rules
multiply a derivative, which are dividends and the arguments of angles and lengths, have to be
finite (`Shape.FiniteFactors`).  The quotient of an infinite number by a variable has a derivative
that is not zero, whatever it is differentiated for (`quotientStays_handedOn`).
-/

namespace FormulaGraph

/-! ## Zeros -/

open Scalar in
/-- Zeros stay zeros under all operations but division, and in a product with a finite number;
one changes no number. -/
class ZerosAbsorb (α : Type) [Scalar α] : Prop extends ZerosAdd α where
  zero : ((0 : α) == 0) = true
  one_mul : ∀ v : α, 1 * v = v
  neg : ∀ {z : α}, (z == 0) = true → (-z == 0) = true
  sub : ∀ {z w : α}, (z == 0) = true → (w == 0) = true → (z - w == 0) = true
  mul : ∀ {v z : α}, IsFinite v → (z == 0) = true → (v * z == 0) = true

/-- Among whole numbers zero absorbs, and there is but one zero. -/
instance : ZerosAbsorb Int where
  zero := rfl
  one_mul := Int.one_mul
  neg {z} hz := by
    obtain rfl : z = 0 := by simpa using hz
    rfl
  sub {z w} hz hw := by
    obtain rfl : z = 0 := by simpa using hz
    obtain rfl : w = 0 := by simpa using hw
    rfl
  mul {v z} _ hz := by
    obtain rfl : z = 0 := by simpa using hz
    rw [Int.mul_zero]
    rfl

open Binary64 Float.Model Float.Model.UnpackedFloat in
/-- Among binary numbers a zero of either sign absorbs every factor that is finite. -/
instance : ZerosAbsorb Float where
  zero := rfl
  one_mul := Binary64.one_mul
  neg {z} hz := by
    obtain ⟨s, hs⟩ := isZero_iff.mp hz
    refine isZero_iff.mpr ⟨-s, ?_⟩
    rw [show unpacked (-z) = stored (UnpackedFloat.neg (unpacked z)) from rfl, hs]
    exact stored_zero (-s)
  sub {z w} hz hw := by
    obtain ⟨s, hs⟩ := isZero_iff.mp hz
    obtain ⟨s', hs'⟩ := isZero_iff.mp hw
    refine isZero_iff.mpr ⟨if s == -s' then s else .positive, ?_⟩
    rw [unpacked_sub, hs, hs']
    cases s <;> cases s' <;> rfl
  mul hv hz := (mul_zero_iff hz).mpr hv

/-- In exact arithmetic there is one zero, and adding it changes nothing. -/
instance : ZerosAdd PartialReal where
  negativeZero := by simp [Scalar.negativeZero]
  neutral v := by
    rw [show (Scalar.negativeZero : PartialReal) = 0 by simp [Scalar.negativeZero], zero_add]
  zero_add {z v} hz _ := by
    rw [PartialReal.eq_of_beq hz, zero_add]
  zeros_add {z w} hz hw := by
    rw [PartialReal.eq_of_beq hz, zero_add]
    exact hw

/-- In exact arithmetic zero absorbs whatever is defined. -/
instance : ZerosAbsorb PartialReal where
  zero := by simp
  one_mul v := one_mul v
  neg {z} hz := by simp [PartialReal.eq_of_beq hz]
  sub {z w} hz hw := by simp [PartialReal.eq_of_beq hz, PartialReal.eq_of_beq hw]
  mul {v z} hv hz := by
    cases v with
    | undefined => cases hv
    | real x => simp [PartialReal.eq_of_beq hz]

variable {α : Type} [Scalar α]

namespace Formula

/-! ## Formulas that vanish by their form -/

/-- Zero by its form: the constant, or, if selections are `granted`, what selects between such
formulas, or is made of them by the rules so that nothing but zero can come of it. -/
inductive Vanishes (granted : Prop) : Formula α → Prop
  | zero {id : NodeId} {v : α} (hv : (v == 0) = true) : Vanishes granted (node id (.const v))
  | selection {id : NodeId} {op : ConditionalOp} {c a b : Formula α} (h : granted)
      (ha : Vanishes granted a) (hb : Vanishes granted b) :
      Vanishes granted (node id (.conditional op c a b))
  | negation {id : NodeId} {a : Formula α} (h : granted) (ha : Vanishes granted a) :
      Vanishes granted (node id (.unary .negate a))
  | difference {id : NodeId} {a b : Formula α} (h : granted) (ha : Vanishes granted a)
      (hb : Vanishes granted b) : Vanishes granted (node id (.binary .subtract a b))
  | quotient {id : NodeId} {a b : Formula α} (h : granted) (ha : Vanishes granted a) :
      Vanishes granted (node id (.binary .divide a b))
  | sum {id : NodeId} {args : List (Formula α)} (h : granted)
      (hargs : ∀ a ∈ args, Vanishes granted a) : Vanishes granted (node id (.assoc .add args))
  | product {id : NodeId} {args : List (Formula α)} {a : Formula α} (h : granted) (ha : a ∈ args)
      (hzero : Vanishes granted a) : Vanishes granted (node id (.assoc .multiply args))

variable {granted : Prop} {a b c : Formula α} {args : List (Formula α)}

/-- A constant that vanishes compares as zero. -/
theorem Vanishes.beq_zero {v : α} (h : c.Vanishes granted) (hc : c.asConstant = some v) :
    (v == 0) = true := by
  cases h with
  | zero hv =>
      cases hc
      exact hv
  | _ => cases hc

/-- Only the constant vanishes if nothing is granted. -/
theorem Vanishes.grants (h : c.Vanishes granted) (hc : c.isConstantValue 0 = false) : granted := by
  cases h with
  | zero hv => simp [isConstantValue, asConstant, hv] at hc
  | _ => assumption

/-- A constant that vanishes is recognised as zero by the rules. -/
theorem Vanishes.isConstantValue (h : c.Vanishes granted) (hc : c.isConstant = true) :
    c.isConstantValue 0 = true := by
  obtain ⟨v, hv⟩ := Option.isSome_iff_exists.mp hc
  rw [Formula.isConstantValue, hv]
  exact h.beq_zero hv

/-- A constant that vanishes is zero at every point. -/
theorem Vanishes.value_beq (h : c.Vanishes granted) (hc : c.isConstant = true) (ρ : Valuation α) :
    (Formula.value ρ c == 0) = true :=
  value_of_isConstantValue (h.isConstantValue hc) ρ

/-- A constant that is built of a zero vanishes. -/
theorem constant_vanishes {v : α} (hv : (v == 0) = true) :
    Yields (constant v) (Vanishes granted) :=
  .new fun _ => .zero hv

/-- Where constants are folded, the result is the folded number. -/
theorem build_of_folded {shape : Shape α (Formula α)} {rule : Option (Fresh (Formula α))} {v : α}
    (h : foldConstants shape = some v) :
    Yields (build shape rule) fun e => e.asConstant = some v := by
  rw [build, h]
  exact .new fun _ => rfl

/-- A node vanishes by its value if it is made of constants, and otherwise by its rule or by its
form. -/
theorem build_vanishes {shape : Shape α (Formula α)} {rule : Option (Fresh (Formula α))}
    (hfold : (∀ c ∈ shape.children, c.isConstant = true) →
      ∀ ρ, (value ρ (node 0 shape) == 0) = true)
    (hrule : ∀ r ∈ rule, Yields r (Vanishes granted))
    (hnew : foldConstants shape = none → rule = none → ∀ id, (node id shape).Vanishes granted) :
    Yields (build shape rule) (Vanishes granted) := by
  rw [build]
  cases hconst : foldConstants shape with
  | some v =>
      have hzero := hfold (fun c hc => isConstant_of_foldConstants hconst hc) fun _ => 0
      rw [value_of_foldConstants hconst] at hzero
      exact constant_vanishes hzero
  | none =>
      cases rule with
      | some r => exact hrule r rfl
      | none => exact .new (hnew hconst rfl)

/-! ## What the rules make of vanishing formulas -/

section Rules

omit [Scalar α] in
/-- Only a sum, a product or a length is taken apart. -/
theorem argumentsOf_of_ne {op : AssocOp} {id : NodeId} {shape : Shape α (Formula α)}
    (h : ∀ args, shape ≠ .assoc op args) : argumentsOf op (node id shape) = [node id shape] := by
  refine argumentsOf_of_not_isAssoc ?_
  cases shape with
  | assoc op' args =>
      have hne : op' ≠ op := by
        rintro rfl
        exact h args rfl
      simpa [isAssoc] using hne
  | _ => rfl

/-- What a vanishing summand is taken apart into vanishes, term by term. -/
theorem Vanishes.terms (h : c.Vanishes granted) :
    ∀ d ∈ argumentsOf .add c, d.Vanishes granted := by
  induction c using inductionOnRefs with
  | h id shape ih =>
      by_cases hsum : ∃ args, shape = .assoc .add args
      · obtain ⟨args, rfl⟩ := hsum
        cases h with
        | sum _ hargs =>
            rw [argumentsOf]
            exact forall_argumentsOfAll_of fun a ha => ih a ha (hargs a ha)
      · rw [argumentsOf_of_ne (not_exists.mp hsum)]
        simpa using h

/-- A vanishing factor is taken apart into factors of which one vanishes. -/
theorem Vanishes.factor (h : c.Vanishes granted) :
    ∃ d ∈ argumentsOf .multiply c, d.Vanishes granted := by
  induction c using inductionOnRefs with
  | h id shape ih =>
      by_cases hproduct : ∃ args, shape = .assoc .multiply args
      · obtain ⟨args, rfl⟩ := hproduct
        cases h with
        | @product _ _ a _ ha hzero =>
            obtain ⟨d, hd, hzero'⟩ := ih a ha hzero
            refine ⟨d, ?_, hzero'⟩
            rw [argumentsOf, argumentsOfAll_eq_flatMap]
            exact List.mem_flatMap.mpr ⟨a, ha, hd⟩
      · rw [argumentsOf_of_ne (not_exists.mp hproduct)]
        exact ⟨_, List.mem_singleton_self _, h⟩

/-- A sum of vanishing terms vanishes. -/
theorem sum_vanishes_of_not_constant (h : ∀ c ∈ args, c.Vanishes granted)
    (hnot : ∃ c ∈ args, c.isConstant = false) (id : NodeId) :
    (node id (.assoc .add args)).Vanishes granted := by
  obtain ⟨c, hc, hconst⟩ := hnot
  exact .sum ((h c hc).grants (isConstantValue_eq_false hconst 0)) h

/-- A constant that may stay among the factors is not zero. -/
theorem not_zero_of_isCanonical (h : isCanonical .multiply args = true) (hc : c ∈ args) :
    c.isConstantValue 0 = false := by
  by_contra hzero
  rw [Bool.not_eq_false, Formula.isConstantValue] at hzero
  split at hzero
  · next v hv =>
      have hmem : v ∈ args.filterMap asConstant := List.mem_filterMap.mpr ⟨c, hc, hv⟩
      rw [isCanonical, Bool.and_eq_true] at h
      have hadmits := h.2
      split at hadmits
      · next hnil => simp [hnil] at hmem
      · next w hw =>
          rw [hw, List.mem_singleton] at hmem
          simp [← hmem, AssocOp.admits, hzero] at hadmits
      · cases hadmits
  · cases hzero

/-- A conditional between two vanishing alternatives vanishes, whichever is selected. -/
theorem conditional_vanishes {op : ConditionalOp} (hgranted : granted) (ha : a.Vanishes granted)
    (hb : b.Vanishes granted) : Yields (conditional op c a b) (Vanishes granted) := by
  rw [conditional, ofShape_conditional]
  refine build_vanishes ?_ ?_ fun _ _ _ => .selection hgranted ha hb
  · intro hconst ρ
    rw [value]
    split
    · exact ha.value_beq (hconst a (by simp [Shape.children])) ρ
    · exact hb.value_beq (hconst b (by simp [Shape.children])) ρ
  · intro r hr
    obtain ⟨v, -, rfl⟩ := Option.map_eq_some_iff.mp hr
    split
    · exact .pure ha
    · exact .pure hb

variable [ZerosAbsorb α]

/-- The common zero vanishes. -/
theorem zero_vanishes : (zero : Formula α).Vanishes granted := .zero ZerosAbsorb.zero

/-- Zeros of either sign add up to a zero. -/
theorem sum_of_zeros {vs : List α} (h : ∀ v ∈ vs, (v == 0) = true) :
    (Scalar.sum vs == 0) = true := by
  suffices hfold : ∀ z : α, (z == 0) = true → (vs.foldl (· + ·) z == 0) = true from
    hfold _ ZerosAdd.negativeZero
  induction vs with
  | nil => exact fun z hz => hz
  | cons v vs ih =>
      intro z hz
      exact ih (fun w hw => h w (List.mem_cons_of_mem v hw)) _
        (ZerosAdd.zeros_add hz (h v List.mem_cons_self))

/-- A product of two numbers is zero with the first, and with the second if the first is
finite. -/
theorem product_of_zero {v w : α} (h : (v == 0) = true ∨ (Scalar.IsFinite v ∧ (w == 0) = true)) :
    (Scalar.productUntilZero 1 [v, w] == 0) = true := by
  simp only [Scalar.productUntilZero, ZerosAbsorb.one_mul]
  by_cases hv : (v == 0) = true
  · rw [if_pos hv]
    exact hv
  · obtain ⟨hfinite, hw⟩ := h.resolve_left hv
    rw [if_neg hv, ite_self]
    exact ZerosAbsorb.mul hfinite hw

/-- Terms that vanish are merged into a sum that does. -/
theorem flatten_sum_vanishes (h : ∀ c ∈ args, c.Vanishes granted) :
    Yields (flatten .add args) (Vanishes granted) := by
  have hflat : ∀ d ∈ argumentsOfAll .add args, d.Vanishes granted :=
    forall_argumentsOfAll_of fun c hc => (h c hc).terms
  -- the constants add up to a zero, which is dropped
  have hzero : AssocOp.add.isNeutral
      (AssocOp.add.combine ((argumentsOfAll .add args).filterMap asConstant)) = true := by
    refine sum_of_zeros fun v hv => ?_
    obtain ⟨d, hd, hconst⟩ := List.mem_filterMap.mp hv
    exact (hflat d hd).beq_zero hconst
  have hterms : ∀ d ∈ (argumentsOfAll .add args).filter fun e => !e.isConstant,
      d.Vanishes granted ∧ d.isConstant = false := by
    intro d hd
    obtain ⟨hmem, hconst⟩ := List.mem_filter.mp hd
    exact ⟨hflat d hmem, by simpa using hconst⟩
  rw [flatten, if_neg (by simp)]
  generalize (argumentsOfAll .add args).filter (fun e => !e.isConstant) = terms at hterms
  split
  · exact constant_vanishes hzero
  · next hne =>
      rw [addConstant, if_pos hzero, pure_bind]
      rcases terms with _ | ⟨d, _ | ⟨d', terms⟩⟩
      · exact absurd rfl hne
      · exact .pure (hterms d List.mem_cons_self).1
      · exact .new (sum_vanishes_of_not_constant (fun d hd => (hterms d hd).1)
          ⟨d, List.mem_cons_self, (hterms d List.mem_cons_self).2⟩)

/-- A sum of vanishing formulas vanishes. -/
theorem sum_vanishes (h : ∀ c ∈ args, c.Vanishes granted) :
    Yields (sum args) (Vanishes granted) := by
  refine build_vanishes ?_ ?_ ?_
  · intro hconst ρ
    rw [value, values_eq_map]
    refine sum_of_zeros (List.forall_mem_map.mpr fun c hc => ?_)
    exact (h c hc).value_beq (hconst c hc) ρ
  · intro r hr
    rw [assocRule] at hr
    split at hr
    · cases hr
    · rw [← Option.some.inj hr]
      exact flatten_sum_vanishes h
  · intro hfold _
    refine sum_vanishes_of_not_constant h (exists_of_foldConstants_eq_none hfold (by simp) ?_)
    rintro hnil
    obtain rfl : args = [] := hnil
    cases hfold

/-- A factor that vanishes makes the merged product vanish. -/
theorem flatten_product_vanishes (hc : c ∈ args) (h : c.Vanishes granted) :
    Yields (flatten .multiply args) (Vanishes granted) := by
  obtain ⟨d, hd, hzero⟩ : ∃ d ∈ argumentsOfAll .multiply args, d.Vanishes granted := by
    obtain ⟨d, hd, hzero⟩ := h.factor
    rw [argumentsOfAll_eq_flatMap]
    exact ⟨d, List.mem_flatMap.mpr ⟨c, hc, hd⟩, hzero⟩
  rw [flatten]
  split
  · exact .pure zero_vanishes
  · next hnone =>
      have hterm : d.isConstant = false := by
        by_contra hconst
        rw [Bool.not_eq_false] at hconst
        obtain ⟨v, hv⟩ := Option.isSome_iff_exists.mp hconst
        have hnonzero := factor_ne_zero hnone rfl v (List.mem_filterMap.mpr ⟨d, hd, hv⟩)
        rw [hzero.beq_zero hv] at hnonzero
        cases hnonzero
      have hgranted := hzero.grants (isConstantValue_eq_false hterm 0)
      have hmem : d ∈ (argumentsOfAll .multiply args).filter fun e => !e.isConstant :=
        List.mem_filter.mpr ⟨hd, by simp [hterm]⟩
      generalize (argumentsOfAll .multiply args).filter (fun e => !e.isConstant) = terms at hmem
      have hadded : Yields (addConstant .multiply (AssocOp.multiply.combine
          ((argumentsOfAll .multiply args).filterMap asConstant)) terms) fun es => d ∈ es := by
        rw [addConstant]
        split
        · exact .pure hmem
        · exact .bind (.any _) fun c _ =>
            .pure (List.mem_cons_of_mem c hmem)
      rw [if_neg (by simpa using List.ne_nil_of_mem hmem)]
      refine .bind hadded fun es hes => ?_
      rcases es with _ | ⟨e, _ | ⟨e', es⟩⟩
      · cases hes
      · rw [List.mem_singleton.mp hes] at hzero
        exact .pure hzero
      · exact .new fun id => .product hgranted hes hzero

/-- A product with a vanishing factor vanishes.  Of a product of constants this is asked for, since
a zero does not count behind an infinite number. -/
theorem product_vanishes (hc : c ∈ args) (h : c.Vanishes granted)
    (hfold : (∀ a ∈ args, a.isConstant = true) →
      ∀ ρ : Valuation α, (Scalar.productUntilZero 1 (values ρ args) == 0) = true) :
    Yields (product args) (Vanishes granted) := by
  refine build_vanishes ?_ ?_ ?_
  · intro hconst ρ
    rw [value]
    exact hfold hconst ρ
  · intro r hr
    rw [assocRule] at hr
    split at hr
    · cases hr
    · rw [← Option.some.inj hr]
      exact flatten_product_vanishes hc h
  · intro _ hrule id
    have hcanonical : isCanonical .multiply args = true := by
      by_contra hnot
      simp [assocRule, hnot] at hrule
    exact .product (h.grants (not_zero_of_isCanonical hcanonical hc)) hc h

/-- A factor that is no constant need not be watched. -/
theorem product_vanishes_of_not_zero (hc : c ∈ args) (h : c.Vanishes granted)
    (hnot : c.isConstantValue 0 = false) : Yields (product args) (Vanishes granted) := by
  refine product_vanishes hc h fun hconst => ?_
  rw [h.isConstantValue (hconst c hc)] at hnot
  cases hnot

/-- A finite constant. -/
def FiniteConstant (e : Formula α) : Prop := ∀ v ∈ e.asConstant, Scalar.IsFinite v

/-- A product vanishes if its first factor does. -/
theorem product_vanishes_left (h : a.Vanishes granted) :
    Yields (product [a, b]) (Vanishes granted) := by
  refine product_vanishes List.mem_cons_self h fun hconst ρ => product_of_zero (.inl ?_)
  exact h.value_beq (hconst a List.mem_cons_self) ρ

/-- A product vanishes if its second factor does, provided the first is not an infinite
constant. -/
theorem product_vanishes_right (ha : a.FiniteConstant) (h : b.Vanishes granted) :
    Yields (product [a, b]) (Vanishes granted) := by
  have hb : b ∈ [a, b] := List.mem_cons_of_mem a List.mem_cons_self
  refine product_vanishes hb h fun hconst ρ => product_of_zero (.inr ⟨?_, ?_⟩)
  · obtain ⟨v, hv⟩ := Option.isSome_iff_exists.mp (hconst a List.mem_cons_self)
    rw [value_of_asConstant hv]
    exact ha v hv
  · exact h.value_beq (hconst b hb) ρ

/-- The negative of what vanishes vanishes. -/
theorem negate_vanishes (h : a.Vanishes granted) : Yields (negate a) (Vanishes granted) := by
  refine build_vanishes ?_ ?_ ?_
  · intro hconst ρ
    rw [value]
    exact ZerosAbsorb.neg (h.value_beq (hconst a List.mem_cons_self) ρ)
  · intro r hr
    obtain ⟨id, shape⟩ := a
    cases h with
    | negation _ ha =>
        rw [← Option.some.inj hr]
        exact .pure ha
    | _ => cases hr
  · intro hfold _ id
    obtain ⟨c, hc, hconst⟩ :=
      exists_of_foldConstants_eq_none hfold (by simp) (by simp [Shape.children])
    rw [List.mem_singleton.mp hc] at hconst
    exact .negation (h.grants (isConstantValue_eq_false hconst 0)) h

/-- The difference of formulas that vanish vanishes. -/
theorem subtract_vanishes (ha : a.Vanishes granted) (hb : b.Vanishes granted) :
    Yields (subtract a b) (Vanishes granted) := by
  refine build_vanishes ?_ ?_ ?_
  · intro hconst ρ
    rw [value]
    exact ZerosAbsorb.sub (ha.value_beq (hconst a List.mem_cons_self) ρ)
      (hb.value_beq (hconst b (by simp [Shape.children])) ρ)
  · intro r hr
    simp only [binaryRule] at hr
    split at hr
    · rw [← Option.some.inj hr]
      exact .pure ha
    · split at hr
      · rw [← Option.some.inj hr]
        exact negate_vanishes hb
      · cases hr
  · intro _ hrule id
    have hnot : b.isConstantValue 0 = false := by
      cases hzero : b.isConstantValue 0 with
      | true => simp [binaryRule, hzero] at hrule
      | false => rfl
    exact .difference (hb.grants hnot) ha hb

/-- A quotient whose dividend vanishes vanishes. -/
theorem divide_vanishes (h : a.Vanishes granted) : Yields (divide a b) (Vanishes granted) := by
  have hrest : binaryRule .divide a b = some (pure zero) ∨ a.isConstantValue 0 = false := by
    cases ha : a.isConstantValue 0 with
    | true => exact .inl (by simp [binaryRule, ha])
    | false => exact .inr rfl
  refine build_vanishes ?_ ?_ ?_
  · intro hconst ρ
    have hzero : (value ρ a == 0) = true := h.value_beq (hconst a List.mem_cons_self) ρ
    rw [value, BinaryOp.apply, Scalar.safeDiv, if_pos (by simp [hzero])]
    exact ZerosAbsorb.zero
  · intro r hr
    rcases hrest with hzero | hnot
    · rw [hzero] at hr
      rw [← Option.some.inj hr]
      exact .pure zero_vanishes
    · simp only [binaryRule] at hr
      split at hr
      · rw [← Option.some.inj hr]
        exact .pure zero_vanishes
      · obtain ⟨divisor, -, rfl⟩ := Option.map_eq_some_iff.mp hr
        exact .bind (.any _) fun _ _ =>
          product_vanishes_of_not_zero List.mem_cons_self h hnot
  · intro _ hrule id
    rcases hrest with hzero | hnot
    · rw [hzero] at hrule
      cases hrule
    · exact .quotient (h.grants hnot) h

end Rules

/-! ## In exact arithmetic -/

section Exact

open PartialReal

variable {ρ : Valuation PartialReal}

/-- A product that has become undefined stays so. -/
theorem productUntilZero_undefined (vs : List PartialReal) :
    Scalar.productUntilZero undefined vs = undefined := by
  induction vs with
  | nil => rfl
  | cons v vs ih => simp [Scalar.productUntilZero, undefined_mul, ih]

/-- What stands before a zero may be undefined, and what stands behind it does not count. -/
theorem productUntilZero_of_mem {vs : List PartialReal} {v : PartialReal} (hv : v ∈ vs)
    (hzero : v ≠ undefined → v = real 0) (u : PartialReal)
    (h : Scalar.productUntilZero u vs ≠ undefined) : Scalar.productUntilZero u vs = real 0 := by
  induction vs generalizing u with
  | nil => cases hv
  | cons w ws ih =>
      rw [Scalar.productUntilZero] at h ⊢
      by_cases hstop : (u * w == 0) = true
      · simp only [hstop, if_true]
        exact eq_zero_of_beq hstop
      · simp only [hstop, Bool.false_eq_true, if_false] at h ⊢
        rcases List.mem_cons.mp hv with rfl | hmem
        · -- a zero stops the product, unless something before it is undefined
          have hundefined : u * v = undefined := by
            by_contra hdefined
            refine hstop ?_
            have hfactor : v ≠ undefined := by
              rintro rfl
              exact hdefined (mul_undefined u)
            obtain ⟨a, ha⟩ := exists_real (v := u) (by
              rintro rfl
              exact hdefined (undefined_mul v))
            simp [hzero hfactor, ha]
          exact absurd (by rw [hundefined, productUntilZero_undefined]) h
        · exact ih hmem _ h

/-- If all terms that are defined are zero, so is the sum, if it is defined. -/
theorem sum_of_zeros_real {vs : List PartialReal} (h : ∀ v ∈ vs, v ≠ undefined → v = real 0)
    (hdefined : Scalar.sum vs ≠ undefined) : Scalar.sum vs = real 0 := by
  rw [sum_eq] at hdefined ⊢
  induction vs with
  | nil => rfl
  | cons v vs ih =>
      rw [List.sum_cons] at hdefined ⊢
      have hv : v ≠ undefined := by
        rintro rfl
        exact hdefined (undefined_add _)
      have hvs : vs.sum ≠ undefined := by
        intro hnone
        rw [hnone] at hdefined
        exact hdefined (add_undefined v)
      rw [h v List.mem_cons_self hv, ih (fun w hw => h w (List.mem_cons_of_mem v hw)) hvs,
        real_add, add_zero]

/-- A formula that vanishes by its form has the value zero wherever it has one. -/
theorem Vanishes.value_real {d : Formula PartialReal} (h : d.Vanishes granted)
    (hdefined : value ρ d ≠ undefined) : value ρ d = real 0 := by
  induction h with
  | zero hv => exact eq_zero_of_beq hv
  | @selection id op c a b _ _ _ iha ihb =>
      rw [value] at hdefined ⊢
      split at hdefined
      · next hfirst => rw [if_pos hfirst, iha hdefined]
      · next hfirst => rw [if_neg hfirst, ihb hdefined]
  | @negation id a _ _ ih =>
      rw [value, UnaryOp.apply] at hdefined ⊢
      have ha : value ρ a ≠ undefined := by
        intro hnone
        rw [hnone] at hdefined
        exact hdefined rfl
      rw [ih ha]
      simp
  | @difference id a b _ _ _ iha ihb =>
      rw [value, BinaryOp.apply] at hdefined ⊢
      have hab : value ρ a ≠ undefined ∧ value ρ b ≠ undefined := by
        refine ⟨?_, ?_⟩ <;> intro hnone <;> rw [hnone] at hdefined
        · exact hdefined rfl
        · cases hv : value ρ a <;> rw [hv] at hdefined <;> exact hdefined rfl
      rw [iha hab.1, ihb hab.2]
      simp
  | @quotient id a b _ _ ih =>
      rw [value, BinaryOp.apply, Scalar.safeDiv] at hdefined ⊢
      split at hdefined
      · next hzero =>
          rw [if_pos hzero]
          rfl
      · next hnot =>
          have ha : value ρ a ≠ undefined := by
            intro hnone
            rw [hnone] at hdefined
            exact hdefined rfl
          exact absurd (by simp [ih ha]) hnot
  | sum _ _ ih =>
      rw [value, values_eq_map, AssocOp.apply] at hdefined ⊢
      exact sum_of_zeros_real (List.forall_mem_map.mpr ih) hdefined
  | product _ ha _ ih =>
      rw [value, values_eq_map] at hdefined ⊢
      exact productUntilZero_of_mem (List.mem_map_of_mem ha) ih 1 hdefined

end Exact

end Formula

/-! ## What is differentiated -/

namespace Shape

/-- The children whose derivatives the derivative of a node of this shape is made of. -/
def differentiated : Shape α (Formula α) → List (Formula α)
  | conditional _ _ a b => [a, b]
  | solver s => [s.body]
  | shape => shape.children

/-- Whether the rule for this shape selects between the derivatives of its children. -/
def selects : Shape α (Formula α) → Bool
  | conditional .. | binary .max .. | binary .min .. => true
  | _ => false

/-- Constants by which the rule for this shape multiplies a derivative are finite. -/
def FiniteFactors : Shape α (Formula α) → Prop
  | binary .divide a _ => a.FiniteConstant
  | binary .atan2 a b => a.FiniteConstant ∧ b.FiniteConstant
  | assoc .hypot args => ∀ a ∈ args, a.FiniteConstant
  | _ => True

omit [Scalar α] in
/-- Only children are differentiated. -/
theorem mem_children_of_mem_differentiated {shape : Shape α (Formula α)} {c : Formula α}
    (h : c ∈ shape.differentiated) : c ∈ shape.children := by
  cases shape with
  | conditional op c' a b => exact List.mem_cons_of_mem c' h
  | solver s =>
      rw [List.mem_singleton.mp h]
      exact List.mem_cons_self
  | _ => exact h

end Shape

namespace Formula

/-- All nodes that are differentiated with the formula satisfy `A`. -/
inductive Differentiates (A : NodeId → Shape α (Formula α) → Prop) : Formula α → Prop
  | node {id : NodeId} {shape : Shape α (Formula α)} (here : A id shape)
      (parts : ∀ c ∈ shape.differentiated, Differentiates A c) : Differentiates A (node id shape)

section

variable {A B : NodeId → Shape α (Formula α) → Prop} {e : Formula α}

omit [Scalar α] in
/-- What holds of all that is differentiated holds at the root. -/
theorem Differentiates.here (h : e.Differentiates A) : A e.id e.shape := by
  cases h with
  | node here _ => exact here

omit [Scalar α] in
/-- What holds of all that is differentiated holds of all there is in a part. -/
theorem Differentiates.part (h : e.Differentiates A) (hc : c ∈ e.shape.differentiated) :
    c.Differentiates A := by
  cases h with
  | node _ parts => exact parts c hc

omit [Scalar α] in
/-- What holds everywhere holds of all that is differentiated. -/
theorem Everywhere.differentiates (h : e.Everywhere A) : e.Differentiates A := by
  induction h with
  | node here _ ih =>
      exact .node here fun c hc => ih c (Shape.mem_children_of_mem_differentiated hc)

omit [Scalar α] in
/-- What follows from it holds of all that is differentiated too. -/
theorem Differentiates.imp (h : e.Differentiates A) (hAB : ∀ id shape, A id shape → B id shape) :
    e.Differentiates B := by
  induction h with
  | node here _ ih => exact .node (hAB _ _ here) ih

omit [Scalar α] in
/-- Two conditions may be asked at once. -/
theorem Differentiates.and (h : e.Differentiates A) (h' : e.Differentiates B) :
    e.Differentiates fun id shape => A id shape ∧ B id shape := by
  induction h with
  | node here _ ih => exact .node ⟨here, h'.here⟩ fun c hc => ih c hc (h'.part hc)

end

/-- Nothing is selected when the formula is differentiated. -/
abbrev SelectsNothing : Formula α → Prop :=
  Differentiates fun _ shape => shape.selects = false

/-- The variable `x` is not differentiated, and solvers only where nothing is selected. -/
structure StillAt (x id : NodeId) (shape : Shape α (Formula α)) : Prop where
  absent : ∀ name, shape = .var name → id ≠ x
  finite : shape.FiniteFactors
  body : ∀ s, shape = .solver s → s.body.SelectsNothing

/-- The formula does not move with `x`, as far as its derivative is concerned. -/
abbrev Still (x : NodeId) : Formula α → Prop := Differentiates (StillAt x)

/-! ## The rules of calculus -/

section Calculus

variable [ZerosAbsorb α] {d da db e : Formula α} {x : NodeId}

/-- The derivative of a unary function vanishes with that of its argument. -/
theorem unaryDerivative_vanishes (op : UnaryOp) (h : d.Vanishes granted) :
    Yields (unaryDerivative e op a d) (Vanishes granted) := by
  unfold unaryDerivative
  split
  · exact .pure zero_vanishes
  · next hnot =>
      have hproduct : ∀ {args : List (Formula α)}, d ∈ args →
          Yields (product args) (Vanishes granted) := fun hd =>
        product_vanishes_of_not_zero hd h (by simpa using hnot)
      cases op with
      | negate => exact negate_vanishes h
      | square => exact .bind (.any _) fun _ _ => hproduct (by simp)
      | sqrt =>
          exact .bind (.any _) fun _ _ => .bind (hproduct (by simp)) fun _ hp =>
            divide_vanishes hp
      | exp => exact hproduct (by simp)
      | log => exact divide_vanishes h
      | sin => exact .bind (.any _) fun _ _ => hproduct (by simp)
      | cos =>
          exact .bind (.any _) fun _ _ => .bind (hproduct (by simp)) fun _ hp =>
            negate_vanishes hp
      | atan =>
          exact .bind (.any _) fun _ _ => .bind (.any _) fun _ _ =>
            .bind (.any _) fun _ _ => divide_vanishes h
      | acos =>
          exact .bind (.any _) fun _ _ => .bind (.any _) fun _ _ =>
            .bind (.any _) fun _ _ => .bind (.any _) fun _ _ =>
              .bind (divide_vanishes h) fun _ hq => negate_vanishes hq
      | cosineIntegral =>
          exact .bind (.any _) fun _ _ => .bind (hproduct (by simp)) fun _ hp =>
            divide_vanishes hp
      | sineIntegral =>
          exact .bind (.any _) fun _ _ => .bind (hproduct (by simp)) fun _ hp =>
            divide_vanishes hp

/-- The derivative of a binary operation vanishes with those of its operands, unless a constant
operand is infinite, or a maximum or minimum has to select. -/
theorem binaryDerivative_vanishes (op : BinaryOp) (ha : da.Vanishes granted)
    (hb : db.Vanishes granted) (hfinite : (Shape.binary op a b).FiniteFactors)
    (hselects : granted ∨ (Shape.binary op a b).selects = false) :
    Yields (binaryDerivative op a b da db) (Vanishes granted) := by
  cases op with
  | subtract => exact subtract_vanishes ha hb
  | divide =>
      exact .bind (product_vanishes_left ha) fun _ hp =>
        .bind (product_vanishes_right hfinite hb) fun _ hq =>
          .bind (subtract_vanishes hp hq) fun _ hr =>
            .bind (.any _) fun _ _ => divide_vanishes hr
  | atan2 =>
      exact .bind (product_vanishes_right hfinite.2 ha) fun _ hp =>
        .bind (product_vanishes_right hfinite.1 hb) fun _ hq =>
          .bind (subtract_vanishes hp hq) fun _ hr =>
            .bind (.any _) fun _ _ => .bind (.any _) fun _ _ =>
              .bind (.any _) fun _ _ => divide_vanishes hr
  | max =>
      have hgranted := hselects.resolve_right (by simp [Shape.selects])
      exact .bind (.any _) fun _ _ => conditional_vanishes hgranted ha hb
  | min =>
      have hgranted := hselects.resolve_right (by simp [Shape.selects])
      exact .bind (.any _) fun _ _ => conditional_vanishes hgranted hb ha

/-- One term of the derivative vanishes with the derivative in it. -/
theorem derivativeTerm_vanishes (op : AssocOp) {before after : List (Formula α)}
    (h : d.Vanishes granted) (hfinite : op = .hypot → e.FiniteConstant) :
    Yields (derivativeTerm op before e after d) (Vanishes granted) := by
  cases op with
  | add => exact .pure h
  | multiply =>
      rw [derivativeTerm]
      split
      · exact .pure zero_vanishes
      · next hnot => exact product_vanishes_of_not_zero (by simp) h (by simpa using hnot)
  | hypot => exact product_vanishes_right (hfinite rfl) h

/-- The terms vanish together. -/
theorem assocDerivative_vanishes (op : AssocOp) {terms : List (Formula α)}
    (h : ∀ t ∈ terms, t.Vanishes granted) :
    Yields (assocDerivative e op terms) (Vanishes granted) := by
  cases op with
  | add => exact sum_vanishes h
  | multiply => exact sum_vanishes h
  | hypot => exact .bind (sum_vanishes h) fun _ hs => divide_vanishes hs

/-- The derivative of a table vanishes with that of its argument. -/
theorem tabulatedDerivative_vanishes {t : Table α (Formula α)} (h : d.Vanishes granted) :
    Yields (tabulatedDerivative t a d) (Vanishes granted) := by
  rw [tabulatedDerivative]
  split
  · exact .pure zero_vanishes
  · next hnot =>
      exact .bind (.any _) fun _ _ =>
        product_vanishes_of_not_zero (by simp) h (by simpa using hnot)

/-- What is known of a derivative for `x`: if the formula is still it vanishes, granted selections
or without any. -/
def VanishesIfStill (x : NodeId) (e d : Formula α) : Prop :=
  e.Still x → ∀ granted : Prop, granted ∨ e.SelectsNothing → d.Vanishes granted

/-- If no argument changes, all terms of the derivative vanish. -/
theorem terms_vanish {op : AssocOp} {before args terms : List (Formula α)}
    (h : DerivativeTerms VanishesIfStill x op before args terms) (hstill : ∀ a ∈ args, a.Still x)
    (hfinite : op = .hypot → ∀ a ∈ args, a.FiniteConstant)
    (hgranted : granted ∨ ∀ a ∈ args, a.SelectsNothing) : ∀ t ∈ terms, t.Vanishes granted := by
  induction h with
  | nil => simp
  | @cons before args terms e d hd n _ ih =>
      have hself : d.Vanishes granted := hd (hstill e List.mem_cons_self) granted
        (hgranted.imp_right fun h => h e List.mem_cons_self)
      refine List.forall_mem_cons.mpr ⟨?_, ?_⟩
      · exact derivativeTerm_vanishes op hself (fun h => hfinite h e List.mem_cons_self) n
      · exact ih (fun a ha => hstill a (List.mem_cons_of_mem e ha))
          (fun h a ha => hfinite h a (List.mem_cons_of_mem e ha))
          (hgranted.imp_right fun h a ha => h a (List.mem_cons_of_mem e ha))

/-- **The rules let nothing but zero through.** -/
theorem vanishesIfStill_handedOn : HandedOn (VanishesIfStill (α := α)) where
  const _ _ _ _ _ _ := zero_vanishes
  var_self x name h := absurd rfl (h.here.absent name rfl)
  var_other _ _ _ _ _ _ _ := zero_vanishes
  unary {x id op a d} h := by
    intro n hstill granted hgranted
    exact unaryDerivative_vanishes op (h (hstill.part List.mem_cons_self) granted
      (hgranted.imp_right fun h => h.part List.mem_cons_self)) n
  binary {x id op a b da db} ha hb := by
    intro n hstill granted hgranted
    have hpart : ∀ c ∈ [a, b], c.Still x ∧ (granted ∨ c.SelectsNothing) := fun c hc =>
      ⟨hstill.part hc, hgranted.imp_right fun h => h.part hc⟩
    have hleft := hpart a List.mem_cons_self
    have hright := hpart b (List.mem_cons_of_mem a List.mem_cons_self)
    exact binaryDerivative_vanishes op (ha hleft.1 granted hleft.2) (hb hright.1 granted hright.2)
      hstill.here.finite (hgranted.imp_right fun h => h.here) n
  assoc {x id op args terms} h := by
    intro n hstill granted hgranted
    refine assocDerivative_vanishes op (terms_vanish h (fun a ha => hstill.part ha) ?_
      (hgranted.imp_right fun h a ha => h.part ha)) n
    rintro rfl
    exact hstill.here.finite
  conditional {x id op c a b da db} ha hb := by
    intro n hstill granted hgranted
    have hgiven : granted := hgranted.resolve_right fun h => by cases h.here
    have hright : b ∈ [a, b] := List.mem_cons_of_mem a List.mem_cons_self
    exact conditional_vanishes hgiven (ha (hstill.part List.mem_cons_self) granted (.inl hgiven))
      (hb (hstill.part hright) granted (.inl hgiven)) n
  tabulated {x id mark t a d} h := by
    intro n hstill granted hgranted
    exact tabulatedDerivative_vanishes (h (hstill.part List.mem_cons_self) granted
      (hgranted.imp_right fun h => h.part List.mem_cons_self)) n
  solver_bound _ _ _ := zero_vanishes
  solver_level _ _ _ _ _ := zero_vanishes
  solver_slope {x id s d d' L} he _ hlevel hd hd' := by
    refine (rootSlope_builds _ he hd.known hd'.known).mono ?_
    intro _ _ _ _ hstill
    -- without selections the body has the derivative zero, and no root is looked for
    have hzero : d.Vanishes False :=
      hd.handedOn (hstill.part List.mem_cons_self) False (.inr (hstill.here.body s rfl))
    exact (hzero.grants hlevel).elim

end Calculus

/-! ## Where a zero does not count -/

section Infinite

variable {c : α} {x : NodeId}

/-- The number times zero is no zero, and a zero less that is none either. -/
def OverridesZero (c : α) : Prop :=
  ∀ z : α, (z == 0) = true → (z - Scalar.productUntilZero 1 [c, 0] == 0) = false

/-- What is known of a derivative for `x`: zero for the leaves, and not zero for the quotient of
the constant `c` by another variable. -/
def QuotientStays (c : α) (x : NodeId) : Formula α → Formula α → Prop
  | node _ (.const _), d => d = zero
  | node id (.var _), d => id ≠ x → d = zero
  | node _ (.binary .divide (node _ (.const v)) (node id (.var _))), d =>
    v = c → id ≠ x → d.isConstantValue 0 = false
  | _, _ => True

variable [ZerosAbsorb α]

/-- The quotient rule keeps a term that is not zero if the dividend is infinite. -/
theorem quotientRule_stays (hc : OverridesZero c) (ida idb : NodeId) (name : String) :
    Yields (binaryDerivative .divide (node ida (.const c)) (node idb (.var name)) zero zero)
      fun d => d.isConstantValue 0 = false := by
  have hleft : Yields (product [(zero : Formula α), node idb (.var name)]) (Vanishes False) :=
    product_vanishes_left zero_vanishes
  have hright : Yields (product [node ida (.const c), zero]) fun q =>
      q.asConstant = some (Scalar.productUntilZero 1 [c, 0]) := build_of_folded rfl
  refine .bind hleft fun p hp => .bind hright fun q hq => ?_
  obtain ⟨z, hz, hdifference⟩ : ∃ z : α, (z == 0) = true ∧ Yields (subtract p q) fun r =>
      r.asConstant = some (z - Scalar.productUntilZero 1 [c, 0]) := by
    cases hp with
    | @zero _ z hz =>
        obtain ⟨id, shape⟩ := q
        cases shape with
        | const v =>
            cases hq
            exact ⟨z, hz, build_of_folded rfl⟩
        | _ => cases hq
    | _ => contradiction
  refine .bind hdifference fun r hr => ?_
  refine .bind (P := fun s => s.isConstant = false) (.new fun _ => rfl) fun s hs => ?_
  have hnot : r.isConstantValue 0 = false := by
    rw [isConstantValue, hr]
    exact hc z hz
  have hrule : binaryRule .divide r s = none := by
    simp [binaryRule, hnot, isConstantValue_eq_false hs, asConstant_eq_none hs]
  rw [divide, binary, build_of_not_isConstant (c := s) _ (by simp [Shape.children]) hs, hrule]
  exact .new fun _ => rfl

/-- A quotient that stays is handed on from derivative to derivative. -/
theorem quotientStays_handedOn (hc : OverridesZero c) : HandedOn (QuotientStays c) where
  const _ _ _ := rfl
  var_self _ _ h := absurd rfl h
  var_other _ _ _ _ _ := rfl
  unary _ _ := trivial
  binary {x id op a b da db} ha hb n := by
    unfold QuotientStays
    split
    · next h => cases h
    · next h => cases h
    · next h =>
        cases h
        rintro rfl hx
        rw [show da = zero from ha, show db = zero from hb hx]
        exact quotientRule_stays hc _ _ _ n
    · trivial
  assoc _ _ := trivial
  conditional _ _ _ := trivial
  tabulated _ _ := trivial
  solver_bound := trivial
  solver_level _ _ := trivial
  solver_slope he _ _ hd hd' :=
    (rootSlope_builds _ he hd.known hd'.known).mono fun _ _ _ _ => trivial

open Binary64 in
/-- Infinity overrides zero: their product is undefined. -/
theorem overridesZero_infinite : OverridesZero (1 / 0 : Float) := by
  intro z _
  have hnan : Scalar.isNaN (z - Scalar.productUntilZero 1 [(1 / 0 : Float), 0]) = true :=
    isNaN_sub (.inr (by decide +kernel))
  by_contra h
  rw [Bool.not_eq_false] at h
  obtain ⟨s, hs⟩ := isZero_iff.mp h
  cases hs.symm.trans (isNaN_iff.mp hnan)

end Infinite

/-! ## Derivatives for an absent variable -/

omit [Scalar α] in
/-- If nothing is selected within the formula, nothing is in the bodies of its solvers. -/
theorem SelectsNothing.bodies {e : Formula α} (h : e.SelectsNothing) :
    e.Differentiates fun _ shape => ∀ s, shape = .solver s → s.body.SelectsNothing := by
  induction h with
  | node here parts ih =>
      refine .node ?_ ih
      rintro s rfl
      exact parts s.body List.mem_cons_self

omit [Scalar α] in
/-- A variable that does not occur is not come across by differentiation. -/
theorem differentiates_absent {e : Formula α} {x : NodeId}
    (h : ∀ name, ¬ (node x (.var name)).Within e) :
    e.Differentiates fun id shape => ∀ name, shape = .var name → id ≠ x := by
  refine Everywhere.differentiates (everywhere_of_within ?_)
  rintro ⟨id, shape⟩ hd name hname rfl
  rw [id_node, shape_node] at *
  exact h name (hname ▸ hd)

/-- **A derivative for a variable that does not occur is the constant zero** if nothing is selected
in what is differentiated, and constants that derivatives are multiplied by are finite.  Where
selections are made, though not in the bodies of solvers, it is zero by its form all the same. -/
theorem derivative_of_absent [ZerosAbsorb α] {w : Workbench α} (hw : w.Reachable)
    {e : Formula α} (he : e ∈ w.atHand) {x : NodeId}
    (habsent : ∀ name, ¬ (node x (.var name)).Within e)
    (hfinite : e.Differentiates fun _ shape => shape.FiniteFactors) :
    (e.SelectsNothing → (w.derivative e x).isConstantValue 0 = true) ∧
      ((e.Differentiates fun _ shape => ∀ s, shape = .solver s → s.body.SelectsNothing) →
        (w.derivative e x).Vanishes True) := by
  obtain ⟨L, -, hderivative⟩ := hw.isDerivative vanishesIfStill_handedOn he x
  have hstill : (e.Differentiates fun _ shape => ∀ s, shape = .solver s → s.body.SelectsNothing) →
      e.Still x := fun hbodies =>
    ((differentiates_absent habsent).and (hfinite.and hbodies)).imp fun _ _ h => ⟨h.1, h.2.1, h.2.2⟩
  refine ⟨fun hnothing => ?_, fun hbodies => ?_⟩
  · have hzero : (w.derivative e x).Vanishes False :=
      hderivative.handedOn (hstill hnothing.bodies) False (.inr hnothing)
    cases hconst : (w.derivative e x).isConstantValue 0 with
    | true => rfl
    | false => exact (hzero.grants hconst).elim
  · exact hderivative.handedOn (hstill hbodies) True (.inl trivial)

/-- The reciprocal of `x`, and the greater of the two, differentiated for `w`. -/
theorem derivative_of_absent_reciprocal :
    let x : Formula Float := node 2 (.var "x")
    let reciprocal : Formula Float := node 4 (.binary .divide one x)
    let greater : Formula Float := node 5 (.binary .max x reciprocal)
    let w := (((Workbench.start.perform (.node x.shape)).perform (.node (.var "w"))).perform
      (.node reciprocal.shape)).perform (.node greater.shape)
    w.Reachable ∧ (∀ name, ¬ (node 3 (.var name)).Within greater) ∧
      (w.derivative reciprocal 3).isConstantValue 0 = true ∧
      (w.derivative greater 3).Vanishes True := by
  intro x reciprocal greater w
  have hw : w.Reachable := by
    refine .perform (.perform (.perform (.perform .start ?_) ?_) ?_) ?_
    · simp [Workbench.Admits, x, Shape.refs, Shape.children]
    · simp [Workbench.Admits, Shape.refs, Shape.children]
    · intro r hr
      rcases List.mem_cons.mp hr with rfl | hr
      · exact .tail _ (.tail _ (.tail _ (.head _)))
      · rw [List.mem_singleton.mp hr]
        exact .tail _ (.head _)
    · intro r hr
      rcases List.mem_cons.mp hr with rfl | hr
      · exact .tail _ (.tail _ (.head _))
      · rw [List.mem_singleton.mp hr]
        exact .head _
  have habsent : ∀ name, ¬ (node 3 (.var name)).Within greater := by
    intro name h
    simp [greater, reciprocal, x, one, within_node, Shape.children] at h
  -- what is differentiated with either formula
  have hx : ∀ {A : NodeId → Shape Float (Formula Float) → Prop}, A 2 (.var "x") →
      x.Differentiates A :=
    fun h => .node h (by simp [Shape.differentiated, Shape.children])
  have hreciprocal : ∀ {A : NodeId → Shape Float (Formula Float) → Prop}, A 1 (.const 1) →
      A 2 (.var "x") → A 4 reciprocal.shape → reciprocal.Differentiates A := by
    intro A hconst hvar hself
    have hone : (one : Formula Float).Differentiates A :=
      .node hconst (by simp [Shape.differentiated, Shape.children])
    exact .node hself (by simpa [Shape.differentiated, Shape.children] using ⟨hone, hx hvar⟩)
  have hgreater : ∀ {A : NodeId → Shape Float (Formula Float) → Prop}, A 2 (.var "x") →
      reciprocal.Differentiates A → A 5 greater.shape → greater.Differentiates A := by
    intro A hvar hpart hself
    exact .node hself (by simpa [Shape.differentiated, Shape.children] using ⟨hx hvar, hpart⟩)
  have hfinite : reciprocal.Differentiates fun _ shape => shape.FiniteFactors :=
    hreciprocal trivial trivial fun v hv => by
      cases hv
      decide
  have habsent' : ∀ name, ¬ (node 3 (.var name)).Within reciprocal := fun name h =>
    habsent name (.child (List.mem_cons_of_mem x List.mem_cons_self) h)
  refine ⟨hw, habsent, ?_, ?_⟩
  · exact (derivative_of_absent hw (.tail _ (.head _)) habsent' hfinite).1
      (hreciprocal rfl rfl rfl)
  · exact (derivative_of_absent hw (.head _) habsent (hgreater trivial hfinite trivial)).2
      (hgreater (by simp) (hreciprocal (by simp) (by simp) (by simp [reciprocal]))
        (by simp [greater]))

/-- The greater of `x` and `y`, and then an infinite number divided by `x`, differentiated for
`w`. -/
theorem derivatives_of_absent_not_zero :
    let x : Formula Float := node 2 (.var "x")
    let y : Formula Float := node 3 (.var "y")
    let greater : Formula Float := node 5 (.binary .max x y)
    let infinite : Formula Float := node 6 (.const (1 / 0))
    let quotient : Formula Float := node 7 (.binary .divide infinite x)
    let w := (((Workbench.start.perform (.simple x.shape)).perform (.simple y.shape)).perform
      (.simple (.var "w"))).perform (.simple greater.shape)
    let w' := (w.perform (.simple infinite.shape)).perform (.simple quotient.shape)
    (w.Reachable ∧ greater ∈ w.atHand ∧ (∀ name, ¬ (node 4 (.var name)).Within greater) ∧
        (w.derivative greater 4).isConstantValue 0 = false) ∧
      w'.Reachable ∧ quotient ∈ w'.atHand ∧ (∀ name, ¬ (node 4 (.var name)).Within quotient) ∧
        (w'.derivative quotient 4).isConstantValue 0 = false := by
  intro x y greater infinite quotient w w'
  have hw : w.Reachable := by
    refine .perform (.perform (.perform (.perform .start ?_) ?_) ?_) ?_
    · simp [Workbench.Admits, x, Shape.refs, Shape.children]
    · simp [Workbench.Admits, y, Shape.refs, Shape.children]
    · simp [Workbench.Admits, Shape.refs, Shape.children]
    · intro r hr
      rcases List.mem_cons.mp hr with rfl | hr
      · exact .tail _ (.tail _ (.head _))
      · rw [List.mem_singleton.mp hr]
        exact .tail _ (.head _)
  have hw' : w'.Reachable := by
    refine .perform (.perform hw ?_) ?_
    · simp [Workbench.Admits, infinite, Shape.refs, Shape.children]
    · intro r hr
      rcases List.mem_cons.mp hr with rfl | hr
      · exact .head _
      · rw [List.mem_singleton.mp hr]
        exact .tail _ (.tail _ (.tail _ (.tail _ (.head _))))
  have hquotient : quotient ∈ w'.atHand := .head _
  refine ⟨⟨hw, .head _, ?_, ?_⟩, hw', hquotient, ?_, ?_⟩
  · intro name h
    simp [greater, x, y, within_node, Shape.children] at h
  · simp only [w, greater, x, y]
    cbv
  · intro name h
    simp [quotient, infinite, x, within_node, Shape.children] at h
  · obtain ⟨L, -, h⟩ :=
      hw'.isDerivative (quotientStays_handedOn overridesZero_infinite) hquotient 4
    exact h.handedOn rfl (by decide)

end Formula

end FormulaGraph
