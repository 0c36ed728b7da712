import FormulaGraph.Formula.Rendering
import FormulaGraph.Proofs.Binary64Neutral
import FormulaGraph.Proofs.SimplifiedShape
import FormulaGraph.Proofs.Unfolding

/-!
# Sums whose first argument is a sum

What the rules make of a sum depends on two things only: the arguments other than constants that
are left when nested sums are spread out, its **terms**, and the number its constants amount to.
The result is that number, or the only term, or a sum of the terms with the number behind them
unless it is zero (`IsSumOf`).

A sum that stands first in another one is therefore spread out without a trace.  The number it
amounts to is either handed on as a constant, and then the addition goes on where the inner sum
left it, or it was a zero and dropped, and then the addition begins anew: from there on the two
additions agree at the first number other than zero, and both are zero if there is none
(`Scalar.ZeroOr`).  This asks little of the numbers (`ZerosAdd`), and the machine's have it.

Text is the same up to the labels of constants: the rules replace constants by new ones.
-/

namespace FormulaGraph

/-- Zeros of either sign change no other number, add up to a zero, and the negative one changes
no number at all. -/
class ZerosAdd (α : Type) [Scalar α] : Prop where
  negativeZero : ((Scalar.negativeZero : α) == 0) = true
  neutral : ∀ v : α, Scalar.negativeZero + v = v
  zero_add : ∀ {z v : α}, (z == 0) = true → (v == 0) = false → z + v = v
  zeros_add : ∀ {z w : α}, (z == 0) = true → (w == 0) = true → (z + w == 0) = true

/-- Whole numbers have one zero, and it changes none of them. -/
instance : ZerosAdd Int where
  negativeZero := rfl
  neutral v := by
    show -0 + v = v
    omega
  zero_add {z v} hz _ := by
    obtain rfl : z = 0 := by simpa using hz
    exact Int.zero_add v
  zeros_add {z w} hz hw := by
    obtain rfl : z = 0 := by simpa using hz
    simpa using hw

open Binary64 in
/-- Sums of binary numbers begin at the negative zero, which changes nothing. -/
instance : ZerosAdd Float where
  negativeZero := isZero_iff.mpr ⟨.negative, rfl⟩
  neutral := negativeZero_add
  zero_add {z v} hz hv := by
    obtain ⟨s, hs⟩ := isZero_iff.mp hz
    have hother : ∀ s', unpacked v ≠ .zero s' := fun s' hs' =>
      Bool.noConfusion (hv.symm.trans (isZero_iff.mpr ⟨s', hs'⟩))
    refine unpacked_injective ?_
    rw [unpacked_add, hs, zero_add_unpacked s hother, stored_unpacked]
  zeros_add {z w} hz hw := by
    obtain ⟨s, hs⟩ := isZero_iff.mp hz
    obtain ⟨s', hs'⟩ := isZero_iff.mp hw
    refine isZero_iff.mpr ⟨if s == s' then s else .positive, ?_⟩
    rw [unpacked_add, hs, hs']
    cases s <;> cases s' <;> rfl

variable {α : Type} [Scalar α]

namespace Scalar

/-- The numbers are one, or zeros both. -/
def ZeroOr (v w : α) : Prop := v = w ∨ ((v == 0) = true ∧ (w == 0) = true)

/-- Zeros of either sign compare alike. -/
theorem ZeroOr.beq_zero {v w : α} (h : ZeroOr v w) : (v == 0) = (w == 0) := by
  obtain rfl | ⟨hv, hw⟩ := h
  · rfl
  · rw [hv, hw]

variable [ZerosAdd α]

/-- One more number is added to both. -/
theorem ZeroOr.add {v w : α} (h : ZeroOr v w) (u : α) : ZeroOr (v + u) (w + u) := by
  obtain rfl | ⟨hv, hw⟩ := h
  · exact .inl rfl
  · cases hu : u == 0 with
    | true => exact .inr ⟨ZerosAdd.zeros_add hv hu, ZerosAdd.zeros_add hw hu⟩
    | false => exact .inl ((ZerosAdd.zero_add hv hu).trans (ZerosAdd.zero_add hw hu).symm)

/-- Adding the same numbers keeps them equal, or zeros both. -/
theorem ZeroOr.foldl {v w : α} (h : ZeroOr v w) (us : List α) :
    ZeroOr (us.foldl (· + ·) v) (us.foldl (· + ·) w) := by
  induction us generalizing v w with
  | nil => exact h
  | cons u us ih => exact ih (h.add u)

/-- The sum of one number is the number. -/
theorem sum_singleton (v : α) : Scalar.sum [v] = v := ZerosAdd.neutral v

omit [ZerosAdd α] in
/-- A sum goes on where its first part ends. -/
theorem sum_append (vs us : List α) :
    Scalar.sum (vs ++ us) = us.foldl (· + ·) (Scalar.sum vs) :=
  List.foldl_append

/-- An addition that hands on what it amounts to goes on from there. -/
theorem sum_cons (v : α) (us : List α) : Scalar.sum (v :: us) = us.foldl (· + ·) v := by
  rw [show v :: us = [v] ++ us from rfl, sum_append, sum_singleton]

end Scalar

namespace Formula

open Scalar

/-! ## Terms and constants of a sum -/

/-- The arguments of a sum when nested sums are spread out, without the constants. -/
def sumTerms (args : List (Formula α)) : List (Formula α) :=
  (argumentsOfAll .add args).filter fun e => !e.isConstant

/-- The constants of a sum when nested sums are spread out. -/
def sumConstants (args : List (Formula α)) : List α :=
  (argumentsOfAll .add args).filterMap asConstant

/-- Arguments as flattening leaves them: neither constants nor sums. -/
def AreTerms (terms : List (Formula α)) : Prop :=
  ∀ e ∈ terms, e.isConstant = false ∧ e.isAssoc .add = false

omit [Scalar α] in
/-- The terms of a sum are not sums, and no constants. -/
theorem areTerms_sumTerms (args : List (Formula α)) : AreTerms (sumTerms args) := by
  intro e he
  obtain ⟨hmem, hconst⟩ := List.mem_filter.mp he
  exact ⟨by simpa using hconst, not_isAssoc_argumentsOfAll .add args e hmem⟩

omit [Scalar α] in
/-- Terms are collected from left to right. -/
theorem sumTerms_append (xs ys : List (Formula α)) :
    sumTerms (xs ++ ys) = sumTerms xs ++ sumTerms ys := by
  simp [sumTerms, argumentsOfAll_eq_flatMap]

omit [Scalar α] in
/-- Constants are collected from left to right. -/
theorem sumConstants_append (xs ys : List (Formula α)) :
    sumConstants (xs ++ ys) = sumConstants xs ++ sumConstants ys := by
  simp [sumConstants, argumentsOfAll_eq_flatMap]

omit [Scalar α] in
/-- Where no argument is of the same kind, there is nothing to spread out. -/
theorem argumentsOfAll_of_not_isAssoc {op : AssocOp} {args : List (Formula α)}
    (h : ∀ e ∈ args, e.isAssoc op = false) : argumentsOfAll op args = args := by
  rw [argumentsOfAll_eq_flatMap,
    List.flatMap_congr (g := fun e => [e]) fun e he => argumentsOf_of_not_isAssoc (h e he)]
  exact List.flatMap_singleton' args

/-! ## What becomes of a sum -/

/-- What the rules make of a sum with these terms whose constants amount to `v`.  The sum and
the constants beside its terms carry no label. -/
inductive IsSumOf (labels : Labels) (terms : List (Formula α)) (v : α) : Formula α → Prop
  | constant {id : NodeId} (hterms : terms = []) (hid : labels id = none) :
      IsSumOf labels terms v (node id (.const v))
  | single {e : Formula α} (hterms : terms = [e]) (hv : (v == 0) = true) :
      IsSumOf labels terms v e
  | several {id : NodeId} (hterms : 2 ≤ terms.length) (hv : (v == 0) = true)
      (hid : labels id = none) : IsSumOf labels terms v (node id (.assoc .add terms))
  | constantLast {id c : NodeId} (hterms : terms ≠ []) (hv : (v == 0) = false)
      (hid : labels id = none) (hc : labels c = none) :
      IsSumOf labels terms v (node id (.assoc .add (terms ++ [node c (.const v)])))

variable {labels : Labels} {n₀ : NodeId} {terms : List (Formula α)} {v w : α} {e e' : Formula α}

/-- The parts of a flattened sum, as a sum around it finds them. -/
theorem IsSumOf.constants (h : IsSumOf labels terms v e) (hterms : AreTerms terms) :
    sumTerms [e] = terms ∧
      (sumConstants [e] = [v] ∨ terms ≠ [] ∧ (v == 0) = true ∧ sumConstants [e] = []) := by
  have hargs : argumentsOfAll .add terms = terms :=
    argumentsOfAll_of_not_isAssoc fun e he => (hterms e he).2
  have hkept : terms.filter (fun e => !e.isConstant) = terms :=
    List.filter_eq_self.mpr fun e he => by simp [(hterms e he).1]
  have hnone : terms.filterMap asConstant = [] :=
    List.filterMap_eq_nil_iff.mpr fun e he => by simpa [isConstant] using (hterms e he).1
  cases h with
  | constant hempty hid => exact ⟨by rw [hempty]; rfl, .inl rfl⟩
  | single hsingle hv =>
      rw [sumTerms, sumConstants, ← hsingle, hargs]
      exact ⟨hkept, .inr ⟨by simp [hsingle], hv, hnone⟩⟩
  | @several id hlength hv hid =>
      have hspread : argumentsOfAll .add [node id (.assoc .add terms)] = terms := by
        simp [argumentsOfAll, argumentsOf, hargs]
      rw [sumTerms, sumConstants, hspread]
      refine ⟨hkept, .inr ⟨?_, hv, hnone⟩⟩
      rintro rfl
      simp at hlength
  | @constantLast id c hne hv hid hc =>
      have hlast : ∀ e ∈ terms ++ [node c (.const v)], e.isAssoc .add = false := by
        simpa [or_imp, forall_and, isAssoc] using fun e he => (hterms e he).2
      have hspread : argumentsOfAll .add [node id (.assoc .add (terms ++ [node c (.const v)]))] =
          terms ++ [node c (.const v)] := by
        simp [argumentsOfAll, argumentsOf, argumentsOfAll_of_not_isAssoc hlast]
      rw [sumTerms, sumConstants, hspread, List.filter_append, List.filterMap_append, hkept, hnone]
      exact ⟨by simp [isConstant, asConstant], .inl rfl⟩

/-- A sum around it finds no labelled constant in its place. -/
theorem IsSumOf.unlabelled (h : IsSumOf labels terms v e) (hterms : AreTerms terms)
    (hconst : e.isConstant = true) : labels e.id = none := by
  cases h with
  | constant hempty hid => exact hid
  | single hsingle hv =>
      rw [(hterms e (by simp [hsingle])).1] at hconst
      cases hconst
  | several hlength hv hid => exact hid
  | constantLast hne hv hid hc => exact hid

/-! ### Text -/

section Text

variable [ScalarText α] (marked : Bool) (depth : Nat)

omit [Scalar α] [ScalarText α] in
/-- A node without a label is shown without one. -/
theorem labelAt_eq_none {id : NodeId} (h : labels id = none) (depth : Nat)
    (shape : Shape α (Formula α)) : labelAt labels depth (node id shape) = none := by
  rw [labelAt, id_node, h, ite_self]

/-- A sum is written with its terms, each enclosed for its place. -/
theorem text_sum {id : NodeId} (h : labels id = none) (args : List (Formula α)) :
    (node id (.assoc .add args)).text labels marked depth = " + ".intercalate (args.map fun e =>
      enclose labels (depth - 1) .add e (e.text labels marked (depth - 1))) := by
  simp only [text, labelAt_eq_none h, texts_eq_map, encloseAll_map]

/-- The number of a constant without label does not show. -/
theorem enclose_constant {c c' : NodeId} (hc : labels c = none) (hc' : labels c' = none)
    (place : Priority) :
    enclose labels depth place (node c (.const v)) ((node c (.const v)).text labels marked depth) =
      enclose labels depth place (node c' (.const v))
        ((node c' (.const v)).text labels marked depth) := by
  simp only [enclose, text, labelAt_eq_none hc, labelAt_eq_none hc', priority, shape_node]

/-- **What becomes of a sum renders alike if the terms and the number are alike.** -/
theorem IsSumOf.text_eq (h : IsSumOf labels terms v e) (h' : IsSumOf labels terms w e')
    (hsame : ZeroOr v w) (hconstant : terms = [] → v = w) :
    e.text labels marked depth = e'.text labels marked depth := by
  have hzero : (v == 0) = (w == 0) := hsame.beq_zero
  cases h with
  | constant hempty hid =>
      obtain rfl := hconstant hempty
      cases h' with
      | constant _ hid' => rw [text, text, labelAt_eq_none hid, labelAt_eq_none hid']
      | single hsingle _ => simp [hempty] at hsingle
      | several hlength _ _ => simp [hempty] at hlength
      | constantLast hne _ _ _ => exact absurd hempty hne
  | single hsingle hv =>
      cases h' with
      | constant hempty _ => simp [hempty] at hsingle
      | single hsingle' _ =>
          obtain rfl : e = e' := by simpa using hsingle.symm.trans hsingle'
          rfl
      | several hlength _ _ => simp [hsingle] at hlength
      | constantLast _ hw _ _ => simp [← hzero, hv] at hw
  | several hlength hv hid =>
      cases h' with
      | constant hempty _ => simp [hempty] at hlength
      | single hsingle _ => simp [hsingle] at hlength
      | several _ _ hid' => rw [text_sum marked depth hid, text_sum marked depth hid']
      | constantLast _ hw _ _ => simp [← hzero, hv] at hw
  | constantLast hne hv hid hc =>
      obtain rfl : v = w := hsame.resolve_right fun hzeros => by simp [hv] at hzeros
      cases h' with
      | constant hempty _ => exact absurd hempty hne
      | single _ hw => simp [hv] at hw
      | several _ hw _ => simp [hv] at hw
      | constantLast _ _ hid' hc' =>
          rw [text_sum marked depth hid, text_sum marked depth hid', List.map_append,
            List.map_append, List.map_singleton, List.map_singleton,
            enclose_constant marked (depth - 1) hc hc']

end Text

/-! ### Building -/

/-- Numbers from `n₀` on are new, and new nodes have no labels. -/
def LabelledBefore (labels : Labels) (n₀ : NodeId) : Prop := ∀ id, n₀ ≤ id → labels id = none

omit [Scalar α] in
/-- What is neither empty nor a single term has two. -/
theorem two_le_length (hne : terms ≠ []) (hsingle : ∀ e, terms ≠ [e]) : 2 ≤ terms.length := by
  have hpos := List.length_pos_iff.mpr hne
  have hone : terms.length ≠ 1 := fun h => by
    obtain ⟨e, he⟩ := List.length_eq_one_iff.mp h
    exact hsingle e he
  omega

/-- Flattening nested sums builds the sum of all terms and of the folded constants. -/
theorem flatten_sums (hnew : LabelledBefore labels n₀) (args : List (Formula α)) :
    YieldsFrom n₀ (flatten .add args)
      (IsSumOf labels (sumTerms args) (Scalar.sum (sumConstants args))) := by
  have hnoZero : (AssocOp.add == AssocOp.multiply) = false := rfl
  have hterms : (argumentsOfAll .add args).filter (fun e => !e.isConstant) = sumTerms args := rfl
  have hconstants : AssocOp.add.combine ((argumentsOfAll .add args).filterMap asConstant) =
      Scalar.sum (sumConstants args) := rfl
  rw [flatten, hnoZero, Bool.false_and, if_neg Bool.false_ne_true, hterms, hconstants]
  generalize sumTerms args = terms
  generalize Scalar.sum (sumConstants args) = v
  split
  · next hempty =>
      exact .new fun id hid => .constant (by simpa using hempty) (hnew id hid)
  · next hempty =>
      have hne : terms ≠ [] := by simpa using hempty
      rw [addConstant]
      split
      · next hneutral =>
          refine .bind (P := fun ts => ts = terms) (.pure rfl) ?_
          rintro ts rfl
          split
          · exact .pure (.single rfl hneutral)
          · exact .pure (.single rfl hneutral)
          · next hsingle _ =>
              have hlength := two_le_length hne fun e he => hsingle e rfl he
              exact .new fun id hid => .several hlength hneutral (hnew id hid)
      · next hneutral =>
          have hlast : YieldsFrom n₀ (constant v) fun c =>
              ∃ id, labels id = none ∧ c = node id (.const v) :=
            .new fun id hid => ⟨id, hnew id hid, rfl⟩
          refine .bind (P := fun ts => ∃ c, labels c = none ∧ ts = terms ++ [node c (.const v)])
            (.bind hlast ?_) ?_
          · rintro _ ⟨c, hc, rfl⟩
            exact .pure ⟨c, hc, rfl⟩
          · rintro _ ⟨c, hc, rfl⟩
            have hv : (v == 0) = false := Bool.not_eq_true _ ▸ hneutral
            split
            · next hsingle => exact absurd (by simpa using congrArg List.length hsingle) hne
            · next hsingle => exact absurd (by simpa using congrArg List.length hsingle) hne
            · exact .new fun id hid => .constantLast hne hv (hnew id hid) hc

variable [ZerosAdd α]

/-- Arguments that need no flattening become the sum that flattening would make of them. -/
theorem isSumOf_of_isCanonical {args : List (Formula α)} (h : isCanonical .add args = true)
    (hargs : ∀ c ∈ args, c.isConstant = true → labels c.id = none) {id : NodeId}
    (hid : labels id = none) :
    IsSumOf labels (sumTerms args) (Scalar.sum (sumConstants args))
      (node id (.assoc .add args)) := by
  simp only [isCanonical, Bool.and_eq_true] at h
  obtain ⟨⟨⟨hall, hcount⟩, hnested⟩, hconstants⟩ := h
  have hcount : 2 ≤ args.length := by simpa using hcount
  have hspread : argumentsOfAll .add args = args :=
    argumentsOfAll_of_not_isAssoc (by simpa using hnested)
  rw [sumTerms, sumConstants, hspread]
  split at hconstants
  · next hnone =>
      have hterms : args.filter (fun e => !e.isConstant) = args :=
        List.filter_eq_self.mpr fun e he => by simp [filterMap_asConstant_eq_nil hnone he]
      rw [hnone, hterms]
      exact .several hcount ZerosAdd.negativeZero hid
  · next v hone =>
      obtain ⟨hplace, hv⟩ := Bool.and_eq_true_iff.mp hconstants
      obtain ⟨c, hc, hconst⟩ := (Option.any_eq_true _ _).mp hplace
      obtain ⟨init, rfl⟩ := List.getLast?_eq_some_iff.mp hc
      obtain ⟨w, hw⟩ := eq_const_of_isConstant hconst
      have hid' : labels c.id = none := hargs c (by simp) hconst
      rw [hw] at hone ⊢
      have hlast : [node c.id (.const w)].filterMap asConstant = [w] := rfl
      have hsplit : init.filterMap asConstant ++ [w] = [] ++ [v] := by
        rw [← hlast, ← List.filterMap_append, hone, List.nil_append]
      obtain ⟨hnone, hwv⟩ := List.append_inj' hsplit rfl
      obtain rfl : w = v := by simpa using hwv
      have hterms : init.filter (fun e => !e.isConstant) = init :=
        List.filter_eq_self.mpr fun e he => by simp [filterMap_asConstant_eq_nil hnone he]
      have hvalue : Scalar.sum [w] = w := sum_singleton w
      have hne : init ≠ [] := by
        rintro rfl
        simp at hcount
      rw [hone, List.filter_append, hterms, hvalue,
        show [node c.id (.const w)].filter (fun e => !e.isConstant) = [] from rfl, List.append_nil]
      exact .constantLast hne (by simpa [AssocOp.admits] using hv) hid hid'
  · cases hconstants

omit [ZerosAdd α] in
/-- A sum of constants only has no other terms, and is folded to their sum. -/
theorem foldConstants_sum {args : List (Formula α)}
    (h : foldConstants (.assoc .add args) = some v) :
    sumTerms args = [] ∧ v = Scalar.sum (sumConstants args) := by
  have hall : ∀ e ∈ args, e.isConstant = true := by
    by_contra hnot
    push Not at hnot
    obtain ⟨e, he, hconst⟩ := hnot
    have hfold : foldConstants (.assoc .add args) = none :=
      foldConstants_eq_none he (by simpa using hconst)
    exact absurd (h.symm.trans hfold) (by simp)
  have hspread : argumentsOfAll .add args = args := argumentsOfAll_of_not_isAssoc fun e he => by
    obtain ⟨w, hw⟩ := eq_const_of_isConstant (hall e he)
    rw [hw]
    rfl
  have hvalues : ∀ ρ, args.map (value ρ) = args.filterMap asConstant := by
    intro ρ
    rw [← List.filterMap_eq_map]
    refine List.filterMap_congr fun e he => ?_
    obtain ⟨w, hw⟩ := eq_const_of_isConstant (hall e he)
    rw [hw, asConstant, Function.comp_apply, value]
  rw [sumTerms, sumConstants, hspread]
  refine ⟨List.filter_eq_nil_iff.mpr fun e he => by simp [hall e he], ?_⟩
  rw [← value_of_foldConstants h (fun _ => Scalar.nan) 0, value, values_eq_map, hvalues]
  rfl

/-- **What the rules make of a sum depends on its terms and on what its constants amount to.** -/
theorem sum_sums (hnew : LabelledBefore labels n₀) {args : List (Formula α)}
    (hargs : ∀ c ∈ args, c.isConstant = true → labels c.id = none) :
    YieldsFrom n₀ (sum args)
      (IsSumOf labels (sumTerms args) (Scalar.sum (sumConstants args))) := by
  rw [sum, assoc, build]
  cases hfold : foldConstants (.assoc .add args) with
  | some v =>
      obtain ⟨hterms, rfl⟩ := foldConstants_sum hfold
      exact .new fun id hid => .constant hterms (hnew id hid)
  | none =>
      show YieldsFrom n₀ ((assocRule .add args).getD (new (.assoc .add args))) _
      rw [assocRule]
      split
      · next hcanonical =>
          exact .new fun id hid => isSumOf_of_isCanonical hcanonical hargs (hnew id hid)
      · exact flatten_sums hnew args

/-- The sum of a sum and further arguments. -/
def sumOntoSum (ys zs : List (Formula α)) : Fresh (Formula α) := do
  sum ((← sum ys) :: zs)

/-- What the inner sum becomes leads the outer one to the terms, and to the amount, that the
arguments of both lead to. -/
theorem IsSumOf.spreads {ys : List (Formula α)} {s : Formula α}
    (h : IsSumOf labels (sumTerms ys) (Scalar.sum (sumConstants ys)) s) (zs : List (Formula α)) :
    sumTerms (s :: zs) = sumTerms (ys ++ zs) ∧
      ZeroOr (Scalar.sum (sumConstants (s :: zs))) (Scalar.sum (sumConstants (ys ++ zs))) ∧
      (sumTerms (ys ++ zs) = [] →
        Scalar.sum (sumConstants (s :: zs)) = Scalar.sum (sumConstants (ys ++ zs))) := by
  obtain ⟨hterms, hconstants⟩ := h.constants (areTerms_sumTerms ys)
  rw [show s :: zs = [s] ++ zs from rfl, sumTerms_append, sumTerms_append, hterms,
    sumConstants_append, sumConstants_append]
  refine ⟨rfl, ?_⟩
  obtain hone | ⟨hne, hzero, hnone⟩ := hconstants
  · -- The number is handed on.
    have hsame : Scalar.sum (sumConstants [s] ++ sumConstants zs) =
        Scalar.sum (sumConstants ys ++ sumConstants zs) := by
      rw [hone, List.singleton_append, sum_cons, sum_append]
    exact ⟨.inl hsame, fun _ => hsame⟩
  · -- The number was a zero, dropped beside the terms.
    have hsame : ZeroOr (Scalar.sum (sumConstants [s] ++ sumConstants zs))
        (Scalar.sum (sumConstants ys ++ sumConstants zs)) := by
      rw [hnone, List.nil_append, sum_append, Scalar.sum]
      exact ZeroOr.foldl (.inr ⟨ZerosAdd.negativeZero, hzero⟩) _
    exact ⟨hsame, fun hempty => absurd (List.append_eq_nil_iff.mp hempty).1 hne⟩

/-- Under labels that new nodes and constants do not carry, the nested and the flat sum have one
text. -/
theorem sumOntoSum_text [ScalarText α] (ys zs : List (Formula α)) {n m : NodeId}
    (hnew : LabelledBefore labels n₀) (hn : n₀ ≤ n) (hm : n₀ ≤ m)
    (hargs : ∀ c ∈ ys ++ zs, c.isConstant = true → labels c.id = none) (marked : Bool)
    (depth : Nat) :
    ((sumOntoSum ys zs).run n).1.text labels marked depth =
      ((sum (ys ++ zs)).run m).1.text labels marked depth := by
  have hflat := (sum_sums hnew hargs m hm).2
  have hinner : YieldsFrom n₀ (sum ys)
      (IsSumOf labels (sumTerms ys) (Scalar.sum (sumConstants ys))) :=
    sum_sums hnew fun c hc => hargs c (List.mem_append_left zs hc)
  have hnested : YieldsFrom n₀ (sumOntoSum ys zs) fun e => ∃ v,
      IsSumOf labels (sumTerms (ys ++ zs)) v e ∧
      ZeroOr v (Scalar.sum (sumConstants (ys ++ zs))) ∧
      (sumTerms (ys ++ zs) = [] → v = Scalar.sum (sumConstants (ys ++ zs))) := by
    refine .bind hinner fun s hs => ?_
    obtain ⟨hterms, hsame⟩ := hs.spreads zs
    have houter : ∀ c ∈ s :: zs, c.isConstant = true → labels c.id = none := by
      intro c hc hconst
      obtain rfl | hc := List.mem_cons.mp hc
      · exact hs.unlabelled (areTerms_sumTerms ys) hconst
      · exact hargs c (List.mem_append_right ys hc) hconst
    rw [← hterms] at hsame ⊢
    exact fun k hk => ⟨(sum_sums hnew houter k hk).1, _, (sum_sums hnew houter k hk).2, hsame⟩
  obtain ⟨v, hv, hsame, hempty⟩ := (hnested n hn).2
  exact hv.text_eq marked depth hflat hsame hempty

/-- **A sum that stands first in another one is spread out without a trace**: the two sums
render alike, whichever numbers their nodes are given. -/
theorem sumOntoSum_renders [ScalarText α] (ys zs : List (Formula α)) (n m : NodeId) :
    let nested := ((sumOntoSum ys zs).run n).1
    let flat := ((sum (ys ++ zs)).run m).1
    nested.display = flat.display ∧ nested.signature = flat.signature ∧
      ∀ labels : Labels, LabelledBefore labels (min n m) →
        (∀ c ∈ ys ++ zs, c.isConstant = true → labels c.id = none) →
        ∀ depth, nested.render labels depth = flat.render labels depth := by
  have hplain : LabelledBefore (fun _ => none) (min n m) := fun _ _ => rfl
  have htext := fun marked => sumOntoSum_text ys zs hplain (Nat.min_le_left n m)
    (Nat.min_le_right n m) (fun _ _ _ => rfl) marked fullDepth
  exact ⟨htext false, htext true, fun labels hnew hargs depth =>
    sumOntoSum_text ys zs hnew (Nat.min_le_left n m) (Nat.min_le_right n m) hargs false depth⟩

/-- The machine's numbers, with constants in both sums that cancel out. -/
theorem sumOntoSum_renders_canceled :
    let x : Formula Float := node 2 (.var "x")
    let ys := [x, node 3 (.assoc .add [x, node 4 (.const 1)])]
    let zs := [node 5 (.const (-1))]
    ((sumOntoSum ys zs).run 6).1.display = ((sum (ys ++ zs)).run 9).1.display :=
  (sumOntoSum_renders _ _ 6 9).1

example :
    let x : Formula Int := node 2 (.var "x")
    ((sumOntoSum [x, node 3 (.assoc .add [x, node 4 (.const 1)])]
      [node 5 (.const (-1))]).run 6).1.display = "x + x" := by decide

end Formula

end FormulaGraph
