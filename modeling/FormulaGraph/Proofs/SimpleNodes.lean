import FormulaGraph.Formula.Simplification
import FormulaGraph.Proofs.Building
import FormulaGraph.Proofs.Definedness

/-!
# What the rules of construction leave behind

The rules of construction never look at what they have built again, so what they leave has
to be in order at once.  What they leave is a constant, a node to which no rule applies, or
a sum, product or length over flattened arguments (`Flattened`), and a property that all of
these have (`LeftBehind`) is one of every node they build (`ofShape_leaves`).

A node is simple when it is a leaf or no rule applies to it.  The rules leave simple nodes
behind, with one exception: the constant that several others are combined into is tested for
being neutral, and not for being one that may stay among the arguments.  A sum never misses
the difference; a product does when numbers other than zero multiply to zero, and then keeps
a zero factor it would have been dropped for.

Such a **misfit** is a node just built, so `Settled n₀` asks of the nodes of a formula to
be simple, or misfits that were built from the number `n₀` on (`leftBehind_settled`).
-/

namespace FormulaGraph

variable {α : Type} [Scalar α]

/-- What several constants are combined into, where it is neither neutral nor one that may
stay.  The factors are all other than zero, for a zero would have been noticed. -/
structure AssocOp.Overlooks (op : AssocOp) (vs : List α) : Prop where
  notNeutral : op.isNeutral (op.combine vs) = false
  notAdmitted : op.admits (op.combine vs) = false
  factors : op = .multiply → ∀ v ∈ vs, (v == 0) = false

namespace Shape

/-- A leaf, or a node that no rule applies to. -/
def IsSimple (shape : Shape α (Formula α)) : Prop :=
  shape.children = [] ∨ Formula.rootRule shape = none

/-- A constant that may not stay was combined from others and is an argument. -/
def IsMisfit (shape : Shape α (Formula α)) : Prop :=
  ∃ op args c vs, shape = .assoc op args ∧ c ∈ args ∧ c.asConstant = some (op.combine vs) ∧
    op.Overlooks vs

end Shape

namespace Formula

/-! ## Nodes built as they stand -/

/-- Arguments after flattening: something besides constants, none of the same kind, and at
most one constant, combined from others and in its place. -/
structure Flattened (op : AssocOp) (args : List (Formula α)) : Prop where
  notAssoc : ∀ e ∈ args, e.isAssoc op = false
  notConstant : ∃ e ∈ args, e.isConstant = false
  constants : args.filterMap asConstant = [] ∨ ∃ c vs, constantPlace? op args = some c ∧
    c.asConstant = some (op.combine vs) ∧ args.filterMap asConstant = [op.combine vs] ∧
    op.isNeutral (op.combine vs) = false ∧ (op = .multiply → ∀ v ∈ vs, (v == 0) = false)

/-- A property of all that the rules leave behind: of constants, of nodes to which no rule
applies, and of flattened sums, products and lengths with a number from `n₀` on. -/
structure LeftBehind (n₀ : NodeId) (B : NodeId → Shape α (Formula α) → Prop) : Prop where
  const : ∀ id v, B id (.const v)
  final : ∀ id shape, rootRule shape = none → B id shape
  flat : ∀ id op args, n₀ ≤ id → Flattened op args → (op = .hypot ∨ 2 ≤ args.length) →
    B id (.assoc op args)

variable {n₀ : NodeId} {B : NodeId → Shape α (Formula α) → Prop}

omit [Scalar α] in
/-- What is no constant has no constant value. -/
theorem asConstant_eq_none {c : Formula α} (h : c.isConstant = false) : c.asConstant = none := by
  simpa [isConstant] using h

/-- What is no constant compares with no number. -/
theorem isConstantValue_eq_false {c : Formula α} (h : c.isConstant = false) (v : α) :
    c.isConstantValue v = false := by
  rw [isConstantValue, asConstant_eq_none h]

/-- What is not made of constants is not folded. -/
theorem foldConstants_eq_none {shape : Shape α (Formula α)} {c : Formula α}
    (hc : c ∈ shape.children) (h : c.isConstant = false) : foldConstants shape = none := by
  have hall : shape.children.all isConstant = false := by
    rw [List.all_eq_false]
    exact ⟨c, hc, by simp [h]⟩
  cases shape <;> simp_all [foldConstants]

/-- An operation on constants is folded. -/
theorem foldConstants_of_isConstant {shape : Shape α (Formula α)} (hshape : shape.IsOperation)
    (hleaf : ∀ v, shape ≠ .const v) (h : ∀ c ∈ shape.children, c.isConstant = true) :
    foldConstants shape = some (value (fun _ => Scalar.nan) (node 0 shape)) := by
  have hall : shape.children.all isConstant = true := List.all_eq_true.mpr h
  cases shape with
  | const v => exact absurd rfl (hleaf v)
  | var name => exact hshape.elim
  | tabulated mark t a => exact hshape.elim
  | solver s => exact hshape.elim
  | _ => exact if_pos hall

/-- What is not made of constants alone is built by its rule, or as it stands. -/
theorem build_of_not_isConstant {shape : Shape α (Formula α)} {c : Formula α}
    (rule : Option (Fresh (Formula α))) (hc : c ∈ shape.children) (h : c.isConstant = false) :
    build shape rule = rule.getD (new shape) := by
  rw [build, foldConstants_eq_none hc h]

/-- Where constants can be folded, all children are constants. -/
theorem isConstant_of_foldConstants {shape : Shape α (Formula α)} {c : Formula α} {v : α}
    (h : foldConstants shape = some v) (hc : c ∈ shape.children) : c.isConstant = true := by
  by_contra hnot
  rw [foldConstants_eq_none hc (by simpa using hnot)] at h
  cases h

/-- A shape to which no rule applies is not folded. -/
theorem foldConstants_eq_none_of_rootRule {shape : Shape α (Formula α)}
    (h : rootRule shape = none) : foldConstants shape = none := by
  unfold rootRule at h
  split at h
  · cases h
  · assumption

/-- A property of what is left behind holds of constants. -/
theorem LeftBehind.leaf (hB : LeftBehind n₀ B) (id : NodeId) (v : α) :
    (node id (.const v)).Everywhere B :=
  .node (hB.const id v) (by simp [Shape.children])

/-- Building a constant leaves the property everywhere. -/
theorem constant_leaves (hB : LeftBehind n₀ B) (v : α) :
    YieldsFrom n₀ (constant v) (Everywhere B) :=
  .new fun id _ => hB.leaf id v

omit [Scalar α] in
/-- Building a node leaves the property everywhere, if the node has it and its children have it
everywhere. -/
theorem new_leaves {shape : Shape α (Formula α)} (hchildren : ∀ c ∈ shape.children, c.Everywhere B)
    (h : ∀ id, n₀ ≤ id → B id shape) : YieldsFrom n₀ (new shape) (Everywhere B) :=
  .new fun id hid => .node (h id hid) hchildren

/-- Folding, applying a rule and building the node as it stands each leave the property
everywhere. -/
theorem build_leaves (hB : LeftBehind n₀ B) {shape : Shape α (Formula α)}
    {rule : Option (Fresh (Formula α))} (hchildren : ∀ c ∈ shape.children, c.Everywhere B)
    (hrule : ∀ r ∈ rule, YieldsFrom n₀ r (Everywhere B))
    (hroot : foldConstants shape = none → rootRule shape = rule) :
    YieldsFrom n₀ (build shape rule) (Everywhere B) := by
  rw [build]
  cases hfold : foldConstants shape with
  | some v => exact constant_leaves hB v
  | none =>
      cases rule with
      | some r => exact hrule r rfl
      | none => exact new_leaves hchildren fun id _ => hB.final id shape (hroot hfold)

/-! ## Sums, products and lengths -/

omit [Scalar α] in
/-- What is no such sum, product or length is its own only argument. -/
theorem argumentsOf_of_not_isAssoc {op : AssocOp} {e : Formula α} (h : e.isAssoc op = false) :
    argumentsOf op e = [e] := by
  obtain ⟨id, shape⟩ := e
  cases shape with
  | assoc inner args => rw [argumentsOf, if_neg (by simpa [isAssoc] using h)]
  | _ => rfl

omit [Scalar α] in
/-- Flattening leaves no argument of the same kind. -/
theorem not_isAssoc_argumentsOf (op : AssocOp) (e : Formula α) :
    ∀ d ∈ argumentsOf op e, d.isAssoc op = false := by
  induction e using inductionOnRefs with
  | h id shape ih =>
      cases shape with
      | assoc inner args =>
          rw [argumentsOf]
          split
          · exact forall_argumentsOfAll_of fun a ha => ih a ha
          · next hne => simpa [isAssoc] using hne
      | _ => simp [argumentsOf, isAssoc]

omit [Scalar α] in
/-- What arguments are taken apart into is not taken apart further. -/
theorem not_isAssoc_argumentsOfAll (op : AssocOp) (es : List (Formula α)) :
    ∀ d ∈ argumentsOfAll op es, d.isAssoc op = false :=
  forall_argumentsOfAll_of fun e _ => not_isAssoc_argumentsOf op e

omit [Scalar α] in
/-- The constant in its place is one of the arguments. -/
theorem mem_of_constantPlace {op : AssocOp} {args : List (Formula α)} {c : Formula α}
    (h : constantPlace? op args = some c) : c ∈ args := by
  cases op with
  | multiply => exact List.mem_of_mem_head? h
  | add => exact List.mem_of_mem_getLast? h
  | hypot => exact List.mem_of_mem_getLast? h

/-- There are several flattened arguments where a single one would not stand. -/
theorem Flattened.length {op : AssocOp} {args : List (Formula α)} (h : Flattened op args)
    (hsingle : ∀ e, args = [e] → op = .hypot) : op = .hypot ∨ 2 ≤ args.length := by
  cases args with
  | nil =>
      obtain ⟨e, he, -⟩ := h.notConstant
      cases he
  | cons e rest =>
      cases rest with
      | nil => exact .inl (hsingle e rfl)
      | cons _ _ => exact .inr (by simp)

/-- Terms without constants, with the combined constant in its place among them, are flattened.
-/
theorem addConstant_flattens (hB : LeftBehind n₀ B) (op : AssocOp) {vs : List α}
    {terms : List (Formula α)}
    (hterms : ∀ e ∈ terms, e.Everywhere B) (hassoc : ∀ e ∈ terms, e.isAssoc op = false)
    (hconst : ∀ e ∈ terms, e.isConstant = false) (hne : terms ≠ [])
    (hfactors : op = .multiply → ∀ v ∈ vs, (v == 0) = false) :
    YieldsFrom n₀ (addConstant op (op.combine vs) terms)
      fun args => (∀ e ∈ args, e.Everywhere B) ∧ Flattened op args := by
  have hnone : terms.filterMap asConstant = [] := by
    rw [List.filterMap_eq_nil_iff]
    exact fun e he => by simpa [isConstant] using hconst e he
  obtain ⟨e, he⟩ := List.exists_mem_of_ne_nil terms hne
  rw [addConstant]
  split
  · exact .pure ⟨hterms, hassoc, ⟨e, he, hconst e he⟩, .inl hnone⟩
  · next hneutral =>
      have hnew : YieldsFrom n₀ (constant (op.combine vs)) fun c =>
          c.Everywhere B ∧ c.asConstant = some (op.combine vs) ∧ c.isAssoc op = false :=
        .new fun _ _ => ⟨hB.leaf _ _, rfl, rfl⟩
      refine .bind hnew ?_
      rintro c ⟨hc, hvalue, hcAssoc⟩
      have hplaced : ∀ {args}, (∀ e', e' ∈ args ↔ e' = c ∨ e' ∈ terms) →
          constantPlace? op args = some c → args.filterMap asConstant = [op.combine vs] →
          (∀ e ∈ args, e.Everywhere B) ∧ Flattened op args := by
        intro args hmem hplace hone
        refine ⟨?_, ?_, ⟨e, (hmem e).mpr (.inr he), hconst e he⟩,
          .inr ⟨c, vs, hplace, hvalue, hone, by simpa using hneutral, hfactors⟩⟩
        · intro e' he'
          rcases (hmem e').mp he' with rfl | he'
          · exact hc
          · exact hterms e' he'
        · intro e' he'
          rcases (hmem e').mp he' with rfl | he'
          · exact hcAssoc
          · exact hassoc e' he'
      cases op with
      | multiply => exact .pure (hplaced (by simp) rfl (by simp [hvalue, hnone]))
      | add => exact .pure (hplaced (by simp [or_comm]) (by simp [constantPlace?])
          (by simp [hvalue, hnone]))
      | hypot => exact .pure (hplaced (by simp [or_comm]) (by simp [constantPlace?])
          (by simp [hvalue, hnone]))

/-- The constants of a product without a zero are other than zero. -/
theorem factor_ne_zero {op : AssocOp} {vs : List α}
    (h : ¬(op == .multiply && vs.any (· == 0)) = true) :
    op = .multiply → ∀ v ∈ vs, (v == 0) = false := by
  rintro rfl v hv
  have hnone : vs.any (· == 0) = false := by
    simpa only [beq_self_eq_true, Bool.true_and, Bool.not_eq_true] using h
  simpa using List.any_eq_false.mp hnone v hv

/-- Flattening leaves the property everywhere, if the arguments have it everywhere. -/
theorem flatten_leaves (hB : LeftBehind n₀ B) (op : AssocOp) {args : List (Formula α)}
    (hargs : ∀ e ∈ args, e.Everywhere B) : YieldsFrom n₀ (flatten op args) (Everywhere B) := by
  have hflat : ∀ e ∈ argumentsOfAll op args, e.Everywhere B :=
    forall_argumentsOfAll op (fun _ _ _ he _ ha => he.child ha) hargs
  rw [flatten]
  split
  · exact .pure (hB.leaf _ _)
  · next hzero =>
      split
      · exact constant_leaves hB _
      · next hempty =>
          refine .bind (addConstant_flattens hB op (fun e he => hflat e (List.mem_filter.mp he).1)
            (fun e he => not_isAssoc_argumentsOfAll op args e (List.mem_filter.mp he).1)
            (fun e he => by simpa using (List.mem_filter.mp he).2) (by simpa using hempty)
            (factor_ne_zero hzero)) ?_
          rintro terms ⟨hterms, hflattened⟩
          split
          · exact .pure (hterms _ List.mem_cons_self)
          · exact .pure (hterms _ List.mem_cons_self)
          · next hadd hmultiply =>
              have hlength : op = .hypot ∨ 2 ≤ terms.length := by
                refine hflattened.length ?_
                intro e hsingle
                cases op with
                | add => exact (hadd e rfl hsingle).elim
                | multiply => exact (hmultiply e rfl hsingle).elim
                | hypot => rfl
              exact new_leaves hterms fun id hid => hB.flat id op terms hid hflattened hlength

/-- The factories of sums, products and lengths leave the property everywhere. -/
theorem assoc_leaves (hB : LeftBehind n₀ B) (op : AssocOp) {args : List (Formula α)}
    (hargs : ∀ e ∈ args, e.Everywhere B) : YieldsFrom n₀ (assoc op args) (Everywhere B) := by
  refine build_leaves hB hargs ?_ fun hfold => by rw [rootRule, hfold]
  intro r hr
  rw [assocRule] at hr
  split at hr
  · cases hr
  · exact Option.some.inj hr ▸ flatten_leaves hB op hargs

/-! ## Squares -/

/-- Squaring several formulas leaves the property everywhere, if squaring each of them does. -/
theorem squares_leave_of {es : List (Formula α)}
    (h : ∀ e ∈ es, e.Everywhere B → YieldsFrom n₀ (square e) (Everywhere B))
    (hes : ∀ e ∈ es, e.Everywhere B) :
    YieldsFrom n₀ (squares es) fun ss => ∀ s ∈ ss, s.Everywhere B := by
  induction es with
  | nil => exact .pure (by simp)
  | cons e es ih =>
      rw [squares]
      refine .bind (h e List.mem_cons_self (hes e List.mem_cons_self)) ?_
      intro s hs
      refine .bind (ih (fun e' h' => h e' (List.mem_cons_of_mem e h'))
        fun e' h' => hes e' (List.mem_cons_of_mem e h')) ?_
      intro ss hss
      exact .pure (by simpa using ⟨hs, hss⟩)

/-- The square of a formula is a constant, a sum of squares, or a simple node. -/
theorem square_leaves (hB : LeftBehind n₀ B) (e : Formula α) (he : e.Everywhere B) :
    YieldsFrom n₀ (square e) (Everywhere B) := by
  induction e using inductionOnRefs with
  | h id shape ih =>
      have hnew : (node id shape).isConstant = false →
          unaryRule .square (node id shape) = none →
          YieldsFrom n₀ (new (.unary .square (node id shape))) (Everywhere B) := by
        intro hconst hrule
        refine new_leaves (by simpa [Shape.children] using he) fun id' _ => hB.final id' _ ?_
        rw [rootRule, foldConstants_eq_none (by simp [Shape.children]) hconst]
        exact hrule
      cases shape with
      | const v => exact constant_leaves hB _
      | assoc op args =>
          cases op with
          | hypot =>
              rw [square]
              refine .bind (squares_leave_of (fun e h he => ih e h he) fun e h => he.child h) ?_
              exact fun es hes => assoc_leaves hB .add hes
          | add => exact hnew rfl rfl
          | multiply => exact hnew rfl rfl
      | _ => exact hnew rfl rfl

/-! ## One argument, two arguments -/

/-- The factories of unary functions leave the property everywhere. -/
theorem unary_leaves (hB : LeftBehind n₀ B) (op : UnaryOp) {a : Formula α} (ha : a.Everywhere B) :
    YieldsFrom n₀ (unary op a) (Everywhere B) := by
  have hinner : ∀ {op inner}, a.shape = .unary op inner → inner.Everywhere B := by
    intro op inner hshape
    refine ha.child ?_
    rw [children, hshape]
    exact List.mem_cons_self
  refine build_leaves hB (by simpa [Shape.children] using ha) ?_ fun hfold => by
    rw [rootRule, hfold]
  intro r hr
  unfold unaryRule at hr
  split at hr
  · next hshape => exact Option.some.inj hr ▸ .pure (hinner hshape)
  · next hshape => exact Option.some.inj hr ▸ .pure (hinner hshape)
  · next hshape => exact Option.some.inj hr ▸ .pure (hinner hshape)
  · exact Option.some.inj hr ▸ square_leaves hB a ha
  · cases hr

/-- The factories of binary operations leave the property everywhere. -/
theorem binary_leaves (hB : LeftBehind n₀ B) (op : BinaryOp) {a b : Formula α} (ha : a.Everywhere B)
    (hb : b.Everywhere B) : YieldsFrom n₀ (binary op a b) (Everywhere B) := by
  refine build_leaves hB (by simpa [Shape.children] using ⟨ha, hb⟩) ?_ fun hfold => by
    rw [rootRule, hfold]
  intro r hr
  cases op with
  | subtract =>
      simp only [binaryRule] at hr
      split at hr
      · exact Option.some.inj hr ▸ .pure ha
      · split at hr
        · exact Option.some.inj hr ▸ unary_leaves hB .negate hb
        · cases hr
  | divide =>
      simp only [binaryRule] at hr
      split at hr
      · exact Option.some.inj hr ▸ .pure (hB.leaf _ _)
      · obtain ⟨divisor, _, rfl⟩ := Option.map_eq_some_iff.mp hr
        refine .bind (constant_leaves hB _) ?_
        intro c hc
        exact assoc_leaves hB .multiply (by simpa using ⟨ha, hc⟩)
  | atan2 => cases hr
  | max => cases hr
  | min => cases hr

/-! ## All shapes -/

/-- **What the rules leave behind.**  If all nodes within the children of a shape have the
property, so have all nodes within the simple node for the shape. -/
theorem ofShape_leaves (hB : LeftBehind n₀ B) {shape : Shape α (Formula α)}
    (hchildren : ∀ c ∈ shape.children, c.Everywhere B) :
    YieldsFrom n₀ (ofShape shape) (Everywhere B) := by
  cases shape with
  | unary op a =>
      rw [ofShape_unary]
      exact unary_leaves hB op (hchildren a (by simp [Shape.children]))
  | binary op a b =>
      rw [ofShape_binary]
      exact binary_leaves hB op (hchildren a (by simp [Shape.children]))
        (hchildren b (by simp [Shape.children]))
  | assoc op args =>
      rw [ofShape_assoc]
      exact assoc_leaves hB op hchildren
  | conditional op c a b =>
      rw [ofShape_conditional]
      refine build_leaves hB hchildren ?_ fun hfold => by rw [rootRule, hfold]
      intro r hr
      obtain ⟨v, _, rfl⟩ := Option.map_eq_some_iff.mp hr
      refine .pure ?_
      split
      · exact hchildren a (by simp [Shape.children])
      · exact hchildren b (by simp [Shape.children])
  | tabulated mark t a =>
      rw [ofShape_tabulated]
      exact build_leaves hB hchildren (by simp) fun hfold => by rw [rootRule, hfold]
  | const v => exact constant_leaves hB v
  | var name => exact new_leaves hchildren fun id _ => hB.final id _ rfl
  | solver s => exact new_leaves hchildren fun id _ => hB.final id _ rfl

/-! ## Simple nodes and misfits -/

/-- Over flattened arguments, a sum, a product or a length is simple or a misfit. -/
theorem Flattened.simple_or_misfit {op : AssocOp} {args : List (Formula α)}
    (h : Flattened op args) (hlength : op = .hypot ∨ 2 ≤ args.length) :
    (Shape.assoc op args).IsSimple ∨ (Shape.assoc op args).IsMisfit := by
  obtain ⟨e, he, hconst⟩ := h.notConstant
  have hall : args.all isConstant = false := by
    rw [List.all_eq_false]
    exact ⟨e, he, by simp [hconst]⟩
  have hany : args.any (isAssoc op) = false := by
    rw [List.any_eq_false]
    exact fun e he => by simp [h.notAssoc e he]
  have hsimple : isCanonical op args = true → (Shape.assoc op args).IsSimple := by
    intro hcanonical
    refine .inr ?_
    rw [rootRule, foldConstants_eq_none he hconst]
    simp [assocRule, hcanonical]
  have hcount : (op == .hypot || decide (2 ≤ args.length)) = true := by
    rcases hlength with rfl | h
    · rfl
    · simp [h]
  rcases h.constants with hnone | ⟨c, vs, hplace, hc, hone, hneutral, hfactors⟩
  · exact .inl (hsimple (by simp [isCanonical, hall, hany, hcount, hnone]))
  · by_cases hadmits : op.admits (op.combine vs) = true
    · refine .inl (hsimple ?_)
      simp [isCanonical, hall, hany, hcount, hone, hplace, hadmits, isConstant, hc]
    · exact .inr ⟨op, args, c, vs, rfl, mem_of_constantPlace hplace, hc, hneutral,
        by simpa using hadmits, hfactors⟩

/-- All nodes are simple, or misfits built from the number `n₀` on. -/
abbrev Settled (n₀ : NodeId) : Formula α → Prop :=
  Everywhere fun id shape => shape.IsSimple ∨ n₀ ≤ id ∧ shape.IsMisfit

/-- The rules leave simple nodes behind, and misfits only among those they build. -/
theorem leftBehind_settled (n₀ : NodeId) : LeftBehind (α := α) n₀ fun id shape =>
    shape.IsSimple ∨ n₀ ≤ id ∧ shape.IsMisfit where
  const _ _ := .inl (.inl rfl)
  final _ _ h := .inl (.inr h)
  flat _ _ _ hid h hlength := (h.simple_or_misfit hlength).imp_right fun h => ⟨hid, h⟩

end Formula

end FormulaGraph
