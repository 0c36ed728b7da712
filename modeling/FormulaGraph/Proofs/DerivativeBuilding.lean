import FormulaGraph.Formula.Derivative
import FormulaGraph.Proofs.Replacing

/-!
# The rules of calculus build known nodes

From members the rules for the derivatives of operations put together members.
No property of operations covers the nodes of tables and solvers.  The derivative of
a table is a member if the derivative supplied with it is one, or the table of
differences over the same argument; that of a solver is at least known.
-/

namespace FormulaGraph

variable {α : Type} [Scalar α] {L : Ledger α}

namespace Formula

variable {A : Formula α → Prop}

section Rules

variable (hA : AdmitsOperations A)

include hA

/-- By the chain rule, every derivative of a unary function is a product of the derivative of
the argument and of formulas built from the argument and from the node itself. -/
theorem unaryDerivative_builds {e a d : Formula α} (op : UnaryOp) (he : e.Member A L)
    (ha : a.Member A L) (hd : d.Member A L) :
    Builds (unaryDerivative e op a d) L fun L' d' => d'.Member A L' := by
  unfold unaryDerivative
  split
  · exact .pure (zero_member hA)
  · cases op with
    | negate => exact unary_builds hA .negate hd
    | square =>
        refine .bind (constant_builds hA _) fun L' two hL htwo => ?_
        exact assoc_builds hA .multiply (by simpa using ⟨htwo, ha.mono hL, hd.mono hL⟩)
    | sqrt =>
        refine .bind (constant_builds hA _) fun L' half hL hhalf => ?_
        refine .bind (pair_builds hA .multiply hhalf (hd.mono hL)) fun L'' p hL' hp => ?_
        exact binary_builds hA .divide hp (he.mono (hL.trans hL'))
    | exp => exact pair_builds hA .multiply he hd
    | log => exact binary_builds hA .divide hd ha
    | sin =>
        refine .bind (unary_builds hA .cos ha) fun L' c hL hc => ?_
        exact pair_builds hA .multiply hc (hd.mono hL)
    | cos =>
        refine .bind (unary_builds hA .sin ha) fun L' c hL hc => ?_
        refine .bind (pair_builds hA .multiply hc (hd.mono hL)) fun L'' p _ hp => ?_
        exact unary_builds hA .negate hp
    | atan =>
        refine .bind (square_builds hA a ha) fun L' s hL hs => ?_
        refine .bind (constant_builds hA _) fun L'' c hL' hc => ?_
        refine .bind (pair_builds hA .add (hs.mono hL') hc) fun L₃ q hL₃ hq => ?_
        exact binary_builds hA .divide (hd.mono ((hL.trans hL').trans hL₃)) hq
    | acos =>
        refine .bind (constant_builds hA _) fun L' c hL hc => ?_
        refine .bind (square_builds hA a (ha.mono hL)) fun L'' s hL' hs => ?_
        refine .bind (binary_builds hA .subtract (hc.mono hL') hs) fun L₃ q hL₃ hq => ?_
        refine .bind (unary_builds hA .sqrt hq) fun L₄ r hL₄ hr => ?_
        refine .bind (binary_builds hA .divide (hd.mono (((hL.trans hL').trans hL₃).trans hL₄)) hr)
          fun L₅ p _ hp => ?_
        exact unary_builds hA .negate hp
    | cosineIntegral =>
        refine .bind (unary_builds hA .cos ha) fun L' c hL hc => ?_
        refine .bind (pair_builds hA .multiply hc (hd.mono hL)) fun L'' p hL' hp => ?_
        exact binary_builds hA .divide hp (ha.mono (hL.trans hL'))
    | sineIntegral =>
        refine .bind (unary_builds hA .sin ha) fun L' c hL hc => ?_
        refine .bind (pair_builds hA .multiply hc (hd.mono hL)) fun L'' p hL' hp => ?_
        exact binary_builds hA .divide hp (ha.mono (hL.trans hL'))

/-- A conditional is built from members, whichever branch it will select. -/
theorem conditional_builds {op : ConditionalOp} {c a b : Formula α} (hc : c.Member A L)
    (ha : a.Member A L) (hb : b.Member A L) :
    Builds (conditional op c a b) L fun L' d => d.Member A L' := by
  have hmember : ∀ d ∈ (Shape.conditional op c a b : Shape α (Formula α)).children,
      d.Member A L := by
    simpa [Shape.children] using ⟨hc, ha, hb⟩
  exact ofShape_builds hA hmember (operation_builds hA trivial hmember)

/-- Sums, differences, products and quotients of members and of their derivatives are built for
a binary operation. -/
theorem binaryDerivative_builds {a b da db : Formula α} (op : BinaryOp) (ha : a.Member A L)
    (hb : b.Member A L) (hda : da.Member A L) (hdb : db.Member A L) :
    Builds (binaryDerivative op a b da db) L fun L' d => d.Member A L' := by
  cases op with
  | subtract => exact binary_builds hA .subtract hda hdb
  | divide =>
      refine .bind (pair_builds hA .multiply hda hb) fun L₁ p hL₁ hp => ?_
      refine .bind (pair_builds hA .multiply (ha.mono hL₁) (hdb.mono hL₁)) fun L₂ q hL₂ hq => ?_
      refine .bind (binary_builds hA .subtract (hp.mono hL₂) hq) fun L₃ s hL₃ hs => ?_
      refine .bind (square_builds hA b (hb.mono ((hL₁.trans hL₂).trans hL₃)))
        fun L₄ t hL₄ ht => ?_
      exact binary_builds hA .divide (hs.mono hL₄) ht
  | atan2 =>
      refine .bind (pair_builds hA .multiply hb hda) fun L₁ p hL₁ hp => ?_
      refine .bind (pair_builds hA .multiply (ha.mono hL₁) (hdb.mono hL₁)) fun L₂ q hL₂ hq => ?_
      refine .bind (binary_builds hA .subtract (hp.mono hL₂) hq) fun L₃ s hL₃ hs => ?_
      have hL := (hL₁.trans hL₂).trans hL₃
      refine .bind (square_builds hA a (ha.mono hL)) fun L₄ t hL₄ ht => ?_
      refine .bind (square_builds hA b (hb.mono (hL.trans hL₄))) fun L₅ u hL₅ hu => ?_
      refine .bind (pair_builds hA .add (ht.mono hL₅) hu) fun L₆ w hL₆ hw => ?_
      exact binary_builds hA .divide (hs.mono ((hL₄.trans hL₅).trans hL₆)) hw
  | max =>
      refine .bind (binary_builds hA .subtract ha hb) fun L' c hL hc => ?_
      exact conditional_builds hA hc (hda.mono hL) (hdb.mono hL)
  | min =>
      refine .bind (binary_builds hA .subtract ha hb) fun L' c hL hc => ?_
      exact conditional_builds hA hc (hdb.mono hL) (hda.mono hL)

/-- One term of the derivative of a sum, a product or a length is built from all arguments and
from the derivative of one. -/
theorem derivativeTerm_builds (op : AssocOp) {before after : List (Formula α)} {e d : Formula α}
    (hbefore : ∀ b ∈ before, b.Member A L) (he : e.Member A L)
    (hafter : ∀ a ∈ after, a.Member A L) (hd : d.Member A L) :
    Builds (derivativeTerm op before e after d) L fun L' t => t.Member A L' := by
  cases op with
  | add => exact .pure hd
  | multiply =>
      simp only [derivativeTerm]
      split
      · exact .pure (zero_member hA)
      · exact assoc_builds hA .multiply
          (List.forall_mem_append.mpr ⟨hbefore, List.forall_mem_cons.mpr ⟨hd, hafter⟩⟩)
  | hypot => exact pair_builds hA .multiply he hd

/-- The terms are put together: a length divides their sum by itself, the others add them. -/
theorem assocDerivative_builds {e : Formula α} (op : AssocOp) {terms : List (Formula α)}
    (he : e.Member A L) (hterms : ∀ t ∈ terms, t.Member A L) :
    Builds (assocDerivative e op terms) L fun L' d => d.Member A L' := by
  cases op with
  | add => exact assoc_builds hA .add hterms
  | multiply => exact assoc_builds hA .add hterms
  | hypot =>
      refine .bind (assoc_builds hA .add hterms) fun L' s hL hs => ?_
      exact binary_builds hA .divide hs (he.mono hL)

end Rules

/-! ## Tables and solvers -/

/-- The derivative of a table is the supplied one or the table of the differences, times that of
the argument. -/
theorem tabulatedDerivative_builds {A : Formula α → Prop} (hA : AdmitsOperations A)
    {mark : NodeId} {t : Table α (Formula α)} {a d : Formula α}
    (hrefs : ∀ r ∈ (Shape.tabulated mark t a).refs, r.KnownTo L)
    (hsupplied : ∀ e ∈ t.derivative, A e)
    (hdifferences : t.derivative = none →
      ∀ id mark, A (node id (.tabulated mark t.finiteDifference a)))
    (hd : d.Member A L) :
    Builds (tabulatedDerivative t a d) L fun L' d' => d'.Member A L' := by
  have ha : a.KnownTo L := hrefs a List.mem_cons_self
  have htable : Builds (tableDerivative t a) L fun L' e => e.Member A L' := by
    rw [tableDerivative]
    cases hgiven : t.derivative with
    | some e => exact .pure ⟨hrefs e (by simp [Shape.refs, hgiven]), hsupplied e hgiven⟩
    | none =>
        refine .bind (Builds.identity (P := fun L' _ => L.Extends L') L.extends_skip) ?_
        intro L' mark' _ hL
        rw [ofShape_tabulated]
        refine build_builds hA (by simp) (new_builds (fun id => hdifferences hgiven id mark') ?_)
        simpa [Shape.refs, Table.finiteDifference] using ha.mono hL
  rw [tabulatedDerivative]
  split
  · exact .pure (zero_member hA)
  · refine .bind htable fun L' e hL he => ?_
    exact pair_builds hA .multiply he (hd.mono hL)

/-- The slope of a root is built from the derivatives by the variable and by the bound variable.
-/
theorem rootSlope_builds {e byVariable byBound : Formula α} (bound : NodeId)
    (he : e.KnownTo L) (hv : byVariable.KnownTo L) (hb : byBound.KnownTo L) :
    Builds (rootSlope e bound byVariable byBound) L fun L' d => d.KnownTo L' := by
  have hA := trivial_admitsOperations (α := α)
  refine .bind (binary_builds hA .divide (member_trivial hv)
    (member_trivial hb)) fun L₁ q hL₁ hq => ?_
  refine .bind (unary_builds hA .negate hq) fun L₂ n hL₂ hn => ?_
  exact substitute_known (by simpa using he.mono (hL₁.trans hL₂)) hn.known

end Formula

end FormulaGraph
