import FormulaGraph.Proofs.PartialReal
import FormulaGraph.Proofs.Passes
import FormulaGraph.Proofs.SimpleNodes
import FormulaGraph.Scalar.Binary64

/-!
# Simplifying twice

A formula that is simple throughout is its own simplified formula, and no other is: what
simplifying leaves is simple, misfits apart, and a misfit is always a new node.  So a
simplified formula is simplified once and for all, unless a constant was left among its
arguments that may not stay there (`simplify_twice`).

On numbers that never multiply to zero by themselves that does not happen.  Where products
are rounded it does: a product of small constants becomes a factor zero, and the second time
the whole product goes (`simplify_vanishing`), as it does for `1e-200` times `1e-200` times `x`
among the machine's numbers.  A product that keeps a factor zero is the only way for it to happen.
-/

namespace FormulaGraph

variable {α : Type} [Scalar α]

/-- A length is positive if it is neither zero nor undefined. -/
def Scalar.LengthsPositive (α : Type) [Scalar α] : Prop :=
  ∀ vs : List α, (Scalar.hypot vs == 0) = true ∨ Scalar.less 0 (Scalar.hypot vs) = true ∨
    Scalar.isNaN (Scalar.hypot vs) = true

/-- Besides, numbers other than zero have a product other than zero. -/
structure Scalar.NeverVanishes (α : Type) [Scalar α] : Prop where
  lengths : Scalar.LengthsPositive α
  product : ∀ vs : List α, (∀ v ∈ vs, (v == 0) = false) → (Scalar.product vs == 0) = false

/-- What is overlooked is a product of factors that is zero though none of them is. -/
theorem AssocOp.Overlooks.eq_multiply {op : AssocOp} {vs : List α} (h : op.Overlooks vs)
    (hα : Scalar.LengthsPositive α) : op = .multiply ∧ (op.combine vs == 0) = true := by
  obtain ⟨hneutral, hadmits, -⟩ := h
  cases op with
  | add => simp_all [AssocOp.isNeutral, AssocOp.admits]
  | multiply => simp_all [AssocOp.isNeutral, AssocOp.admits]
  | hypot =>
      have hlength := hα vs
      simp_all [AssocOp.isNeutral, AssocOp.admits, AssocOp.combine]

theorem Scalar.NeverVanishes.not_overlooks (h : Scalar.NeverVanishes α) (op : AssocOp)
    (vs : List α) : ¬ op.Overlooks vs := by
  intro hoverlooks
  obtain ⟨rfl, hzero⟩ := hoverlooks.eq_multiply h.lengths
  have hproduct := h.product vs (hoverlooks.factors rfl)
  rw [AssocOp.combine, hproduct] at hzero
  cases hzero

/-- Exact numbers never vanish. -/
theorem PartialReal.neverVanishes : Scalar.NeverVanishes PartialReal where
  product vs h := by
    have hreal : ∀ x : ℝ, (real x == 0) = false ↔ x ≠ 0 := fun x =>
      Bool.eq_false_iff.trans (not_congr (beq_real x 0))
    rw [product_eq]
    induction vs with
    | nil => exact (hreal 1).mpr one_ne_zero
    | cons v vs ih =>
        have hv := h v List.mem_cons_self
        have hvs := ih fun w hw => h w (List.mem_cons_of_mem v hw)
        rw [List.prod_cons]
        cases v with
        | undefined => rw [undefined_mul, undefined_beq]
        | real x =>
            cases hprod : vs.prod with
            | undefined => rw [mul_undefined, undefined_beq]
            | real y =>
                rw [hprod, hreal] at hvs
                rw [real_mul, hreal]
                exact mul_ne_zero ((hreal x).mp hv) hvs
  lengths vs := by
    rw [Scalar.hypot]
    cases Scalar.sum (vs.map fun v => v * v) with
    | undefined => exact .inr (.inr rfl)
    | real x =>
        by_cases hx : 0 ≤ x
        · rw [sqrt_real hx]
          rcases (Real.sqrt_nonneg x).eq_or_lt with hzero | hpos
          · exact .inl ((beq_real _ _).mpr hzero.symm)
          · exact .inr (.inl ((less_real _ _).mpr hpos))
        · exact .inr (.inr (congrArg Scalar.isNaN (if_neg hx)))

namespace Shape

/-- Every constant among the arguments of a sum, a product or a length may stay there. -/
def ConstantsStay (shape : Shape α (Formula α)) : Prop :=
  ∀ op args, shape = .assoc op args → ∀ c ∈ args, ∀ v, c.asConstant = some v → op.admits v = true

/-- A product with a factor zero. -/
def KeepsZero (shape : Shape α (Formula α)) : Prop :=
  ∃ args c v, shape = .assoc .multiply args ∧ c ∈ args ∧ c.asConstant = some v ∧ (v == 0) = true

theorem ConstantsStay.not_keepsZero {shape : Shape α (Formula α)} (h : shape.ConstantsStay) :
    ¬ shape.KeepsZero := by
  rintro ⟨args, c, v, rfl, hc, hv, hzero⟩
  have hadmits := h .multiply args rfl c hc v hv
  simp [AssocOp.admits, hzero] at hadmits

theorem IsMisfit.keepsZero {shape : Shape α (Formula α)} (h : shape.IsMisfit)
    (hα : Scalar.LengthsPositive α) : shape.KeepsZero := by
  obtain ⟨op, args, c, vs, rfl, hc, hv, hoverlooks⟩ := h
  obtain ⟨rfl, hzero⟩ := hoverlooks.eq_multiply hα
  exact ⟨args, c, _, rfl, hc, hv, hzero⟩

/-- The arguments of a simple sum, product or length need no flattening. -/
theorem IsSimple.canonical {op : AssocOp} {args : List (Formula α)}
    (h : (Shape.assoc op args).IsSimple) (hne : args ≠ []) :
    Formula.isCanonical op args = true := by
  have hrule := h.resolve_left hne
  rw [Formula.rootRule, Formula.foldConstants_eq_none_of_rootRule hrule] at hrule
  by_contra hnot
  simp [Formula.assocRule, hnot] at hrule

theorem IsSimple.constantsStay {shape : Shape α (Formula α)} (h : shape.IsSimple) :
    shape.ConstantsStay := by
  rintro op args rfl c hc v hv
  have hmem : v ∈ args.filterMap Formula.asConstant := List.mem_filterMap.mpr ⟨c, hc, hv⟩
  obtain ⟨_, hconstants⟩ := Bool.and_eq_true_iff.mp (h.canonical (List.ne_nil_of_mem hc))
  split at hconstants
  · next hnone =>
      rw [hnone] at hmem
      cases hmem
  · next w hone =>
      rw [hone] at hmem
      rw [List.mem_singleton.mp hmem]
      exact (Bool.and_eq_true_iff.mp hconstants).2
  · cases hconstants

theorem IsMisfit.not_constantsStay {shape : Shape α (Formula α)} (h : shape.IsMisfit) :
    ¬ shape.ConstantsStay := by
  obtain ⟨op, args, c, vs, rfl, hc, hv, hoverlooks⟩ := h
  intro hstay
  have hadmits := hstay op args rfl c hc _ hv
  rw [hoverlooks.notAdmitted] at hadmits
  cases hadmits

end Shape

namespace Formula

variable {L : Ledger α} {n₀ : NodeId}

/-- No sum, product or length has a constant argument that may not stay there. -/
abbrev ConstantsStay : Formula α → Prop := Everywhere fun _ shape => shape.ConstantsStay

/-- No product in it has a factor zero. -/
abbrev NoZeroFactor : Formula α → Prop := Everywhere fun _ shape => ¬ shape.KeepsZero

/-- All nodes are simple. -/
abbrev AllSimple : Formula α → Prop := Everywhere fun _ shape => shape.IsSimple

/-! ## Simplifying settles -/

section

variable {B : NodeId → Shape α (Formula α) → Prop}

theorem ofShape_builds_leaving {shape : Shape α (Formula α)} (hB : LeftBehind n₀ B)
    (hrefs : ∀ r ∈ shape.refs, r.KnownTo L) (hchildren : ∀ c ∈ shape.children, c.Everywhere B)
    (hn : n₀ ≤ L.next) : Builds (ofShape shape) L fun L' d => d.Member (Everywhere B) L' :=
  ((ofShape_known hrefs).and_yieldsFrom hn (ofShape_leaves hB hchildren)).mono
    fun _ _ _ h => ⟨h.1, h.2⟩

/-- The step of the pass over images with a property of what the rules leave behind. -/
theorem simplifyOver_builds_leaving {e : Formula α} {ds : List (Formula α)}
    (hB : LeftBehind n₀ B) (he : e.KnownTo L) (hne : e.children ≠ []) (hn : n₀ ≤ L.next)
    (hds : List.Forall₂ (fun _ d => d.Member (Everywhere B) L) e.children ds) :
    Builds (simplifyOver e ds) L fun L' d => d.Member (Everywhere B) L' := by
  have hall : ∀ d ∈ ds, d.Member (Everywhere B) L := forall_of_forall₂ hds fun _ _ h => h
  have hvar : ∀ name, e.shape ≠ .var name := fun name h => hne (by rw [children, h]; rfl)
  have hconst : ∀ v, e.shape ≠ .const v := fun v h => hne (by rw [children, h]; rfl)
  obtain ⟨shape, hshape⟩ := exists_withChildren hvar hconst hds.length_eq.symm
  obtain ⟨hchildren, hrefs⟩ := children_of_withChildren hshape
  have hleaving : ∀ c ∈ shape.children, c.Everywhere B := fun c hc =>
    (hall c (hchildren ▸ hc)).holds
  refine simplifyOver_builds_of he (fun d hd => (hall d hd).known) hshape ?_
    (ofShape_builds_leaving hB ?_ hleaving hn)
  · intro hself hrule
    obtain ⟨id, own⟩ := e
    obtain rfl : own = shape := hself
    exact ⟨he, .node (hB.final id own hrule) hleaving⟩
  · intro r hr
    rcases hrefs r hr with h | h
    · exact (hall r h).known
    · exact he.ref h

/-- Simplifying leaves what the rules leave behind, and nodes without children as they are. -/
theorem simplify_builds_leaving {e : Formula α} (hB : LeftBehind L.next B) (he : e.KnownTo L)
    (hleaf : ∀ d : Formula α, d.Within e → d.children = [] → B d.id d.shape) :
    Builds (simplify e) L fun L' d => d.Member (Everywhere B) L' := by
  have hpass : Carries (Images.Sound fun _ L' d => d.Member (Everywhere B) L') (simplifyNode e) L
      fun L' d => d.Member (Everywhere B) L' := by
    refine simplifyNode_carries
      (H := fun L' d => L.Extends L' ∧ d.KnownTo L' ∧ d.Within e) ?_ (fun h => h.2.1)
      (fun h hc => ⟨h.1, h.2.1.child hc, (Within.child hc (.refl _)).trans h.2.2⟩) ?_ ?_ ?_ e
      ⟨.refl L, he, .refl e⟩
    · exact fun _ _ _ hL h => ⟨h.1.trans hL, h.2.1.mono hL, h.2.2⟩
    · exact fun _ => Member.lasting
    · rintro L' ⟨id, shape⟩ ⟨-, hknown, hwithin⟩ hchildren
      have hnone : shape.children = [] := hchildren
      exact ⟨hknown, .node (hleaf _ hwithin hchildren) (by simp [hnone])⟩
    · exact fun h hne hds => simplifyOver_builds_leaving hB h.2.1 hne h.1.next_le hds
  exact hpass.answer

end

/-- A known formula that is settled. -/
def SettlesTo (n₀ : NodeId) (L : Ledger α) (d : Formula α) : Prop := d.KnownTo L ∧ d.Settled n₀

theorem ofShape_builds_settled {shape : Shape α (Formula α)} (hrefs : ∀ r ∈ shape.refs, r.KnownTo L)
    (hchildren : ∀ c ∈ shape.children, c.Settled n₀) (hn : n₀ ≤ L.next) :
    Builds (ofShape shape) L (SettlesTo n₀) :=
  (ofShape_builds_leaving (leftBehind_settled n₀) hrefs hchildren hn).mono
    fun _ _ _ h => ⟨h.known, h.holds⟩

/-- Simplifying leaves simple nodes, and misfits only among those it built. -/
theorem simplify_builds_settled {e : Formula α} (he : e.KnownTo L) :
    Builds (simplify e) L (SettlesTo L.next) :=
  (simplify_builds_leaving (leftBehind_settled L.next) he fun _ _ hnone => .inl (.inl hnone)).mono
    fun _ _ _ h => ⟨h.known, h.holds⟩

/-! ## What is simplified to itself -/

/-- When a formula is simplified to itself, where `n` is the number free next: exactly if its
constants may stay; where lengths are positive, exactly if no product in it has a factor zero;
and always on numbers that never vanish. -/
structure FixedPointLaw (e : Formula α) (n : NodeId) : Prop where
  iff_constantsStay : (e.simplify.run n).1 = e ↔ e.ConstantsStay
  iff_noZeroFactor : Scalar.LengthsPositive α → ((e.simplify.run n).1 = e ↔ e.NoZeroFactor)
  always : Scalar.NeverVanishes α → (e.simplify.run n).1 = e

theorem Settled.allSimple {e : Formula α} (h : e.Settled L.next) (he : e.KnownTo L) :
    e.AllSimple := by
  refine everywhere_of_within fun d hd => ?_
  rcases (h.within hd).here with hsimple | ⟨hnew, -⟩
  · exact hsimple
  · exact absurd (he.within hd).id_lt (Nat.not_lt.mpr hnew)

theorem AllSimple.simplify_eq {e : Formula α} (h : e.AllSimple) (he : e.KnownTo L) :
    (e.simplify.run L.next).1 = e := by
  have hpass : Carries (Images.Sound fun e _ d => e = d) (simplifyNode e) L fun _ d => e = d := by
    refine simplifyNode_carries (H := fun L e => e.Member AllSimple L) Member.lasting
      (fun h => h.known) (fun h hc => ⟨h.known.child hc, h.holds.child hc⟩)
      (fun _ _ _ _ _ h => h) (fun _ _ => rfl) ?_ e ⟨he, h⟩
    intro L' e ds h hne hds
    have heq : e.children = ds := by
      rwa [List.forall₂_eq_eq_eq] at hds
    have hrule : rootRule e.shape = none := h.holds.here.resolve_left hne
    rw [simplifyOver, heq, if_pos (sameAll_self ds), hrule]
    exact .pure rfl
  obtain ⟨_, _, _, h⟩ := hpass.answer
  exact h.symm

/-- A formula is simplified to itself exactly if all its nodes are simple. -/
theorem simplify_eq_iff {e : Formula α} (he : e.KnownTo L) :
    (e.simplify.run L.next).1 = e ↔ e.AllSimple := by
  refine ⟨fun h => ?_, fun h => h.simplify_eq he⟩
  obtain ⟨_, _, _, _, hsettled⟩ := simplify_builds_settled he
  rw [h] at hsettled
  exact hsettled.allSimple he

theorem Settled.allSimple_iff {e : Formula α} (h : e.Settled n₀) :
    e.AllSimple ↔ e.ConstantsStay := by
  refine ⟨fun hsimple => hsimple.imp fun _ _ h => h.constantsStay, fun hstay => ?_⟩
  refine everywhere_of_within fun d hd => ?_
  rcases (h.within hd).here with hsimple | ⟨-, hmisfit⟩
  · exact hsimple
  · exact absurd (hstay.within hd).here hmisfit.not_constantsStay

theorem Settled.constantsStay_iff {e : Formula α} (h : e.Settled n₀)
    (hα : Scalar.LengthsPositive α) : e.ConstantsStay ↔ e.NoZeroFactor := by
  refine ⟨fun hstay => hstay.imp fun _ _ h => h.not_keepsZero, fun hzero => ?_⟩
  refine everywhere_of_within fun d hd => ?_
  rcases (h.within hd).here with hsimple | ⟨-, hmisfit⟩
  · exact hsimple.constantsStay
  · exact absurd (hmisfit.keepsZero hα) (hzero.within hd).here

theorem Settled.constantsStay {e : Formula α} (h : e.Settled n₀)
    (hα : Scalar.NeverVanishes α) : e.ConstantsStay := by
  refine h.imp ?_
  rintro id shape (hsimple | ⟨-, op, args, c, vs, -, -, -, hoverlooks⟩)
  · exact hsimple.constantsStay
  · exact absurd hoverlooks (hα.not_overlooks op vs)

theorem fixedPointLaw_of_builds {x : Fresh (Formula α)} (hx : Builds x L (SettlesTo n₀)) :
    FixedPointLaw (x.run L.next).1 (x.run L.next).2 := by
  obtain ⟨L', _, hnext, hknown, hsettled⟩ := hx
  have hiff := (simplify_eq_iff hknown).trans hsettled.allSimple_iff
  rw [hnext] at hiff
  exact ⟨hiff, fun hα => hiff.trans (hsettled.constantsStay_iff hα),
    fun hα => hiff.mpr (hsettled.constantsStay hα)⟩

/-- **What is simplified stays as it is,** exactly if every constant argument in it may stay
where it is.  This holds of all simplified formulas, and of the simple node for a shape over
formulas that are simplified to themselves.  The node may be built later than its children,
for a table or a guard draws its mark first. -/
theorem simplify_twice (L : Ledger α) :
    (∀ e : Formula α, e.KnownTo L →
      let r := e.simplify.run L.next
      FixedPointLaw r.1 r.2) ∧
    ∀ L', L.Extends L' → ∀ shape : Shape α (Formula α), (∀ d ∈ shape.refs, d.KnownTo L') →
      (∀ c ∈ shape.children, c.KnownTo L ∧ (c.simplify.run L.next).1 = c) →
      let r := (ofShape shape).run L'.next
      FixedPointLaw r.1 r.2 := by
  refine ⟨fun e he => fixedPointLaw_of_builds (simplify_builds_settled he), ?_⟩
  intro L' _ shape hrefs hchildren
  have hsettled : ∀ c ∈ shape.children, c.Settled L'.next := by
    intro c hc
    obtain ⟨hknown, hfixed⟩ := hchildren c hc
    exact ((simplify_eq_iff hknown).mp hfixed).imp fun _ _ h => .inl h
  exact fixedPointLaw_of_builds (ofShape_builds_settled hrefs hsettled (Nat.le_refl _))

/-- Two numbers and a variable, to be multiplied. -/
def factors (v w : α) : List (Formula α) :=
  [node 2 (.const v), node 3 (.const w), node 4 (.var "x")]

theorem factors_known (v w : α) : ∃ L : Ledger α, L.next = 6 ∧
    (∀ c ∈ factors v w, c.KnownTo L) ∧ (node 5 (.assoc .multiply (factors v w))).KnownTo L := by
  let L₁ := (Ledger.initial : Ledger α).add (.const v)
  let L₂ := L₁.add (.const w)
  let L₃ := L₂.add (.var "x")
  have hfactors : ∀ c ∈ factors v w, c.KnownTo L₃ := by
    have hv : (node 2 (.const v)).KnownTo L₁ := add_known (by simp [Shape.refs, Shape.children])
    have hw : (node 3 (.const w)).KnownTo L₂ := add_known (by simp [Shape.refs, Shape.children])
    have hx : (node 4 (.var "x")).KnownTo L₃ := add_known (by simp [Shape.refs, Shape.children])
    have hv' := (hv.mono (Ledger.extends_add _ _)).mono (L₂.extends_add (.var "x"))
    simpa [factors] using ⟨hv', hw.mono (Ledger.extends_add _ _), hx⟩
  have hproduct : (node 5 (.assoc .multiply (factors v w))).KnownTo
      (L₃.add (.assoc .multiply (factors v w))) :=
    add_known (by simpa [Shape.refs, Shape.children] using hfactors)
  exact ⟨_, rfl, fun c hc => (hfactors c hc).mono (Ledger.extends_add _ _), hproduct⟩

/-- The factors are simplified to themselves. -/
theorem factors_simple (v w : α) : ∀ c ∈ factors v w, c.AllSimple := by
  intro c hc
  simp only [factors, List.mem_cons, List.not_mem_nil, or_false] at hc
  rcases hc with rfl | rfl | rfl <;> exact .node (.inl rfl) (by simp [Shape.children])

/-- In exact arithmetic the product of two, three and `x` is simplified once and for all,
be it simplified as it stands or built by the rules. -/
theorem simplify_product_twice :
    let fs : List (Formula PartialReal) := factors (.real 2) (.real 3)
    let r := (node 5 (.assoc .multiply fs)).simplify.run 6
    let s := (ofShape (.assoc .multiply fs)).run 6
    (r.1.simplify.run r.2).1 = r.1 ∧ (s.1.simplify.run s.2).1 = s.1 := by
  intro fs r s
  obtain ⟨L, hnext, hfactors, hproduct⟩ := factors_known (PartialReal.real 2) (.real 3)
  have hfixed : ∀ c ∈ fs, c.KnownTo L ∧ (c.simplify.run L.next).1 = c := by
    intro c hc
    exact ⟨hfactors c hc, (factors_simple _ _ c hc).simplify_eq (hfactors c hc)⟩
  have hsimplified := ((simplify_twice L).1 _ hproduct).always PartialReal.neverVanishes
  have hbuilt := ((simplify_twice L).2 L (.refl L) (.assoc .multiply fs)
    (by simpa [Shape.refs, Shape.children] using hfactors) hfixed).always PartialReal.neverVanishes
  rw [hnext] at hsimplified hbuilt
  exact ⟨hsimplified, hbuilt⟩

/-! ## Products that vanish -/

theorem simplifyNode_leaf {e : Formula α} (hleaf : e.children = []) {images : Images α}
    (hnew : images[e.id]? = none) :
    (simplifyNode e).run images = pure (e, images.insert e.id e) := by
  obtain ⟨id, shape⟩ := e
  rw [children_node] at hleaf
  rw [id_node] at *
  rw [simplifyNode, simplifyShape_leaf _ hleaf, once]
  simp [hnew]

/-- Leaves that differ by their numbers are left as they are. -/
theorem simplifyNodes_leaves {es : List (Formula α)} (hleaf : ∀ e ∈ es, e.children = [])
    (hdistinct : (es.map Formula.id).Nodup) {images : Images α}
    (hnew : ∀ e ∈ es, images[e.id]? = none) :
    ∃ images', (simplifyNodes es).run images = pure (es, images') := by
  induction es generalizing images with
  | nil => exact ⟨images, rfl⟩
  | cons e es ih =>
      rw [List.map_cons, List.nodup_cons] at hdistinct
      have hrest : ∀ d ∈ es, (images.insert e.id e)[d.id]? = none := by
        intro d hd
        have hne : e.id ≠ d.id := fun h => hdistinct.1 (h ▸ List.mem_map_of_mem hd)
        rw [Std.HashMap.getElem?_insert, if_neg (by simpa using hne)]
        exact hnew d (List.mem_cons_of_mem e hd)
      obtain ⟨images', hes⟩ :=
        ih (fun d hd => hleaf d (List.mem_cons_of_mem e hd)) hdistinct.2 hrest
      refine ⟨images', ?_⟩
      rw [simplifyNodes, StateT.run_bind,
        simplifyNode_leaf (hleaf e List.mem_cons_self) (hnew e List.mem_cons_self), pure_bind,
        StateT.run_bind, hes, pure_bind]
      rfl

/-- A node over leaves is simplified by its rule. -/
theorem simplify_over_leaves {id : NodeId} {shape : Shape α (Formula α)}
    (hne : shape.children ≠ []) (hleaf : ∀ c ∈ shape.children, c.children = [])
    (hdistinct : (shape.children.map Formula.id).Nodup) :
    (node id shape).simplify = (rootRule shape).getD (pure (node id shape)) := by
  have hnone : ∀ c ∈ shape.children, (∅ : Images α)[c.id]? = none := fun _ _ =>
    Std.HashMap.getElem?_empty
  obtain ⟨images, hchildren⟩ := simplifyNodes_leaves hleaf hdistinct hnone
  rw [simplify, simplifyNode, simplifyShape_eq _ hne, once]
  simp [hchildren, simplifyOver, sameAll_self]

/-- Numbers other than zero that multiply to zero are combined into a factor zero. -/
theorem rootRule_vanishing {v w : α} (hv : (v == 0) = false) (hw : (w == 0) = false)
    (hone : (Scalar.product [v, w] == 1) = false) :
    rootRule (.assoc .multiply (factors v w)) = some (constant (Scalar.product [v, w]) >>= fun c =>
      new (.assoc .multiply [c, node 4 (.var "x")])) := by
  have hfold : foldConstants (.assoc .multiply (factors v w)) = none := rfl
  have hcanonical : isCanonical .multiply (factors v w) = false := by
    simp [isCanonical, factors, asConstant]
  have hargs : argumentsOfAll .multiply (factors v w) = factors v w := rfl
  have hconstants : (factors v w).filterMap asConstant = [v, w] := rfl
  have hterms : (factors v w).filter (fun e => !e.isConstant) = [node 4 (.var "x")] := rfl
  have hnonzero : [v, w].any (· == 0) = false := by simp [hv, hw]
  have hneutral : AssocOp.multiply.isNeutral (Scalar.product [v, w]) = false := hone
  rw [rootRule, hfold]
  dsimp only
  simp only [assocRule, hcanonical, flatten, hargs, hconstants, hterms, hnonzero, addConstant,
    AssocOp.combine, hneutral]
  rfl

/-- A product with a factor zero is zero. -/
theorem rootRule_zero_factor {z : α} (hz : (z == 0) = true) (id id' : NodeId) (name : String) :
    rootRule (.assoc .multiply [node id (.const z), node id' (.var name)]) = some (pure zero) := by
  have hfold : foldConstants
      (.assoc .multiply [node id (.const z), node id' (.var name)]) = none := rfl
  have hargs : argumentsOfAll .multiply [node id (.const z), node id' (.var name)] =
      [node id (.const z), node id' (.var name)] := rfl
  have hconstants : [node id (.const z), node id' (.var name)].filterMap asConstant = [z] := rfl
  have hcanonical : isCanonical .multiply [node id (.const z), node id' (.var name)] = false := by
    rw [isCanonical, hconstants]
    simp [AssocOp.admits, hz]
  have hzero : [z].any (· == 0) = true := by simp [hz]
  rw [rootRule, hfold]
  dsimp only
  simp only [assocRule, hcanonical, flatten, hargs, hconstants, hzero]
  rfl

/-- **Two passes over a product that vanishes:** the first one leaves a factor zero, for which
the second one drops the product.  The rules build the same from the three factors, each of
which is simplified to itself. -/
theorem simplify_vanishing {v w : α} (hv : (v == 0) = false) (hw : (w == 0) = false)
    (hzero : (Scalar.product [v, w] == 0) = true) (hone : (Scalar.product [v, w] == 1) = false) :
    let fs := factors v w
    let r := (node 5 (.assoc .multiply fs)).simplify.run 6
    r = (node 7 (.assoc .multiply
        [node 6 (.const (Scalar.product [v, w])), node 4 (.var "x")]), 8) ∧
      (r.1.simplify.run r.2).1 = zero ∧ (∀ c ∈ fs, (c.simplify.run 6).1 = c) ∧
      (ofShape (.assoc .multiply fs)).run 6 = r := by
  intro fs r
  have hrule := rootRule_vanishing hv hw hone
  have hr : r = (node 7 (.assoc .multiply
      [node 6 (.const (Scalar.product [v, w])), node 4 (.var "x")]), 8) := by
    show (node 5 (.assoc .multiply (factors v w))).simplify.run 6 = _
    rw [simplify_over_leaves (by simp [Shape.children, factors])
      (by simp [Shape.children, factors]) (by simp [Shape.children, factors]), hrule]
    rfl
  refine ⟨hr, ?_, ?_, ?_⟩
  · rw [hr, simplify_over_leaves (by simp [Shape.children]) (by simp [Shape.children])
      (by simp [Shape.children]), rootRule_zero_factor hzero]
    rfl
  · intro c hc
    obtain ⟨L, hnext, hknown, -⟩ := factors_known v w
    rw [← hnext]
    exact (factors_simple v w c hc).simplify_eq (hknown c hc)
  · rw [hr, ofShape, hrule]
    rfl

/-- Among the machine's numbers `1e-200` times itself is zero, so the product of these two and
`x` is simplified to zero times `x`, and that to zero.  The rules build the same from the three
factors, each of which is simplified to itself. -/
theorem simplify_underflow_twice :
    let fs : List (Formula Float) := factors 1e-200 1e-200
    let r := (node 5 (.assoc .multiply fs)).simplify.run 6
    let s := (ofShape (.assoc .multiply fs)).run 6
    (∃ L, L.next = 6 ∧ (node 5 (.assoc .multiply fs)).KnownTo L) ∧
      r.1 = node 7 (.assoc .multiply [node 6 (.const 0), node 4 (.var "x")]) ∧
      (r.1.simplify.run r.2).1 = zero ∧ (∀ c ∈ fs, (c.simplify.run 6).1 = c) ∧ s.1 = r.1 ∧
      (s.1.simplify.run s.2).1 = zero := by
  intro fs r s
  obtain ⟨L, hnext, -, hproduct⟩ := factors_known (1e-200 : Float) 1e-200
  have hvanishes : Scalar.product [(1e-200 : Float), 1e-200] = 0 := by decide +kernel
  obtain ⟨hfirst, hsecond, hfixed, hbuilt⟩ := simplify_vanishing (v := (1e-200 : Float))
    (w := 1e-200) (by decide +kernel) (by decide +kernel) (by rw [hvanishes]; decide +kernel)
    (by rw [hvanishes]; decide +kernel)
  have hsame : s = r := hbuilt
  rw [hvanishes] at hfirst
  exact ⟨⟨L, hnext, hproduct⟩, congrArg Prod.fst hfirst, hsecond, hfixed, congrArg Prod.fst hsame,
    hsame ▸ hsecond⟩

end Formula

end FormulaGraph
