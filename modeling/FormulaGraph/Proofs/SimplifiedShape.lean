import FormulaGraph.Proofs.Settling
import FormulaGraph.Proofs.WholeNumbers

/-!
# The shape of simplified formulas

What differentiation and the other passes look for in a formula (a zero among the operands, a
constant condition, a function over its inverse) is not found in a simplified one: its nodes
are **neat** (`Shape.IsNeat`).  A node to which no rule applies is neat, and so are flattened
sums, products and lengths, so neatness is one of the properties the rules leave behind.

A pass does not look at nodes without children.  One kind of them is not a leaf: a sum, a
product or a length without arguments is **bare**.  No rule leaves such a node behind, but where
it stands in a formula, simplifying leaves it there, though a rule would apply to it
(`simplify_empty_sum`).  Everything else is neat, and a formula is its own simplified formula
exactly if no rule applies to any of its nodes (`simplified_shape`).
-/

namespace FormulaGraph

variable {α : Type}

/-- The one place where a constant may stand among the arguments. -/
def AssocOp.constantIndex : AssocOp → Nat → Nat
  | multiply, _ => 0
  | add, n | hypot, n => n - 1

/-- The arguments of a sum, a product or a length: none of the same kind, at most one constant,
first in a product and last otherwise, and several of them but for a length. -/
structure AssocOp.Arranges (op : AssocOp) (args : List (Formula α)) : Prop where
  notNested : ∀ c ∈ args, ∀ inner, c.shape ≠ .assoc op inner
  constantPlace : ∀ (i : Nat) (h : i < args.length), args[i].isConstant = true →
    i = op.constantIndex args.length
  several : op = .hypot ∨ 2 ≤ args.length

/-- The node is in order as far as its children are concerned. -/
structure Shape.IsNeat [Scalar α] (shape : Shape α (Formula α)) : Prop where
  assoc : ∀ op args, shape = .assoc op args → op.Arranges args
  notFolded : (∀ s, shape ≠ .solver s) → shape.children ≠ [] →
    ∃ c ∈ shape.children, c.isConstant = false
  condition : ∀ op c a b, shape = .conditional op c a b → c.isConstant = false
  subtract : ∀ a b, shape = .binary .subtract a b →
    a.isConstantValue 0 = false ∧ b.isConstantValue 0 = false
  divide : ∀ a b, shape = .binary .divide a b →
    a.isConstantValue 0 = false ∧ b.isConstant = false
  log : ∀ a, shape = .unary .log a → ∀ inner, a.shape ≠ .unary .exp inner
  exp : ∀ a, shape = .unary .exp a → ∀ inner, a.shape ≠ .unary .log inner
  negate : ∀ a, shape = .unary .negate a → ∀ inner, a.shape ≠ .unary .negate inner
  square : ∀ a, shape = .unary .square a → ∀ args, a.shape ≠ .assoc .hypot args

/-- A sum, a product or a length without arguments. -/
def Shape.IsBare (shape : Shape α (Formula α)) : Prop := ∃ op, shape = .assoc op []

namespace Formula

/-! ## Constants among the arguments -/

theorem isAssoc_eq_false {op : AssocOp} {c : Formula α} (h : c.isAssoc op = false) :
    ∀ inner, c.shape ≠ .assoc op inner := by
  obtain ⟨id, shape⟩ := c
  rintro inner hshape
  obtain rfl : shape = .assoc op inner := hshape
  simp [isAssoc] at h

theorem filterMap_asConstant_eq_nil {args : List (Formula α)}
    (h : args.filterMap asConstant = []) {c : Formula α} (hc : c ∈ args) :
    c.isConstant = false := by
  rw [List.filterMap_eq_nil_iff] at h
  rw [isConstant, h c hc, Option.isSome_none]

/-- A single constant, found at its place, stands there and nowhere else. -/
theorem index_of_constantPlace {op : AssocOp} {args : List (Formula α)} {c : Formula α} {v : α}
    (hplace : constantPlace? op args = some c) (hc : c.isConstant = true)
    (hone : args.filterMap asConstant = [v]) {i : Nat} (hi : i < args.length)
    (hconst : args[i].isConstant = true) : i = op.constantIndex args.length := by
  obtain ⟨w, hw⟩ := Option.isSome_iff_exists.mp hc
  have hlast : args.getLast? = some c → i = args.length - 1 := by
    intro hlast
    obtain ⟨init, rfl⟩ := List.getLast?_eq_some_iff.mp hlast
    have hnone : init.filterMap asConstant = [] := by
      rw [List.filterMap_append, List.filterMap_cons_some hw] at hone
      simpa using congrArg List.length hone
    by_contra hne
    have hlt : i < init.length := by
      rw [List.length_append] at hi hne
      simp only [List.length_singleton] at hi hne
      omega
    rw [List.getElem_append_left hlt, filterMap_asConstant_eq_nil hnone (List.getElem_mem hlt)]
      at hconst
    cases hconst
  cases op with
  | add => exact hlast hplace
  | hypot => exact hlast hplace
  | multiply =>
      obtain ⟨rest, rfl⟩ := List.head?_eq_some_iff.mp hplace
      have hnone : rest.filterMap asConstant = [] := by
        rw [List.filterMap_cons_some hw] at hone
        exact (List.cons.inj hone).2
      cases i with
      | zero => rfl
      | succ i =>
          have hlt : i < rest.length := by simpa using hi
          rw [List.getElem_cons_succ, filterMap_asConstant_eq_nil hnone (List.getElem_mem hlt)]
            at hconst
          cases hconst

variable [Scalar α]

/-- Among arguments that need no flattening one is no constant, and none is of the same kind. -/
theorem arguments_of_isCanonical {op : AssocOp} {args : List (Formula α)}
    (h : isCanonical op args = true) :
    (∃ c ∈ args, c.isConstant = false) ∧ ∀ c ∈ args, c.isAssoc op = false := by
  simp only [isCanonical, Bool.and_eq_true, Bool.not_eq_true', List.any_eq_false,
    List.all_eq_false, Bool.not_eq_true] at h
  exact ⟨h.1.1.1, h.1.2⟩

/-- Arguments that need no flattening are in order. -/
theorem arranges_of_isCanonical {op : AssocOp} {args : List (Formula α)}
    (h : isCanonical op args = true) : op.Arranges args := by
  have hnested := (arguments_of_isCanonical h).2
  simp only [isCanonical, Bool.and_eq_true] at h
  obtain ⟨⟨⟨-, hcount⟩, -⟩, hconstants⟩ := h
  refine ⟨fun c hc => isAssoc_eq_false (hnested c hc), ?_, by simpa using hcount⟩
  · intro i hi hconst
    split at hconstants
    · next hnone =>
        rw [filterMap_asConstant_eq_nil hnone (List.getElem_mem hi)] at hconst
        cases hconst
    · next v hone =>
        obtain ⟨hplace, -⟩ := Bool.and_eq_true_iff.mp hconstants
        cases hfound : constantPlace? op args with
        | none => simp [hfound] at hplace
        | some c =>
            exact index_of_constantPlace hfound (by simpa [hfound] using hplace) hone hi hconst
    · cases hconstants

/-- Flattened arguments are in order. -/
theorem Flattened.arranges {op : AssocOp} {args : List (Formula α)} (h : Flattened op args)
    (hlength : op = .hypot ∨ 2 ≤ args.length) : op.Arranges args := by
  refine ⟨fun c hc => isAssoc_eq_false (h.notAssoc c hc), ?_, hlength⟩
  intro i hi hconst
  rcases h.constants with hnone | ⟨c, vs, hplace, hc, hone, -, -⟩
  · rw [filterMap_asConstant_eq_nil hnone (List.getElem_mem hi)] at hconst
    cases hconst
  · exact index_of_constantPlace hplace (by rw [isConstant, hc]; rfl) hone hi hconst

/-! ## Neat nodes -/

/-- What is not folded has a child that is no constant. -/
theorem exists_of_foldConstants_eq_none {shape : Shape α (Formula α)}
    (h : foldConstants shape = none) (hfree : ∀ s, shape ≠ .solver s) (hne : shape.children ≠ []) :
    ∃ c ∈ shape.children, c.isConstant = false := by
  by_contra hall
  have hconstant : shape.children.all isConstant = true := by
    rw [List.all_eq_true]
    intro c hc
    by_contra hnot
    exact hall ⟨c, hc, by simpa using hnot⟩
  cases shape with
  | const v => exact hne rfl
  | var name => exact hne rfl
  | solver s => exact hfree s rfl
  | _ => simp [foldConstants, hconstant] at h

/-- **A node to which no rule applies is neat.** -/
theorem isNeat_of_rootRule {shape : Shape α (Formula α)} (h : rootRule shape = none) :
    shape.IsNeat := by
  have hfold := foldConstants_eq_none_of_rootRule h
  unfold rootRule at h
  rw [hfold] at h
  refine
    { assoc := ?assoc
      notFolded := exists_of_foldConstants_eq_none hfold
      condition := ?condition
      subtract := ?subtract
      divide := ?divide
      log := ?log
      exp := ?exp
      negate := ?negate
      square := ?square }
  case assoc =>
    intro op args hshape
    subst hshape
    refine arranges_of_isCanonical ?_
    by_contra hnot
    simp [assocRule, hnot] at h
  case condition =>
    intro op c a b hshape
    subst hshape
    simpa [isConstant] using h
  case subtract =>
    intro a b hshape
    subst hshape
    simp only [binaryRule] at h
    grind
  case divide =>
    intro a b hshape
    subst hshape
    simp only [binaryRule] at h
    split at h
    · cases h
    · next hzero =>
        rw [Bool.or_eq_true, not_or, Bool.not_eq_true] at hzero
        exact ⟨hzero.1, by simpa [isConstant] using h⟩
  case log | exp | negate | square =>
    intro a hshape inner hinner
    subst hshape
    simp [unaryRule, hinner] at h

/-- A sum, a product or a length over flattened arguments is neat. -/
theorem Flattened.isNeat {op : AssocOp} {args : List (Formula α)} (h : Flattened op args)
    (hlength : op = .hypot ∨ 2 ≤ args.length) : (Shape.assoc op args).IsNeat where
  assoc := by
    rintro _ _ ⟨⟩
    exact h.arranges hlength
  notFolded _ _ := h.notConstant
  condition := nofun
  subtract := nofun
  divide := nofun
  log := nofun
  exp := nofun
  negate := nofun
  square := nofun

/-- To a node without children no rule applies, unless it is bare. -/
theorem isBare_or_rootRule {shape : Shape α (Formula α)} (h : shape.children = []) :
    shape.IsBare ∨ rootRule shape = none := by
  cases shape with
  | const v => exact .inr rfl
  | var name => exact .inr rfl
  | assoc op args => exact .inl ⟨op, congrArg (Shape.assoc op) h⟩
  | _ => cases h

theorem isSimple_iff {shape : Shape α (Formula α)} :
    shape.IsSimple ↔ shape.IsBare ∨ rootRule shape = none := by
  refine ⟨fun h => h.elim isBare_or_rootRule .inr, ?_⟩
  rintro (⟨op, rfl⟩ | h)
  · exact .inl rfl
  · exact .inr h

/-- Neat nodes, and bare ones that are within `e`. -/
def NeatOver (e : Formula α) (id : NodeId) (shape : Shape α (Formula α)) : Prop :=
  shape.IsNeat ∨ shape.IsBare ∧ (node id shape).Within e

/-- **What the rules leave behind is neat.** -/
theorem leftBehind_neatOver (e : Formula α) (n₀ : NodeId) : LeftBehind n₀ (NeatOver e) where
  const _ _ := .inl (isNeat_of_rootRule rfl)
  final _ _ h := .inl (isNeat_of_rootRule h)
  flat _ _ _ _ h hlength := .inl (h.isNeat hlength)

variable {L : Ledger α}

theorem simplify_builds_neat {e : Formula α} (he : e.KnownTo L) :
    Builds (simplify e) L fun L' d => d.Member (Everywhere (NeatOver e)) L' := by
  refine simplify_builds_leaving (leftBehind_neatOver e L.next) he ?_
  rintro ⟨id, shape⟩ hd hnone
  rcases isBare_or_rootRule hnone with hbare | hrule
  · exact .inr ⟨hbare, hd⟩
  · exact .inl (isNeat_of_rootRule hrule)

/-- **The shape of simplified formulas.**  Every node within a simplified formula is neat, but for
sums, products and lengths without arguments that were within the formula before; and a formula
is its own simplified formula exactly if, but for these, no rule applies to a node within it.  So
where no node is bare, all nodes of the simplified formula are neat, and it is the formula itself
exactly if no rule applies to any node. -/
theorem simplified_shape (L : Ledger α) {e : Formula α} (he : e.KnownTo L) :
    let r := (e.simplify.run L.next).1
    (∀ d : Formula α, d.Within r → d.shape.IsNeat ∨ d.shape.IsBare ∧ d.Within e) ∧
      (r = e ↔ ∀ d : Formula α, d.Within e → d.shape.IsBare ∨ rootRule d.shape = none) ∧
      ((∀ d : Formula α, d.Within e → ¬ d.shape.IsBare) →
        (∀ d : Formula α, d.Within r → d.shape.IsNeat) ∧
          (r = e ↔ ∀ d : Formula α, d.Within e → rootRule d.shape = none)) := by
  intro r
  have hneat : ∀ d : Formula α, d.Within r → d.shape.IsNeat ∨ d.shape.IsBare ∧ d.Within e := by
    obtain ⟨_, _, _, hmember⟩ := simplify_builds_neat he
    rintro ⟨id, shape⟩ hd
    exact (hmember.holds.within hd).here
  have hself : r = e ↔ ∀ d : Formula α, d.Within e → d.shape.IsBare ∨ rootRule d.shape = none := by
    rw [simplify_eq_iff he]
    refine ⟨fun h d hd => isSimple_iff.mp (h.within hd).here, fun h => ?_⟩
    exact everywhere_of_within fun d hd => isSimple_iff.mpr (h d hd)
  refine ⟨hneat, hself, fun hbare => ⟨?_, ?_⟩⟩
  · intro d hd
    exact (hneat d hd).resolve_right fun h => hbare d h.2 h.1
  · rw [hself]
    exact forall₂_congr fun d hd => or_iff_right (hbare d hd)

/-- The sum of `x` and a nested sum of one and `y`: simplified it is `x + y + 1`, and neat. -/
theorem simplified_shape_of_nested_sum :
    let x : Formula Int := node 2 (.var "x")
    let y : Formula Int := node 3 (.var "y")
    let inner : Formula Int := node 4 (.assoc .add [one, y])
    let e : Formula Int := node 5 (.assoc .add [x, inner])
    let r := (e.simplify.run 6).1
    (∀ d : Formula Int, d.Within r → d.shape.IsNeat) ∧
      r = node 9 (.assoc .add [x, y, node 8 (.const 1)]) ∧
      ¬ ∀ d : Formula Int, d.Within e → rootRule d.shape = none := by
  intro x y inner e r
  let L := (((Ledger.initial.add (.var "x")).add (.var "y")).add inner.shape).add e.shape
  have hx : x.KnownTo L := .node (by decide) rfl (by simp [Shape.refs, Shape.children])
  have hy : y.KnownTo L := .node (by decide) rfl (by simp [Shape.refs, Shape.children])
  have hinner : inner.KnownTo L :=
    .node (by decide) rfl (by simpa [Shape.refs, Shape.children] using ⟨one_known L, hy⟩)
  have he : e.KnownTo L :=
    .node (by decide) rfl (by simpa [Shape.refs, Shape.children] using ⟨hx, hinner⟩)
  have hr : r = node 9 (.assoc .add [x, y, node 8 (.const 1)]) := by
    simp only [r, e, inner, x, y]
    cbv
  have hbare : ∀ d : Formula Int, d.Within e → ¬ d.shape.IsBare := by
    intro d hd
    have hd' : d = e ∨ d = x ∨ d = inner ∨ d = one ∨ d = y := by
      simpa [e, inner, x, y, one, within_node, Shape.children] using hd
    rcases hd' with rfl | rfl | rfl | rfl | rfl <;>
      simp [Shape.IsBare, e, inner, x, y, one]
  obtain ⟨hneat, hself⟩ := (simplified_shape L he).2.2 hbare
  refine ⟨hneat, hr, fun hrule => ?_⟩
  have hsame : r = e := hself.mpr hrule
  rw [hr] at hsame
  simp [e] at hsame

/-- A sum without arguments is simplified to itself, though a rule makes a constant of it. -/
theorem simplify_empty_sum :
    let e : Formula Int := node 2 (.assoc .add [])
    (∃ L : Ledger Int, L.next = 3 ∧ e.KnownTo L) ∧ (e.simplify.run 3).1 = e ∧
      (rootRule e.shape).isSome ∧ ¬ e.shape.IsNeat := by
  intro e
  refine ⟨⟨Ledger.initial.add e.shape, rfl, ?_⟩, ?_, rfl, ?_⟩
  · exact .node (by decide) rfl (by simp [e, Shape.refs, Shape.children])
  · simp only [e]
    cbv
  · intro hneat
    have hseveral := (hneat.assoc .add [] rfl).several
    simp at hseveral

end Formula

end FormulaGraph
