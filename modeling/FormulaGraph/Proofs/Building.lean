import FormulaGraph.Formula.Construction
import FormulaGraph.Proofs.Ledger

/-!
# The constructors build known nodes

Whatever the rules of construction do, they put together parts of their
arguments, constants, and operations over these, and every node they add bears a
number of its own.  So the result is known to the ledger extended by the nodes
added, and it has any property that constants have and that an operation has
exactly if its arguments do: to hold no solver, no table, not a certain variable, to
be scoped in a set of variables.  A known formula with such a property is a `Member`.
-/

namespace FormulaGraph

variable {α : Type} [Scalar α]

/-- Whether the shape is an operation that the rules of construction may take apart. -/
def Shape.IsOperation {ε : Type} : Shape α ε → Prop
  | .unary .. | .binary .. | .assoc .. | .conditional .. => True
  | .const _ | .var _ | .tabulated .. | .solver _ => False

/-- Constants have the property, and operations have it if and only if all their
arguments do. -/
structure AdmitsOperations (A : Formula α → Prop) : Prop where
  const : ∀ id v, A (.node id (.const v))
  operation : ∀ {id : NodeId} {shape : Shape α (Formula α)}, shape.IsOperation →
    (A (.node id shape) ↔ ∀ c ∈ shape.children, A c)

namespace Formula

/-- The formula is known and has the property. -/
structure Member (A : Formula α → Prop) (L : Ledger α) (e : Formula α) : Prop where
  known : e.KnownTo L
  holds : A e

variable {A : Formula α → Prop} {L L' : Ledger α}

/-- Members stay members while more is built. -/
theorem Member.mono {e : Formula α} (he : e.Member A L) (h : L.Extends L') : e.Member A L' :=
  ⟨he.known.mono h, he.holds⟩

/-- Membership may be carried through a construction. -/
theorem Member.lasting : Lasting fun (L : Ledger α) (e : Formula α) => e.Member A L :=
  fun _ _ _ hL he => he.mono hL

/-- Several members stay members while more is built. -/
theorem Member.all_mono {es : List (Formula α)} (hes : ∀ e ∈ es, e.Member A L)
    (h : L.Extends L') : ∀ e ∈ es, e.Member A L' :=
  fun e he => (hes e he).mono h

/-- All formulas have this property, so that a member is just a known formula. -/
theorem member_trivial {e : Formula α} (he : e.KnownTo L) : e.Member (fun _ => True) L :=
  ⟨he, trivial⟩

/-- The arguments of an operation that is a member. -/
theorem Member.argument {id : NodeId} {shape : Shape α (Formula α)} {c : Formula α}
    (he : (node id shape).Member A L) (hA : AdmitsOperations A) (hshape : shape.IsOperation)
    (hc : c ∈ shape.children) : c.Member A L :=
  ⟨he.known.child hc, (hA.operation hshape).mp he.holds c hc⟩

/-! ## Properties of all nodes -/

section Everywhere

variable {B : NodeId → Shape α (Formula α) → Prop}

omit [Scalar α] in
/-- What all nodes have is such a property, if constants and operations have it. -/
theorem everywhere_admitsOperations (hconst : ∀ id v, B id (.const v))
    (hoperation : ∀ id shape, shape.IsOperation → B id shape) :
    AdmitsOperations (Everywhere B) where
  const id v := .node (hconst id v) (by simp [Shape.children])
  operation hshape := ⟨fun h c hc => h.child hc, fun h => .node (hoperation _ _ hshape) h⟩

/-- The children of a member are members, if membership is asked everywhere. -/
theorem Member.child {c e : Formula α} (he : e.Member (Everywhere B) L) (hc : c ∈ e.children) :
    c.Member (Everywhere B) L :=
  ⟨he.known.child hc, he.holds.child hc⟩

end Everywhere

omit [Scalar α] in
/-- What away from variables and solvers a node has exactly if its children have it admits
operations. -/
theorem admitsOperations_of_iff {A : Formula α → Prop}
    (h : ∀ {id : NodeId} {shape : Shape α (Formula α)}, (∀ name, shape ≠ .var name) →
      (∀ s, shape ≠ .solver s) → (A (node id shape) ↔ ∀ c ∈ shape.children, A c)) :
    AdmitsOperations A where
  const id v := (h (by simp) (by simp)).mpr (by simp [Shape.children])
  operation {id shape} hshape := by
    refine h ?_ ?_
    · rintro name rfl
      exact hshape
    · rintro s rfl
      exact hshape

omit [Scalar α] in
/-- The condition that always holds admits whatever is built. -/
theorem trivial_admitsOperations : AdmitsOperations fun _ : Formula α => True where
  const _ _ := trivial
  operation _ := ⟨fun _ _ _ => trivial, fun _ => trivial⟩

/-- A node with the property over known formulas is a member. -/
theorem new_builds {shape : Shape α (Formula α)} (h : ∀ id, A (node id shape))
    (hrefs : ∀ r ∈ shape.refs, r.KnownTo L) :
    Builds (new shape) L (fun L' e => e.Member A L') :=
  (Builds.new hrefs).and_yields (.new h) |>.mono fun _ _ _ h => ⟨h.1, h.2⟩

omit [Scalar α] in
/-- An operation refers to its children only. -/
theorem refs_of_isOperation {shape : Shape α (Formula α)} (h : shape.IsOperation) :
    shape.refs = shape.children := by
  cases shape with
  | tabulated mark t a => exact h.elim
  | solver s => exact h.elim
  | _ => rfl

section Operations

variable (hA : AdmitsOperations A)

include hA

/-- The common zero is a member of every class that has the constants. -/
theorem zero_member : (zero : Formula α).Member A L := ⟨zero_known L, hA.const _ _⟩

/-- The common one is a member. -/
theorem one_member : (one : Formula α).Member A L := ⟨one_known L, hA.const _ _⟩

/-- A constant is a member. -/
theorem constant_builds (v : α) : Builds (constant v) L (fun L' e => e.Member A L') :=
  new_builds (fun _ => hA.const _ _) (by simp [Shape.refs, Shape.children])

/-- An operation over members as it stands. -/
theorem operation_builds {shape : Shape α (Formula α)} (hshape : shape.IsOperation)
    (hmember : ∀ c ∈ shape.children, c.Member A L) :
    Builds (new shape) L (fun L' e => e.Member A L') := by
  refine new_builds (fun _ => (hA.operation hshape).mpr fun c hc => (hmember c hc).holds) ?_
  rw [refs_of_isOperation hshape]
  exact fun c hc => (hmember c hc).known

/-- A shape becomes a constant, what its rule says, or a node as it stands. -/
theorem build_builds {shape : Shape α (Formula α)} {rule : Option (Fresh (Formula α))}
    (hrule : ∀ r ∈ rule, Builds r L (fun L' e => e.Member A L'))
    (hnew : Builds (new shape) L (fun L' e => e.Member A L')) :
    Builds (build shape rule) L (fun L' e => e.Member A L') := by
  rw [build]
  cases foldConstants shape with
  | some v => exact constant_builds hA v
  | none =>
      cases rule with
      | some r => exact hrule r rfl
      | none => exact hnew

/-! ## Sums, products and lengths -/

omit hA [Scalar α] in
/-- What holds of the parts of each argument holds of all parts. -/
theorem forall_argumentsOfAll_of {Q : Formula α → Prop} {op : AssocOp} {es : List (Formula α)}
    (h : ∀ e ∈ es, ∀ d ∈ argumentsOf op e, Q d) : ∀ d ∈ argumentsOfAll op es, Q d := by
  induction es with
  | nil => simp [argumentsOfAll]
  | cons e es ih =>
      intro d hd
      rw [argumentsOfAll, List.mem_append] at hd
      rcases hd with hd | hd
      · exact h e List.mem_cons_self d hd
      · exact ih (fun e' h' => h e' (List.mem_cons_of_mem e h')) d hd

omit hA [Scalar α] in
/-- What passes from a sum, product or length to its arguments holds of the arguments a
formula contributes, however deep they are. -/
theorem forall_argumentsOf {Q : Formula α → Prop} (op : AssocOp)
    (hQ : ∀ id op args, Q (node id (.assoc op args)) → ∀ a ∈ args, Q a) {e : Formula α}
    (he : Q e) : ∀ d ∈ argumentsOf op e, Q d := by
  induction e using inductionOnRefs with
  | h id shape ih =>
      cases shape with
      | assoc inner args =>
          rw [argumentsOf]
          split
          · exact forall_argumentsOfAll_of fun a ha => ih a ha (hQ _ _ _ he a ha)
          · simpa using he
      | _ => simpa [argumentsOf] using he

omit hA [Scalar α] in
/-- The arguments that a list is taken apart into are members, if the list consists of members.
-/
theorem forall_argumentsOfAll {Q : Formula α → Prop} (op : AssocOp)
    (hQ : ∀ id op args, Q (node id (.assoc op args)) → ∀ a ∈ args, Q a) {es : List (Formula α)}
    (hes : ∀ e ∈ es, Q e) : ∀ d ∈ argumentsOfAll op es, Q d :=
  forall_argumentsOfAll_of fun e he => forall_argumentsOf op hQ (hes e he)

/-- The constant put in front is a member beside the other terms. -/
theorem addConstant_builds (op : AssocOp) (v : α) {terms : List (Formula α)}
    (hterms : ∀ e ∈ terms, e.Member A L) :
    Builds (addConstant op v terms) L (fun L' es => ∀ e ∈ es, e.Member A L') := by
  rw [addConstant]
  split
  · exact .pure hterms
  · refine .bind (constant_builds hA v) ?_
    intro L' c hL hc
    have hall : ∀ e ∈ c :: terms, e.Member A L' := by
      simpa using ⟨hc, Member.all_mono hterms hL⟩
    cases op with
    | multiply => exact .pure hall
    | add => exact .pure fun e he => hall e (by simpa [or_comm] using he)
    | hypot => exact .pure fun e he => hall e (by simpa [or_comm] using he)

/-- Flattening builds members from members. -/
theorem flatten_builds (op : AssocOp) {args : List (Formula α)}
    (hargs : ∀ e ∈ args, e.Member A L) :
    Builds (flatten op args) L (fun L' e => e.Member A L') := by
  have hflat : ∀ e ∈ argumentsOfAll op args, e.Member A L :=
    forall_argumentsOfAll op (fun _ _ _ he _ ha => he.argument hA trivial ha) hargs
  rw [flatten]
  split
  · exact .pure (zero_member hA)
  · split
    · exact constant_builds hA _
    · refine .bind (addConstant_builds hA op _ fun e he => hflat e (List.mem_filter.mp he).1) ?_
      intro L' terms _ hterms
      split
      · exact .pure (hterms _ List.mem_cons_self)
      · exact .pure (hterms _ List.mem_cons_self)
      · exact operation_builds hA trivial hterms

/-- The factories of sums, products and lengths build members. -/
theorem assoc_builds (op : AssocOp) {args : List (Formula α)}
    (hargs : ∀ e ∈ args, e.Member A L) :
    Builds (assoc op args) L (fun L' e => e.Member A L') := by
  refine build_builds hA ?_ (operation_builds hA trivial hargs)
  intro r hr
  rw [assocRule] at hr
  split at hr
  · cases hr
  · rw [← Option.some.inj hr]
    exact flatten_builds hA op hargs

/-- The factories of sums, products and lengths of two members build members. -/
theorem pair_builds (op : AssocOp) {a b : Formula α} (ha : a.Member A L) (hb : b.Member A L) :
    Builds (assoc op [a, b]) L (fun L' e => e.Member A L') :=
  assoc_builds hA op (by simpa using ⟨ha, hb⟩)

/-! ## Squares -/

omit hA in
/-- Squares of members are members, if each square is. -/
theorem squares_builds_of {es : List (Formula α)}
    (h : ∀ e ∈ es, ∀ {L : Ledger α}, e.Member A L →
      Builds (square e) L (fun L' e => e.Member A L'))
    (hes : ∀ e ∈ es, e.Member A L) :
    Builds (squares es) L (fun L' es => ∀ e ∈ es, e.Member A L') := by
  induction es generalizing L with
  | nil => exact .pure (by simp)
  | cons e es ih =>
      have he := hes e List.mem_cons_self
      have htail : ∀ e' ∈ es, e'.Member A L := fun e' h' => hes e' (List.mem_cons_of_mem e h')
      rw [squares]
      refine .bind (h e List.mem_cons_self he) ?_
      intro L' s hL hs
      refine .bind (ih (fun e' h' => h e' (List.mem_cons_of_mem e h'))
        (Member.all_mono htail hL)) ?_
      intro L'' ss hL' hss
      exact .pure (by simpa using ⟨hs.mono hL', hss⟩)

/-- A square is built from members, by recursion over the factors of a product. -/
theorem square_builds (e : Formula α) {L : Ledger α} (he : e.Member A L) :
    Builds (square e) L (fun L' e => e.Member A L') := by
  induction e using inductionOnRefs generalizing L with
  | h id shape ih =>
      have hnew : Builds (new (.unary .square (node id shape))) L (fun L' e => e.Member A L') :=
        operation_builds hA trivial (by simpa [Shape.children] using he)
      cases shape with
      | const v => exact constant_builds hA _
      | assoc op args =>
          cases op with
          | hypot =>
              rw [square]
              refine .bind (squares_builds_of (fun e h _ => ih e h)
                fun e h => he.argument hA trivial h) ?_
              intro L' es _ hes
              exact assoc_builds hA .add hes
          | add => exact hnew
          | multiply => exact hnew
      | _ => exact hnew

/-! ## One argument, two arguments -/

/-- Unary functions of members are members. -/
theorem unary_builds (op : UnaryOp) {a : Formula α} (ha : a.Member A L) :
    Builds (unary op a) L (fun L' e => e.Member A L') := by
  have hnew : Builds (new (.unary op a)) L (fun L' e => e.Member A L') :=
    operation_builds hA trivial (by simpa [Shape.children] using ha)
  refine build_builds hA ?_ hnew
  intro r hr
  have hinner : ∀ {op inner}, a.shape = .unary op inner → inner.Member A L := by
    intro op inner hshape
    obtain ⟨id, shape⟩ := a
    subst hshape
    exact ha.argument hA trivial List.mem_cons_self
  unfold unaryRule at hr
  split at hr
  · next hshape => exact Option.some.inj hr ▸ .pure (hinner hshape)
  · next hshape => exact Option.some.inj hr ▸ .pure (hinner hshape)
  · next hshape => exact Option.some.inj hr ▸ .pure (hinner hshape)
  · exact Option.some.inj hr ▸ square_builds hA a ha
  · cases hr

/-- Binary functions of members are members. -/
theorem binary_builds (op : BinaryOp) {a b : Formula α} (ha : a.Member A L)
    (hb : b.Member A L) : Builds (binary op a b) L (fun L' e => e.Member A L') := by
  have hnew : Builds (new (.binary op a b)) L (fun L' e => e.Member A L') :=
    operation_builds hA trivial (by simpa [Shape.children] using ⟨ha, hb⟩)
  refine build_builds hA ?_ hnew
  intro r hr
  cases op with
  | subtract =>
      simp only [binaryRule] at hr
      split at hr
      · exact Option.some.inj hr ▸ .pure ha
      · split at hr
        · exact Option.some.inj hr ▸ unary_builds hA .negate hb
        · cases hr
  | divide =>
      simp only [binaryRule] at hr
      split at hr
      · exact Option.some.inj hr ▸ .pure (zero_member hA)
      · obtain ⟨divisor, _, rfl⟩ := Option.map_eq_some_iff.mp hr
        refine .bind (constant_builds hA _) ?_
        intro L' c hL hc
        exact pair_builds hA .multiply (ha.mono hL) hc
  | atan2 => cases hr
  | max => cases hr
  | min => cases hr

/-! ## All shapes -/

omit hA in
/-- A unary shape is rebuilt by its factory. -/
theorem ofShape_unary (op : UnaryOp) (a : Formula α) :
    ofShape (.unary op a) = unary op a := by
  rw [ofShape, rootRule, unary, build]
  cases foldConstants (.unary op a) <;> rfl

omit hA in
/-- A binary shape is rebuilt by its factory. -/
theorem ofShape_binary (op : BinaryOp) (a b : Formula α) :
    ofShape (.binary op a b) = binary op a b := by
  rw [ofShape, rootRule, binary, build]
  cases foldConstants (.binary op a b) <;> rfl

omit hA in
/-- Sums, products and lengths are rebuilt by theirs. -/
theorem ofShape_assoc (op : AssocOp) (args : List (Formula α)) :
    ofShape (.assoc op args) = assoc op args := by
  rw [ofShape, rootRule, assoc, build]
  cases foldConstants (.assoc op args) <;> rfl

omit hA in
/-- A table and a solver have no rule of their own. -/
theorem ofShape_tabulated (mark : NodeId) (t : Table α (Formula α)) (a : Formula α) :
    ofShape (.tabulated mark t a) = build (.tabulated mark t a) none := by
  rw [ofShape, rootRule, build]
  cases foldConstants (.tabulated mark t a) <;> rfl

omit hA in
/-- A conditional is rebuilt as it is, or gives way to the branch that a constant selects. -/
theorem ofShape_conditional (op : ConditionalOp) (c a b : Formula α) :
    ofShape (.conditional op c a b) = build (.conditional op c a b)
      (c.asConstant.map fun v => pure (if op.selectsFirst v then a else b)) := by
  rw [ofShape, rootRule, build]
  cases foldConstants (.conditional op c a b) <;> rfl

/-- The simple node for a shape over members is one if the node as it stands is. -/
theorem ofShape_builds {shape : Shape α (Formula α)}
    (hmember : ∀ c ∈ shape.children, c.Member A L)
    (hnew : Builds (new shape) L (fun L' e => e.Member A L')) :
    Builds (ofShape shape) L (fun L' e => e.Member A L') := by
  cases shape with
  | unary op a =>
      rw [ofShape_unary]
      exact unary_builds hA op (hmember a (by simp [Shape.children]))
  | binary op a b =>
      rw [ofShape_binary]
      exact binary_builds hA op (hmember a (by simp [Shape.children]))
        (hmember b (by simp [Shape.children]))
  | assoc op args =>
      rw [ofShape_assoc]
      exact assoc_builds hA op hmember
  | conditional op c a b =>
      rw [ofShape_conditional]
      refine build_builds hA ?_ hnew
      intro r hr
      obtain ⟨v, _, rfl⟩ := Option.map_eq_some_iff.mp hr
      refine .pure ?_
      split
      · exact hmember a (by simp [Shape.children])
      · exact hmember b (by simp [Shape.children])
  | tabulated mark t a =>
      rw [ofShape_tabulated]
      exact build_builds hA (by simp) hnew
  | const v => exact hnew
  | var name => exact hnew
  | solver s => exact hnew

omit hA in
/-- The simple node for a shape over known formulas is known. -/
theorem ofShape_known {shape : Shape α (Formula α)} (hrefs : ∀ r ∈ shape.refs, r.KnownTo L) :
    Builds (ofShape shape) L fun L' e => e.KnownTo L' :=
  (ofShape_builds trivial_admitsOperations
    (fun c hc => member_trivial (hrefs c (Shape.mem_refs_of_mem_children hc)))
    (new_builds (fun _ => trivial) hrefs)).mono fun _ _ _ h => h.known

end Operations

end Formula

end FormulaGraph
