import FormulaGraph.Formula.Derivative
import FormulaGraph.Proofs.Passes
import FormulaGraph.Proofs.Scoping
import FormulaGraph.Proofs.Spelling

/-!
# The tree a graph unfolds to

Graphs that differ in what they share unfold to one **tree**.  A tree is kept as a formula
in which no node but a variable has a number of its own, so that graphs unfold to the same
tree if and only if their trees are equal.  Guards are not unfolded, nor is the derivative
that comes with a table: they belong to the guard and to the table.

The value of a formula and its text depend on the tree alone.  So do the constructors: over
formulas that unfold to the same trees, and whatever numbers have been drawn before, they
build formulas that unfold to the same tree (`ofShape_agrees`).  For they look at
operations and constants, and at no number.
-/

namespace FormulaGraph

variable {α β γ δ : Type}

/-! ## Computations that agree -/

/-- Whatever numbers have been drawn before, the answers of the computations have one
image. -/
def Agree (f : β → γ) (x y : Fresh β) : Prop := ∀ m n, f (x.run m).1 = f (y.run n).1

namespace Agree

variable {f : β → γ} {x y z : Fresh β}

theorem symm (h : Agree f x y) : Agree f y x := fun m n => (h n m).symm

theorem trans (h : Agree f x y) (h' : Agree f y z) : Agree f x z :=
  fun m n => (h m 0).trans (h' 0 n)

/-- Results that agree are handed back in agreement. -/
theorem pure {b c : β} (h : f b = f c) : Agree f (Pure.pure b) (Pure.pure c) := fun _ _ => h

/-- What is built from agreeing results agrees, if it depends on nothing else. -/
theorem bind {ε : Type} {g : δ → ε} {k k' : β → Fresh δ} (h : Agree f x y)
    (hk : ∀ b c, f b = f c → Agree g (k b) (k' c)) : Agree g (x >>= k) (y >>= k') :=
  fun m n => hk _ _ (h m n) (x.run m).2 (y.run n).2

/-- What comes after a known answer. -/
theorem bind_pure {ε : Type} {g : δ → ε} {b : β} {k : β → Fresh δ} {y : Fresh δ}
    (h : Agree f x (Pure.pure b)) (hk : ∀ c, f c = f b → Agree g (k c) y) :
    Agree g (x >>= k) y :=
  fun m n => hk _ (h m 0) (x.run m).2 n

/-- Any answer may stand for the computation. -/
theorem answer (h : Agree f x y) (n : NodeId) : Agree f x (Pure.pure (y.run n).1) :=
  fun m _ => h m n

/-- Computations for the members of two lists, one after the other. -/
theorem mapM {ε : Type} {F : δ → Fresh β} {G : ε → Fresh β} {ds : List δ} {es : List ε}
    (h : List.Forall₂ (fun d e => Agree f (F d) (G e)) ds es) :
    Agree (List.map f) (ds.mapM F) (es.mapM G) := by
  induction h with
  | nil => exact .pure rfl
  | cons hhead _ ih =>
      rw [List.mapM_cons, List.mapM_cons]
      refine .bind hhead fun b c hbc => .bind ih fun bs cs hbcs => .pure ?_
      simp [hbc, hbcs]

/-- If each element is built into what is there already, so is the list. -/
theorem mapM_pure {F : δ → Fresh β} {ds : List δ} {bs : List β}
    (h : List.Forall₂ (fun d b => Agree f (F d) (Pure.pure b)) ds bs) :
    Agree (List.map f) (ds.mapM F) (Pure.pure bs) := by
  have hmapM : Agree (List.map f) (ds.mapM F) (bs.mapM fun b => Pure.pure b) := mapM h
  rwa [List.mapM_pure, List.map_id'] at hmapM

/-- A computation that agrees with the one for the image agrees with any other for an
argument with this image. -/
theorem of_image (image : δ → δ) {F : δ → Fresh β} (hF : ∀ a, Agree f (F a) (F (image a)))
    {a b : δ} (h : image a = image b) : Agree f (F a) (F b) :=
  (hF a).trans (h ▸ (hF b).symm)

end Agree

namespace Formula

/-! ## Trees -/

mutual

/-- The tree a graph unfolds to. -/
def tree : Formula α → Formula α
  | node _ (.const v) => node 0 (.const v)
  | node id (.var name) => node id (.var name)
  | node _ (.unary op a) => node 0 (.unary op (tree a))
  | node _ (.binary op a b) => node 0 (.binary op (tree a) (tree b))
  | node _ (.assoc op args) => node 0 (.assoc op (trees args))
  | node _ (.conditional op c a b) => node 0 (.conditional op (tree c) (tree a) (tree b))
  | node _ (.tabulated _ t a) => node 0 (.tabulated 0 t (tree a))
  | node _ (.solver ⟨body, bound, low, high, precision, guard⟩) =>
    node 0 (.solver ⟨tree body, bound, tree low, tree high, tree precision, guard⟩)

/-- The trees several graphs unfold to. -/
def trees : List (Formula α) → List (Formula α)
  | [] => []
  | e :: es => tree e :: trees es

end

/-- Several formulas are unfolded one by one. -/
theorem trees_eq_map (es : List (Formula α)) : trees es = es.map tree := by
  induction es with
  | nil => rfl
  | cons e es ih => rw [trees, ih, List.map_cons]

/-- What relates each formula to its tree relates the lists. -/
theorem forall₂_map_tree {R : Formula α → Formula α → Prop} {es : List (Formula α)}
    (h : ∀ e ∈ es, R e e.tree) : List.Forall₂ R es (es.map tree) := by
  rw [List.forall₂_map_right_iff]
  exact List.forall₂_same.mpr h

end Formula

/-- The shape over the trees of its children. -/
def Shape.tree : Shape α (Formula α) → Shape α (Formula α)
  | const v => const v
  | var name => var name
  | unary op a => unary op a.tree
  | binary op a b => binary op a.tree b.tree
  | assoc op args => assoc op (args.map Formula.tree)
  | conditional op c a b => conditional op c.tree a.tree b.tree
  | tabulated _ t a => tabulated 0 t a.tree
  | solver s => solver
      { s with body := s.body.tree, low := s.low.tree, high := s.high.tree,
               precision := s.precision.tree }

namespace Formula

/-- Unfolding forgets the identity of every node that is not a variable. -/
theorem tree_node {id : NodeId} {shape : Shape α (Formula α)} (h : ∀ name, shape ≠ .var name) :
    (node id shape).tree = node 0 shape.tree := by
  cases shape with
  | var name => exact absurd rfl (h name)
  | assoc op args => rw [tree, trees_eq_map, Shape.tree]
  | _ => rfl

@[simp] theorem tree_var (id : NodeId) (name : String) :
    (node id (.var name) : Formula α).tree = node id (.var name) := rfl

/-- The tree of a formula has the tree of its shape. -/
@[simp] theorem shape_tree (e : Formula α) : e.tree.shape = e.shape.tree := by
  obtain ⟨id, shape⟩ := e
  by_cases h : ∀ name, shape ≠ .var name
  · rw [tree_node h, shape_node, shape_node]
  · obtain ⟨name, rfl⟩ : ∃ name, shape = .var name := by simpa using h
    rfl

end Formula

namespace Shape

/-- The children of a tree are the trees of the children. -/
@[simp] theorem children_tree (shape : Shape α (Formula α)) :
    shape.tree.children = shape.children.map Formula.tree := by
  cases shape <;> rfl

/-- Unfolding makes no variables. -/
theorem tree_ne_var {shape : Shape α (Formula α)} (h : ∀ name, shape ≠ .var name) :
    ∀ name, shape.tree ≠ .var name := by
  cases shape <;> simp_all [tree]

/-- Unfolding commutes with putting a node over other children. -/
theorem withChildren_tree (shape : Shape α (Formula α)) (es : List (Formula α)) :
    shape.tree.withChildren? (es.map Formula.tree) = (shape.withChildren? es).map tree := by
  -- No shape takes more than four children, except those that take any number.
  rcases es with _ | ⟨a, _ | ⟨b, _ | ⟨c, _ | ⟨d, _ | ⟨e, es⟩⟩⟩⟩⟩ <;> cases shape <;> rfl

end Shape

namespace Formula

/-- A tree unfolds to itself. -/
@[simp] theorem tree_tree (e : Formula α) : e.tree.tree = e.tree := by
  induction e using inductionOnRefs with
  | h id shape ih =>
      have hchildren : ∀ c ∈ shape.children, c.tree.tree = c.tree := fun c hc =>
        ih c (Shape.mem_refs_of_mem_children hc)
      cases shape with
      | solver s =>
          obtain ⟨body, bound, low, high, precision, guard⟩ := s
          simp_all [tree, Shape.children, Solver.children]
      | _ => simp_all [tree, trees_eq_map, Shape.children]

/-- A tree is the constant its formula is. -/
@[simp] theorem asConstant_tree (e : Formula α) : e.tree.asConstant = e.asConstant := by
  obtain ⟨id, shape⟩ := e
  cases shape <;> rfl

@[simp] theorem isConstant_tree (e : Formula α) : e.tree.isConstant = e.isConstant := by
  rw [isConstant, asConstant_tree, isConstant]

/-- A tree is the sum, product or length its formula is. -/
@[simp] theorem isAssoc_tree (op : AssocOp) (e : Formula α) : e.tree.isAssoc op = e.isAssoc op := by
  obtain ⟨id, shape⟩ := e
  cases shape <;> rfl

variable [Scalar α]

@[simp] theorem isConstantValue_tree (e : Formula α) (v : α) :
    e.tree.isConstantValue v = e.isConstantValue v := by
  rw [isConstantValue, asConstant_tree, isConstantValue]

/-- Formulas of one tree are compared with numbers alike. -/
theorem isConstantValue_congr {c c' : Formula α} (h : c.tree = c'.tree) (v : α) :
    c.isConstantValue v = c'.isConstantValue v := by
  rw [← isConstantValue_tree, h, isConstantValue_tree]

/-! ## What depends on the tree alone -/

/-- The value of a formula is that of its tree. -/
theorem value_tree (ρ : Valuation α) (e : Formula α) : e.tree.value ρ = e.value ρ := by
  induction e using inductionOnRefs generalizing ρ with
  | h id shape ih =>
      have hchildren : ∀ c ∈ shape.children, ∀ ρ, c.tree.value ρ = c.value ρ := fun c hc ρ =>
        ih c (Shape.mem_refs_of_mem_children hc) ρ
      cases shape with
      | solver s =>
          obtain ⟨body, bound, low, high, precision, guard⟩ := s
          simp_all [tree, value, Shape.children, Solver.children]
      | assoc op args =>
          simp only [Shape.children] at hchildren
          simp only [tree, value, values_eq_map, trees_eq_map, List.map_map]
          exact congrArg op.apply (List.map_congr_left fun c hc => hchildren c hc ρ)
      | _ => simp_all [tree, value, Shape.children]

/-- Parentheses depend on the tree only. -/
@[simp] theorem priority_tree (e : Formula α) : e.tree.priority = e.priority := by
  obtain ⟨id, shape⟩ := e
  cases shape <;> rfl

section Text

variable [ScalarText α]

attribute [local simp] text labelAt_none

/-- A tree is shown as its formula, as long as the marks of tables do not show. -/
theorem text_tree (depth : Nat) (e : Formula α) :
    e.tree.text (fun _ => none) false depth = e.text (fun _ => none) false depth := by
  induction e using inductionOnRefs generalizing depth with
  | h id shape ih =>
      have hchildren : ∀ c ∈ shape.children, ∀ depth,
          c.tree.text (fun _ => none) false depth = c.text (fun _ => none) false depth :=
        fun c hc => ih c (Shape.mem_refs_of_mem_children hc)
      cases shape with
      | unary op a => cases op <;> simp_all [tree, enclose_none, Shape.children]
      | binary op a b => cases op <;> simp_all [tree, enclose_none, Shape.children]
      | assoc op args =>
          have htexts : (args.map tree).map (text (fun _ => none) false (depth - 1)) =
              args.map (text (fun _ => none) false (depth - 1)) := by
            rw [List.map_map]
            exact List.map_congr_left fun c hc => hchildren c hc _
          have henclosed : ∀ place,
              (args.map tree).map (fun c => enclose (fun _ => none) (depth - 1) place c
                (text (fun _ => none) false (depth - 1) c)) =
              args.map fun c => enclose (fun _ => none) (depth - 1) place c
                (text (fun _ => none) false (depth - 1) c) := by
            intro place
            rw [List.map_map]
            refine List.map_congr_left fun c hc => ?_
            simp [enclose_none, hchildren c hc]
          cases op with
          | hypot => simp only [tree, trees_eq_map, text, labelAt_none, texts_eq_map, htexts]
          | _ =>
              simp only [tree, trees_eq_map, text, labelAt_none, texts_eq_map, encloseAll_map,
                henclosed]
      | solver s =>
          obtain ⟨body, bound, low, high, precision, guard⟩ := s
          simp_all [tree, Shape.children, Solver.children]
      | _ => simp_all [tree, Shape.children]

/-- Formulas that unfold to one tree are displayed alike. -/
theorem display_eq_of_tree_eq {d e : Formula α} (h : d.tree = e.tree) : d.display = e.display := by
  rw [display, ← text_tree, h, text_tree, display]

end Text

/-! ## The constructors -/

omit [Scalar α] in
/-- The constants among arguments are found in their trees. -/
theorem filterMap_asConstant_map_tree (es : List (Formula α)) :
    (es.map tree).filterMap asConstant = es.filterMap asConstant := by
  rw [List.filterMap_map]
  exact List.filterMap_congr fun e _ => asConstant_tree e

/-- Constants are folded alike in a shape and in its tree. -/
theorem foldConstants_tree (shape : Shape α (Formula α)) :
    foldConstants shape.tree = foldConstants shape := by
  by_cases hvar : ∃ name, shape = .var name
  · obtain ⟨name, rfl⟩ := hvar
    rfl
  · have hne : ∀ name, shape ≠ .var name := fun name h => hvar ⟨name, h⟩
    have hvalue : value (fun _ => Scalar.nan) (node 0 shape.tree) =
        value (fun _ => Scalar.nan) (node 0 shape) := by
      have hnode : (node 0 shape).tree = node 0 shape.tree := tree_node hne
      rw [← hnode, value_tree]
    have hall : shape.tree.children.all isConstant = shape.children.all isConstant := by
      rw [Shape.children_tree, List.all_map]
      exact congrArg (List.all _) (funext isConstant_tree)
    cases shape with
    | const v => rfl
    | var name => rfl
    | solver s => rfl
    | _ => exact if_congr (by rw [hall]) (congrArg some hvalue) rfl

omit [Scalar α] in
/-- A node as it stands. -/
theorem new_agrees {shape shape' : Shape α (Formula α)} (h : shape.tree = shape'.tree)
    (hvar : ∀ name, shape ≠ .var name) : Agree tree (new shape) (new shape') := by
  intro m n
  have hvar' : ∀ name, shape' ≠ .var name := by
    rintro name rfl
    exact Shape.tree_ne_var hvar name h
  have hrun : ∀ (s : Shape α (Formula α)) k, ((new s).run k).1 = node k s := fun _ _ => rfl
  rw [hrun, hrun, tree_node hvar, tree_node hvar', h]

omit [Scalar α] in
/-- A node built once more. -/
theorem new_agrees_node {e : Formula α} (hvar : ∀ name, e.shape ≠ .var name) :
    Agree tree (new e.shape) (pure e) := by
  obtain ⟨id, shape⟩ := e
  exact (new_agrees rfl hvar).answer id

omit [Scalar α] in
/-- A constant is a leaf, whatever its identity. -/
theorem constant_agrees (v : α) : Agree tree (constant v) (constant v) :=
  new_agrees rfl (by simp)

/-- Nodes built from shapes of one tree agree, if the rules that come before do. -/
theorem build_agrees {shape shape' : Shape α (Formula α)}
    {rule rule' : Option (Fresh (Formula α))} (h : shape.tree = shape'.tree)
    (hvar : ∀ name, shape ≠ .var name) (hrule : Option.Rel (Agree tree) rule rule') :
    Agree tree (build shape rule) (build shape' rule') := by
  have hfold : foldConstants shape = foldConstants shape' := by
    rw [← foldConstants_tree, h, foldConstants_tree]
  rw [build, build, hfold]
  cases foldConstants shape' with
  | some v => exact constant_agrees v
  | none =>
      cases hrule with
      | none => exact new_agrees h hvar
      | some hr => exact hr

/-! ### Sums, products and lengths -/

omit [Scalar α] in
/-- Several arguments are taken apart one by one. -/
theorem argumentsOfAll_eq_flatMap (op : AssocOp) (es : List (Formula α)) :
    argumentsOfAll op es = es.flatMap (argumentsOf op) := by
  induction es with
  | nil => rfl
  | cons e es ih => rw [argumentsOfAll, ih, List.flatMap_cons]

omit [Scalar α] in
/-- A tree is taken apart into the trees of the arguments. -/
theorem argumentsOf_tree (op : AssocOp) (e : Formula α) :
    argumentsOf op e.tree = (argumentsOf op e).map tree := by
  induction e using inductionOnRefs with
  | h id shape ih =>
      cases shape with
      | assoc inner args =>
          have hargs : (args.map tree).flatMap (argumentsOf op) =
              (args.flatMap (argumentsOf op)).map tree := by
            rw [List.flatMap_map, List.map_flatMap]
            exact List.flatMap_congr fun a ha => ih a ha
          rw [tree, trees_eq_map, argumentsOf, argumentsOf, argumentsOfAll_eq_flatMap,
            argumentsOfAll_eq_flatMap, hargs]
          split
          · rfl
          · rw [List.map_singleton, tree, trees_eq_map]
      | _ => rfl

omit [Scalar α] in
/-- The trees of all arguments of a list are the arguments of the trees. -/
theorem argumentsOfAll_tree (op : AssocOp) (es : List (Formula α)) :
    argumentsOfAll op (es.map tree) = (argumentsOfAll op es).map tree := by
  rw [argumentsOfAll_eq_flatMap, argumentsOfAll_eq_flatMap, List.flatMap_map, List.map_flatMap]
  exact List.flatMap_congr fun e _ => argumentsOf_tree op e

/-- Whether arguments are in order is seen from their trees. -/
theorem isCanonical_tree (op : AssocOp) (args : List (Formula α)) :
    isCanonical op (args.map tree) = isCanonical op args := by
  have hplace : (constantPlace? op (args.map tree)).any isConstant =
      (constantPlace? op args).any isConstant := by
    cases op <;> simp [constantPlace?, Option.any_map]
  simp only [isCanonical, List.all_map, List.any_map, List.length_map,
    filterMap_asConstant_map_tree, hplace, Function.comp_def, isConstant_tree, isAssoc_tree]

variable {args args' terms terms' : List (Formula α)}

/-- The constant that is put in front is a leaf, and does not depend on the terms. -/
theorem addConstant_agrees (op : AssocOp) (v : α) (h : terms.map tree = terms'.map tree) :
    Agree (List.map tree) (addConstant op v terms) (addConstant op v terms') := by
  rw [addConstant, addConstant]
  split
  · exact .pure h
  · refine .bind (constant_agrees v) fun c c' hc => ?_
    cases op <;> exact .pure (by simp [h, hc])

/-- Flattening agrees on arguments of one tree each. -/
theorem flatten_agrees (op : AssocOp) (h : args.map tree = args'.map tree) :
    Agree tree (flatten op args) (flatten op args') := by
  have hflat : (argumentsOfAll op args).map tree = (argumentsOfAll op args').map tree := by
    rw [← argumentsOfAll_tree, h, argumentsOfAll_tree]
  have hconstants : (argumentsOfAll op args).filterMap asConstant =
      (argumentsOfAll op args').filterMap asConstant := by
    rw [← filterMap_asConstant_map_tree, hflat, filterMap_asConstant_map_tree]
  have hterms : ((argumentsOfAll op args).filter fun e => !e.isConstant).map tree =
      ((argumentsOfAll op args').filter fun e => !e.isConstant).map tree := by
    have hfilter := congrArg (List.filter fun e => !e.isConstant) hflat
    simpa [List.filter_map, Function.comp_def] using hfilter
  have hempty := congrArg List.isEmpty hterms
  rw [List.isEmpty_map, List.isEmpty_map] at hempty
  rw [flatten, flatten, hconstants, hempty]
  split
  · exact .pure rfl
  · split
    · exact constant_agrees _
    · refine .bind (addConstant_agrees op _ hterms) fun ts ts' hts => ?_
      have hnew : Agree tree (new (.assoc op ts)) (new (.assoc op ts')) :=
        new_agrees (congrArg (Shape.assoc op) hts) (by simp)
      rcases ts with _ | ⟨e, _ | ⟨e₂, ts⟩⟩
      · obtain rfl : ts' = [] := by simpa using hts.symm
        cases op <;> exact hnew
      · obtain ⟨e', rfl, he⟩ := List.map_eq_singleton_iff.mp hts.symm
        cases op with
        | hypot => exact hnew
        | _ => exact .pure he.symm
      · rcases ts' with _ | ⟨e', _ | ⟨e₂', ts'⟩⟩
        · simp at hts
        · simp at hts
        · cases op <;> exact hnew

/-- Sums, products and lengths of the same trees have the same trees. -/
theorem assoc_agrees (op : AssocOp) (h : args.map tree = args'.map tree) :
    Agree tree (assoc op args) (assoc op args') := by
  refine build_agrees (congrArg (Shape.assoc op) h) (by simp) ?_
  have hcanonical : isCanonical op args = isCanonical op args' := by
    rw [← isCanonical_tree, h, isCanonical_tree]
  rw [assocRule, assocRule, hcanonical]
  split
  · exact .none
  · exact .some (flatten_agrees op h)

/-! ### Squares -/

/-- Squares are built one after another. -/
theorem squares_eq_mapM (es : List (Formula α)) : squares es = es.mapM square := by
  induction es with
  | nil => rw [squares, List.mapM_nil]
  | cons e es ih => rw [squares, List.mapM_cons, ih]

/-- A square is built from a formula as from its tree. -/
theorem square_agrees_tree (e : Formula α) : Agree tree (square e) (square e.tree) := by
  induction e using inductionOnRefs with
  | h id shape ih =>
      have hnew : Agree tree (new (.unary .square (node id shape)))
          (new (.unary .square (node id shape).tree)) :=
        new_agrees (by simp [Shape.tree]) (by simp)
      cases shape with
      | const v => exact constant_agrees _
      | assoc op args =>
          cases op with
          | hypot =>
              rw [tree, trees_eq_map, square, square, squares_eq_mapM, squares_eq_mapM]
              exact .bind (.mapM (forall₂_map_tree ih)) fun ss ss' hss => assoc_agrees .add hss
          | _ => simpa only [tree, trees_eq_map, square] using hnew
      | _ => exact hnew

/-- Squares of formulas of one tree agree. -/
theorem square_agrees {a a' : Formula α} (h : a.tree = a'.tree) :
    Agree tree (square a) (square a') :=
  .of_image tree square_agrees_tree h

/-! ### One argument, two arguments -/

/-- The rules for unary functions look at the tree alone. -/
theorem unaryRule_agrees_tree (op : UnaryOp) (a : Formula α) :
    Option.Rel (Agree tree) (unaryRule op a) (unaryRule op a.tree) := by
  obtain ⟨id, shape⟩ := a
  cases shape with
  | unary inner b =>
      have hinner : Agree tree (pure b) (pure b.tree) := .pure (tree_tree b).symm
      cases op <;> cases inner <;> first | exact .none | exact .some hinner
  | assoc inner args =>
      cases op <;> cases inner <;> first | exact .none | exact .some (square_agrees_tree _)
  | _ => cases op <;> exact .none

/-- Unary functions of formulas of one tree agree. -/
theorem unary_agrees (op : UnaryOp) {a a' : Formula α} (h : a.tree = a'.tree) :
    Agree tree (unary op a) (unary op a') := by
  refine .of_image tree (fun a => ?_) h
  exact build_agrees (by simp [Shape.tree]) (by simp) (unaryRule_agrees_tree op a)

/-- Binary functions of formulas of one tree agree. -/
theorem binary_agrees (op : BinaryOp) {a a' b b' : Formula α} (ha : a.tree = a'.tree)
    (hb : b.tree = b'.tree) : Agree tree (binary op a b) (binary op a' b') := by
  refine build_agrees (congrArg₂ (Shape.binary op) ha hb) (by simp) ?_
  cases op with
  | subtract =>
      rw [binaryRule, binaryRule, isConstantValue_congr ha, isConstantValue_congr hb]
      split
      · exact .some (.pure ha)
      · split
        · exact .some (unary_agrees .negate hb)
        · exact .none
  | divide =>
      have hconstant : b.asConstant = b'.asConstant := by
        rw [← asConstant_tree, hb, asConstant_tree]
      rw [binaryRule, binaryRule, isConstantValue_congr ha, isConstantValue_congr hb, hconstant]
      split
      · exact .some (.pure rfl)
      · cases b'.asConstant with
        | none => exact .none
        | some v =>
            refine .some (.bind (constant_agrees _) fun c c' hc => assoc_agrees .multiply ?_)
            simp [ha, hc]
  | _ => exact .none

/-! ### All shapes -/

/-- **The simple node for a shape unfolds to a tree that depends only on the trees the shape is
over.** -/
theorem ofShape_agrees {shape shape' : Shape α (Formula α)} (h : shape.tree = shape'.tree)
    (hvar : ∀ name, shape ≠ .var name) : Agree tree (ofShape shape) (ofShape shape') := by
  have htree : ∀ s : Shape α (Formula α), (∀ name, s ≠ .var name) →
      Agree tree (ofShape s) (ofShape s.tree) := by
    intro s hs
    cases s with
    | const v => exact constant_agrees v
    | var name => exact absurd rfl (hs name)
    | unary op a =>
        rw [Shape.tree, ofShape_unary, ofShape_unary]
        exact unary_agrees op (tree_tree a).symm
    | binary op a b =>
        rw [Shape.tree, ofShape_binary, ofShape_binary]
        exact binary_agrees op (tree_tree a).symm (tree_tree b).symm
    | assoc op args =>
        rw [Shape.tree, ofShape_assoc, ofShape_assoc]
        exact assoc_agrees op (by simp)
    | conditional op c a b =>
        rw [Shape.tree, ofShape_conditional, ofShape_conditional, asConstant_tree]
        refine build_agrees (by simp [Shape.tree]) (by simp) ?_
        cases c.asConstant with
        | none => exact .none
        | some v =>
            refine .some (.pure ?_)
            split
            · exact (tree_tree a).symm
            · exact (tree_tree b).symm
    | tabulated mark t a =>
        rw [Shape.tree, ofShape_tabulated, ofShape_tabulated]
        exact build_agrees (by simp [Shape.tree]) (by simp) .none
    | solver s => exact new_agrees (by simp [Shape.tree]) (by simp)
  have hvar' : ∀ name, shape' ≠ .var name := by
    rintro name rfl
    exact Shape.tree_ne_var hvar name h
  exact (htree shape hvar).trans (h ▸ (htree shape' hvar').symm)

/-- A node put over other children is a simple node, and so is a tree. -/
theorem rebuild_agrees {e e' : Formula α} {ds ds' : List (Formula α)} (he : e.tree = e'.tree)
    (hds : ds.map tree = ds'.map tree) : Agree tree (rebuild e ds) (rebuild e' ds') := by
  have hshape : (e.shape.withChildren? ds).map Shape.tree =
      (e'.shape.withChildren? ds').map Shape.tree := by
    rw [← Shape.withChildren_tree, ← Shape.withChildren_tree, ← shape_tree, ← shape_tree, he, hds]
  rw [rebuild, rebuild]
  cases hfound : e.shape.withChildren? ds with
  | none =>
      have hnone : e'.shape.withChildren? ds' = none := by
        rw [hfound] at hshape
        simpa using hshape.symm
      rw [hnone]
      exact .pure he
  | some shape =>
      rw [hfound] at hshape
      obtain ⟨shape', hfound', htree⟩ := Option.map_eq_some_iff.mp hshape.symm
      rw [hfound']
      exact ofShape_agrees htree.symm (not_var_of_withChildren hfound)

end Formula

end FormulaGraph
