import FormulaGraph.Formula.Basic

/-!
# What a formula consists of

A formula *refers* to its children, and to three kinds of formulas it is not
computed from directly: the variable a solver binds, the formula of a guard, and
the derivative supplied with a table.  Going on along references reaches its
**parts**; going on along children only reaches what is **within** it, which is
what the value of a solver-free formula depends on.  The children of a solver are
consulted at different times: its bounds and its precision in the pass it is evaluated
in, its body and its guard in every trial anew.

Numbers are identities only if no two nodes in use bear the same one.  A
**directory** says which node bears which number; a formula is listed in it when
all its parts are.  Formulas listed in one directory may share nodes in any way.
-/

namespace FormulaGraph

namespace Guard

variable {α ε : Type}

/-- The formulas a guard refers to. -/
def refs : Guard α ε → List ε
  | custom _ => []
  | positive e => [e]

end Guard

namespace Solver

variable {α : Type}

/-- What the trials of a solver consult: the body and the formula of the guard. -/
def trialParts {ε : Type} (s : Solver α ε) : List ε := s.body :: s.guard.toList.flatMap (·.2.refs)

/-- The formulas a solver refers to. -/
def refs (s : Solver α (Formula α)) : List (Formula α) :=
  s.bound.formula :: s.children ++ s.guard.toList.flatMap (·.2.refs)

end Solver

namespace Shape

variable {α : Type}

/-- The formulas a shape refers to. -/
def refs : Shape α (Formula α) → List (Formula α)
  | tabulated _ t a => a :: t.derivative.toList
  | solver s => s.refs
  | shape => shape.children

/-- Children are among the nodes referred to. -/
theorem mem_refs_of_mem_children {shape : Shape α (Formula α)} {c : Formula α}
    (h : c ∈ shape.children) : c ∈ shape.refs := by
  cases shape with
  | tabulated mark t a => exact List.mem_cons.mpr (Or.inl (by simpa [children] using h))
  | solver s => exact List.mem_append_left _ (List.mem_cons_of_mem _ h)
  | _ => exact h

/-- What is consulted in the pass a node is evaluated in: of a solver, its bounds and
its precision. -/
def passParts : Shape α (Formula α) → List (Formula α)
  | solver s => [s.low, s.high, s.precision]
  | shape => shape.children

/-- What is consulted in the trials of a node. -/
def trialParts : Shape α (Formula α) → List (Formula α)
  | solver s => s.trialParts
  | _ => []

/-- Only a solver has parts that a pass does not come to by itself. -/
theorem passParts_eq_children {shape : Shape α (Formula α)} (h : ∀ s, shape ≠ .solver s) :
    shape.passParts = shape.children := by
  cases shape with
  | solver s => exact absurd rfl (h s)
  | _ => rfl

/-- What a pass comes to are children. -/
theorem mem_children_of_mem_passParts {shape : Shape α (Formula α)} {c : Formula α}
    (h : c ∈ shape.passParts) : c ∈ shape.children := by
  cases shape with
  | solver s => exact List.mem_cons_of_mem _ h
  | _ => exact h

/-- The parts of a pass are among the nodes referred to. -/
theorem mem_refs_of_mem_passParts {shape : Shape α (Formula α)} {c : Formula α}
    (h : c ∈ shape.passParts) : c ∈ shape.refs :=
  mem_refs_of_mem_children (mem_children_of_mem_passParts h)

/-- Only a solver has parts for its trials. -/
theorem exists_solver_of_mem_trialParts {shape : Shape α (Formula α)} {c : Formula α}
    (h : c ∈ shape.trialParts) : ∃ s, shape = .solver s ∧ c ∈ s.trialParts := by
  cases shape with
  | solver s => exact ⟨s, rfl, h⟩
  | _ => cases h

/-- The parts of a solver for its trials are among the nodes referred to. -/
theorem mem_refs_of_mem_trialParts {shape : Shape α (Formula α)} {c : Formula α}
    (h : c ∈ shape.trialParts) : c ∈ shape.refs := by
  cases shape with
  | solver s =>
      rcases List.mem_cons.mp h with rfl | h
      · exact mem_refs_of_mem_children List.mem_cons_self
      · exact List.mem_append_right _ h
  | _ => cases h

end Shape

namespace Formula

variable {α : Type}

@[simp] theorem id_node (id : NodeId) (shape : Shape α (Formula α)) :
    (node id shape).id = id := rfl

@[simp] theorem shape_node (id : NodeId) (shape : Shape α (Formula α)) :
    (node id shape).shape = shape := rfl

@[simp] theorem children_node (id : NodeId) (shape : Shape α (Formula α)) :
    (node id shape).children = shape.children := rfl

/-! ## Induction along references -/

private theorem of_leaf {P : Formula α → Prop}
    (h : ∀ id shape, (∀ r ∈ Shape.refs shape, P r) → P (node id shape))
    {id : NodeId} {name : String} : P (node id (.var name)) :=
  h id _ (by simp [Shape.refs, Shape.children])

mutual

/-- What holds of a node as soon as it holds of all it refers to holds of every
formula. -/
theorem inductionOnRefs {P : Formula α → Prop}
    (h : ∀ id shape, (∀ r ∈ Shape.refs shape, P r) → P (node id shape)) :
    ∀ e : Formula α, P e
  | node id (.const v) => h id _ (by simp [Shape.refs, Shape.children])
  | node id (.var name) => of_leaf h
  | node id (.unary op a) => h id _ (by
      have ha := inductionOnRefs h a
      simpa [Shape.refs, Shape.children] using ha)
  | node id (.binary op a b) => h id _ (by
      have ha := inductionOnRefs h a
      have hb := inductionOnRefs h b
      simpa [Shape.refs, Shape.children] using ⟨ha, hb⟩)
  | node id (.assoc op args) => h id _ (inductionOnRefsAll h args)
  | node id (.conditional op c a b) => h id _ (by
      have hc := inductionOnRefs h c
      have ha := inductionOnRefs h a
      have hb := inductionOnRefs h b
      simpa [Shape.refs, Shape.children] using ⟨hc, ha, hb⟩)
  | node id (.tabulated mark ⟨name, values, min, step, derivative, size⟩ a) => h id _ (by
      have ha := inductionOnRefs h a
      have hd := inductionOnRefsOption h derivative
      simpa [Shape.refs] using ⟨ha, hd⟩)
  | node id (.solver ⟨body, bound, low, high, precision, guard⟩) => h id _ (by
      have hbody := inductionOnRefs h body
      have hlow := inductionOnRefs h low
      have hhigh := inductionOnRefs h high
      have hprecision := inductionOnRefs h precision
      have hguard := inductionOnRefsGuard h guard
      have hbound : P bound.formula := of_leaf h
      intro r hr
      simp only [Shape.refs, Solver.refs, Solver.children, List.cons_append, List.nil_append,
        List.mem_cons, List.mem_flatMap, Option.mem_toList] at hr
      rcases hr with rfl | rfl | rfl | rfl | rfl | ⟨g, hg, hr⟩
      · exact hbound
      · exact hbody
      · exact hlow
      · exact hhigh
      · exact hprecision
      · exact hguard g hg r hr)

private theorem inductionOnRefsAll {P : Formula α → Prop}
    (h : ∀ id shape, (∀ r ∈ Shape.refs shape, P r) → P (node id shape)) :
    ∀ es : List (Formula α), ∀ r ∈ es, P r
  | [] => by simp
  | e :: es => by
      have he := inductionOnRefs h e
      have hes := inductionOnRefsAll h es
      simpa using ⟨he, hes⟩

private theorem inductionOnRefsOption {P : Formula α → Prop}
    (h : ∀ id shape, (∀ r ∈ Shape.refs shape, P r) → P (node id shape)) :
    ∀ d : Option (Formula α), ∀ r ∈ d, P r
  | none => by simp
  | some d => by
      have hd := inductionOnRefs h d
      simpa using hd

private theorem inductionOnRefsGuard {P : Formula α → Prop}
    (h : ∀ id shape, (∀ r ∈ Shape.refs shape, P r) → P (node id shape)) :
    ∀ guard : Option (NodeId × Guard α (Formula α)), ∀ g ∈ guard, ∀ r ∈ g.2.refs, P r
  | some (_, .positive e) => by
      have he := inductionOnRefs h e
      simpa [Guard.refs] using he
  | some (_, .custom _) => by simp [Guard.refs]
  | none => by simp

end

/-! ## Formulas within a formula -/

/-- `d.Within e`: going on from child to child leads from `e` to `d`. -/
inductive Within : Formula α → Formula α → Prop
  | refl (e : Formula α) : Within e e
  | child {d c e : Formula α} (hc : c ∈ e.children) (hd : Within d c) : Within d e

/-- Parts of parts are parts. -/
theorem Within.trans {c d e : Formula α} (hcd : c.Within d) (hde : d.Within e) :
    c.Within e := by
  induction hde with
  | refl => exact hcd
  | child hc _ ih => exact .child hc ih

/-- The parts of a node are the node itself and those of its children. -/
theorem within_node {d : Formula α} {id : NodeId} {shape : Shape α (Formula α)} :
    d.Within (node id shape) ↔ d = node id shape ∨ ∃ c ∈ shape.children, d.Within c := by
  refine ⟨?_, ?_⟩
  · intro h
    cases h with
    | refl => exact .inl rfl
    | child hc hd => exact .inr ⟨_, hc, hd⟩
  · intro hcases
    rcases hcases with rfl | ⟨c, hc, hd⟩
    · exact .refl _
    · exact .child hc hd

/-- What holds of all within a node holds of the node and of all within its children. -/
theorem forall_within_node {P : Formula α → Prop} {id : NodeId} {shape : Shape α (Formula α)} :
    (∀ d : Formula α, d.Within (node id shape) → P d) ↔
      P (node id shape) ∧ ∀ c ∈ shape.children, ∀ d : Formula α, d.Within c → P d := by
  refine ⟨fun h => ⟨h _ (.refl _), fun c hc d hd => h d (.child hc hd)⟩, fun h d hd => ?_⟩
  rcases within_node.mp hd with rfl | ⟨c, hc, hdc⟩
  · exact h.1
  · exact h.2 c hc d hdc

/-- No formula is within one of its children. -/
theorem not_within_child (e : Formula α) : ∀ c ∈ e.children, ¬ e.Within c := by
  induction e using inductionOnRefs with
  | h id shape ih =>
      intro c hc hwithin
      have hchild := ih c (Shape.mem_refs_of_mem_children hc)
      cases hwithin with
      | refl => exact hchild _ hc (.refl _)
      | child hc' hd => exact hchild _ hc' (Within.trans (.child hc (.refl c)) hd)

/-- What contains a formula and is closed under children contains all within the formula. -/
theorem Within.mem_of_closed {d e : Formula α} (h : d.Within e) {nodes : List (Formula α)}
    (hclosed : ∀ f ∈ nodes, ∀ c ∈ f.children, c ∈ nodes) (he : e ∈ nodes) : d ∈ nodes := by
  induction h with
  | refl => exact he
  | child hc _ ih => exact ih (hclosed _ he _ hc)

/-- All nodes within the formula satisfy `A`. -/
inductive Everywhere (A : NodeId → Shape α (Formula α) → Prop) : Formula α → Prop
  | node {id : NodeId} {shape : Shape α (Formula α)} (here : A id shape)
      (children : ∀ c ∈ shape.children, Everywhere A c) : Everywhere A (node id shape)

variable {A : NodeId → Shape α (Formula α) → Prop}

/-- What holds everywhere holds at the root. -/
theorem Everywhere.here {e : Formula α} (he : e.Everywhere A) : A e.id e.shape := by
  cases he with
  | node here _ => exact here

/-- What holds everywhere in a formula holds everywhere in its children. -/
theorem Everywhere.child {c e : Formula α} (he : e.Everywhere A) (hc : c ∈ e.children) :
    c.Everywhere A := by
  cases he with
  | node _ children => exact children c hc

/-- All nodes within a node are the node itself and those within its children. -/
theorem everywhere_node {id : NodeId} {shape : Shape α (Formula α)} :
    (node id shape).Everywhere A ↔ A id shape ∧ ∀ c ∈ shape.children, c.Everywhere A :=
  ⟨fun h => ⟨h.here, fun _ hc => h.child hc⟩, fun h => .node h.1 h.2⟩

/-- What holds everywhere in a formula holds everywhere in what is within it. -/
theorem Everywhere.within {d e : Formula α} (he : e.Everywhere A) (hd : d.Within e) :
    d.Everywhere A := by
  induction hd with
  | refl => exact he
  | child hc _ ih => exact ih (he.child hc)

/-- What follows from a property that holds everywhere holds everywhere. -/
theorem Everywhere.imp {B : NodeId → Shape α (Formula α) → Prop}
    (h : ∀ id shape, A id shape → B id shape) {e : Formula α} (he : e.Everywhere A) :
    e.Everywhere B := by
  induction he with
  | node here _ ih => exact .node (h _ _ here) ih

/-- What holds of each part holds everywhere. -/
theorem everywhere_of_within {e : Formula α} (h : ∀ d : Formula α, d.Within e → A d.id d.shape) :
    e.Everywhere A := by
  induction e using inductionOnRefs with
  | h id shape ih =>
      refine .node (h _ (.refl _)) ?_
      intro c hc
      exact ih c (Shape.mem_refs_of_mem_children hc) fun d hd => h d (.child hc hd)

/-- No solver is within the formula. -/
abbrev SolverFree : Formula α → Prop :=
  Everywhere fun _ shape => ∀ s, shape ≠ .solver s

/-! ## All parts -/

/-- All parts of the formula satisfy `A`, those that tables, solvers and guards refer to
included. -/
inductive Throughout (A : NodeId → Shape α (Formula α) → Prop) : Formula α → Prop
  | node {id : NodeId} {shape : Shape α (Formula α)} (here : A id shape)
      (refs : ∀ r ∈ shape.refs, Throughout A r) : Throughout A (node id shape)

/-- What holds throughout holds at the root. -/
theorem Throughout.here {e : Formula α} (he : e.Throughout A) : A e.id e.shape := by
  cases he with
  | node here _ => exact here

/-- What holds throughout a formula holds throughout what its root refers to. -/
theorem Throughout.ref {e r : Formula α} (he : e.Throughout A) (hr : r ∈ e.shape.refs) :
    r.Throughout A := by
  cases he with
  | node _ refs => exact refs r hr

/-- All parts of a node are the node itself and those of what it refers to. -/
theorem throughout_node {id : NodeId} {shape : Shape α (Formula α)} :
    (node id shape).Throughout A ↔ A id shape ∧ ∀ r ∈ shape.refs, r.Throughout A :=
  ⟨fun h => ⟨h.here, fun _ hr => h.ref hr⟩, fun h => .node h.1 h.2⟩

/-- What holds throughout holds everywhere. -/
theorem Throughout.everywhere {e : Formula α} (he : e.Throughout A) : e.Everywhere A := by
  induction he with
  | node here _ ih => exact .node here fun c hc => ih c (Shape.mem_refs_of_mem_children hc)

/-- No solver is among the parts of the formula. -/
abbrev Solverless : Formula α → Prop :=
  Throughout fun _ shape => ∀ s, shape ≠ .solver s

/-! ## Directories -/

/-- The node that bears each number. -/
abbrev Directory (α : Type) := NodeId → Formula α

/-- Every part of the formula is the node the directory has under its number. -/
inductive ListedIn (D : Directory α) : Formula α → Prop
  | node {id : NodeId} {shape : Shape α (Formula α)}
      (entry : D id = node id shape)
      (refs : ∀ r ∈ shape.refs, ListedIn D r) : ListedIn D (node id shape)

variable {D : Directory α}

/-- A listed formula stands under its own number. -/
theorem ListedIn.entry {e : Formula α} (he : e.ListedIn D) : D e.id = e := by
  cases he with
  | node entry _ => exact entry

/-- What a listed node refers to is listed too. -/
theorem ListedIn.ref {e r : Formula α} (he : e.ListedIn D) (hr : r ∈ e.shape.refs) :
    r.ListedIn D := by
  cases he with
  | node _ refs => exact refs r hr

/-- A node is listed if it is entered and what it refers to is listed. -/
theorem listedIn_node {id : NodeId} {shape : Shape α (Formula α)} :
    (node id shape).ListedIn D ↔ D id = node id shape ∧ ∀ r ∈ shape.refs, r.ListedIn D :=
  ⟨fun h => ⟨h.entry, fun _ hr => h.ref hr⟩, fun h => .node h.1 h.2⟩

/-- The children of a listed node are listed. -/
theorem ListedIn.child {e c : Formula α} (he : e.ListedIn D) (hc : c ∈ e.children) :
    c.ListedIn D :=
  he.ref (Shape.mem_refs_of_mem_children hc)

/-- All parts of a listed node are listed. -/
theorem ListedIn.within {d e : Formula α} (he : e.ListedIn D) (hd : d.Within e) :
    d.ListedIn D := by
  induction hd with
  | refl => exact he
  | child hc _ ih => exact ih (he.child hc)

/-- In one directory a number is an identity. -/
theorem ListedIn.eq_of_id_eq {d e : Formula α} (hd : d.ListedIn D) (he : e.ListedIn D)
    (h : d.id = e.id) : d = e := by
  rw [← hd.entry, ← he.entry, h]

end Formula

end FormulaGraph
