import FormulaGraph.Proofs.Determinants

/-!
# Formulas that denote numbers

Points and matrices of formulas are computed with as if their elements were numbers: they are
added, multiplied, divided, and turned by sines and cosines.  A formula **denotes** a real number
at a valuation if it means the number there, is known, and keeps to a scope that all formulas of
the computation share.  The constructors lead from formulas that denote numbers to one that
denotes what the operation makes of the numbers (`assoc_denotes`, `binary_denotes`,
`unary_denotes`), so that a computation on formulas is read as the same computation on numbers.

A division is safe: it denotes the quotient in which zero stands wherever the divisor is zero,
and this is the quotient of the real numbers as the library has it.
-/

namespace FormulaGraph

open PartialReal

namespace Formula

/-- The formula can be evaluated beside others of its scope, and nothing within it is undefined. -/
structure Evaluable (L : Ledger PartialReal) (S : Set NodeId) (t : Store PartialReal)
    (e : Formula PartialReal) : Prop where
  known : e.KnownTo L
  inScope : e.Scoped S
  defined : e.EvaluatesThroughout t

/-- The formula is known, scoped in `S`, and means the real number `x`. -/
structure Denotes (S : Set NodeId) (ρ : Valuation PartialReal) (x : ℝ) (L : Ledger PartialReal)
    (e : Formula PartialReal) : Prop where
  member : e.Member (Scoped S) L
  means : e.Means ρ (real x)

variable {S : Set NodeId} {ρ : Valuation PartialReal} {L L' : Ledger PartialReal} {x y : ℝ}
  {e a b : Formula PartialReal}

/-- What a formula denotes does not depend on what else has been built. -/
theorem Denotes.mono (h : e.Denotes S ρ x L) (hL : L.Extends L') : e.Denotes S ρ x L' :=
  ⟨h.member.mono hL, h.means⟩

/-- A formula has the value it denotes. -/
theorem Denotes.value_eq (h : e.Denotes S ρ x L) : value ρ e = real x := h.means.value_eq

/-- A formula that denotes a number is defined. -/
theorem Denotes.defined (h : e.Denotes S ρ x L) : e.Defined ρ := h.means.defined_of_real

/-- What can be evaluated denotes its value. -/
theorem Evaluable.denotes {t : Store PartialReal} (h : e.Evaluable L S t) (ht : t.Reachable) :
    e.Denotes S t.read (realValue t.read e) L := by
  have hdefined := h.defined.defined_of_scoped ht h.inScope h.known.listed
  exact ⟨⟨h.known, h.inScope⟩, hdefined.value_eq, fun _ => hdefined⟩

/-- A scoped node can be evaluated if its children can and its value is defined. -/
theorem evaluable_node {t : Store PartialReal} (ht : t.Reachable) (hknown : e.KnownTo L)
    (hscope : e.Scoped S) (hvalue : value t.read e ≠ undefined)
    (hchildren : ∀ c ∈ e.children, c.EvaluatesThroughout t) : e.Evaluable L S t where
  known := hknown
  inScope := hscope
  defined := by
    obtain ⟨id, shape⟩ := e
    refine .node ?_ hchildren
    rwa [evaluate_scoped hscope hknown.listed ht fun _ _ => rfl]

/-- Formulas and what they denote, one by one. -/
abbrev DenoteAll (S : Set NodeId) (ρ : Valuation PartialReal) (xs : List ℝ)
    (L : Ledger PartialReal) (es : List (Formula PartialReal)) : Prop :=
  List.Forall₂ (fun x e => e.Denotes S ρ x L) xs es

/-- Formulas that denote numbers are known, and in scope. -/
theorem DenoteAll.member {xs : List ℝ} {es : List (Formula PartialReal)}
    (h : DenoteAll S ρ xs L es) : ∀ e ∈ es, e.Member (Scoped S) L :=
  forall_of_forall₂ h fun _ _ h => h.member

/-- What denotes a list of numbers is defined. -/
theorem DenoteAll.defined {xs : List ℝ} {es : List (Formula PartialReal)}
    (h : DenoteAll S ρ xs L es) : ∀ e ∈ es, e.Defined ρ :=
  forall_of_forall₂ h fun _ _ h => h.defined

/-- Formulas that denote numbers have these for values. -/
theorem DenoteAll.map_realValue {xs : List ℝ} {es : List (Formula PartialReal)}
    (h : DenoteAll S ρ xs L es) : es.map (realValue ρ) = xs := by
  induction h with
  | nil => rfl
  | cons hhead _ ih => rw [List.map_cons, ih, realValue_eq hhead.value_eq]

/-! ## Leaves -/

/-- A real constant can be evaluated anywhere. -/
theorem evaluable_const {t : Store PartialReal} {id : NodeId}
    (hknown : (node id (.const (real x))).KnownTo L) :
    (node id (.const (real x))).Evaluable L S t where
  known := hknown
  inScope := (scoped_admitsOperations S).const _ _
  defined := .node (by simp [evaluate, evaluateIn]) (by simp [Shape.children])

/-- The common zero can be evaluated. -/
theorem zero_evaluable (t : Store PartialReal) : (zero : Formula PartialReal).Evaluable L S t :=
  evaluable_const (x := 0) (zero_known L)

/-- The common one can be evaluated. -/
theorem one_evaluable (t : Store PartialReal) : (one : Formula PartialReal).Evaluable L S t :=
  evaluable_const (x := 1) (one_known L)

/-- A variable evaluates to what the store holds. -/
theorem evaluate_var {s : Store PartialReal} (id : NodeId) (name : String) :
    ((node id (.var name)).evaluate.run s).1 = s.read id := by
  show ((evaluateIn (s.generation + 1) (node id (.var name))).run _).1 = _
  rw [evaluateIn]
  rfl

/-- A variable in scope can be evaluated where it holds a number. -/
theorem evaluable_var {t : Store PartialReal} {id : NodeId} {name : String}
    (hknown : (node id (.var name)).KnownTo L) (hscope : id ∈ S) (hread : t.read id = real x) :
    (node id (.var name)).Evaluable L S t where
  known := hknown
  inScope := by simp [scoped_iff, Shape.passParts, Shape.children, hscope]
  defined := .node (by simp [evaluate_var, hread]) (by simp [Shape.children])

/-- Two variables that hold numbers can be evaluated beside one another. -/
theorem evaluable_variables (name name' : String) {t : Store PartialReal}
    (hx : t.read 2 = real x) (hy : t.read 3 = real y) :
    let L : Ledger PartialReal := .ofNodes [node 2 (.var name), node 3 (.var name')]
    (node 2 (.var name)).Evaluable L Set.univ t ∧ (node 3 (.var name')).Evaluable L Set.univ t := by
  intro L
  have hknown : ∀ {e}, e ∈ [node 2 (.var name), node 3 (.var name')] → e.KnownTo L :=
    ofNodes_known rfl (by simp [Shape.refs, Shape.children])
  exact ⟨evaluable_var (hknown (by simp)) (Set.mem_univ 2) hx,
    evaluable_var (hknown (by simp)) (Set.mem_univ 3) hy⟩

/-! ## Constructors -/

/-- What is built as a member and means a number denotes it. -/
theorem denotes_of_means {c : Fresh (Formula PartialReal)}
    (hbuilds : Builds c L fun L' e => e.Member (Scoped S) L')
    (hmeans : Yields c (Means ρ (real x))) : Builds c L (Denotes S ρ x) :=
  (hbuilds.and_yields hmeans).mono fun _ _ _ h => ⟨h.1, h.2⟩

/-- The common zero denotes zero. -/
theorem zero_denotes : (zero : Formula PartialReal).Denotes S ρ 0 L :=
  ⟨zero_member (scoped_admitsOperations S), zero_means⟩

/-- The common one denotes one. -/
theorem one_denotes : (one : Formula PartialReal).Denotes S ρ 1 L :=
  ⟨one_member (scoped_admitsOperations S), one_means⟩

/-- A constant denotes its number. -/
theorem constant_denotes (x : ℝ) : Builds (constant (real x)) L (Denotes S ρ x) :=
  denotes_of_means (constant_builds (scoped_admitsOperations S) _) (constant_means _)

/-- A function of a number is denoted if it is real. -/
theorem unary_denotes (op : UnaryOp) (ha : a.Denotes S ρ x L) (hop : op.apply (real x) = real y) :
    Builds (unary op a) L (Denotes S ρ y) := by
  have hmeans := unary_means op ha.defined
  rw [ha.value_eq, hop] at hmeans
  exact denotes_of_means (unary_builds (scoped_admitsOperations S) op ha.member) hmeans

/-- A negative denotes the negative number. -/
theorem negate_denotes (ha : a.Denotes S ρ x L) : Builds (negate a) L (Denotes S ρ (-x)) :=
  unary_denotes .negate ha rfl

/-- An operation on two numbers is denoted if it is real. -/
theorem binary_denotes (op : BinaryOp) {z : ℝ} (ha : a.Denotes S ρ x L) (hb : b.Denotes S ρ y L)
    (hop : op.apply (real x) (real y) = real z) : Builds (binary op a b) L (Denotes S ρ z) := by
  have hmeans := binary_means op ha.defined hb.defined
  rw [ha.value_eq, hb.value_eq, hop] at hmeans
  exact denotes_of_means (binary_builds (scoped_admitsOperations S) op ha.member hb.member) hmeans

/-- A difference denotes the difference. -/
theorem subtract_denotes (ha : a.Denotes S ρ x L) (hb : b.Denotes S ρ y L) :
    Builds (subtract a b) L (Denotes S ρ (x - y)) :=
  binary_denotes .subtract ha hb rfl

/-- A safe quotient of real numbers is zero where the divisor is. -/
theorem safeDiv_real (x y : ℝ) : Scalar.safeDiv (real x) (real y) = real (x / y) := by
  rw [Scalar.safeDiv]
  by_cases hx : x = 0
  · simp [hx]
  · by_cases hy : y = 0
    · simp [hy]
    · simp [hx, hy, real_div x hy]

/-- A quotient denotes the quotient, and zero where the divisor is zero. -/
theorem divide_denotes (ha : a.Denotes S ρ x L) (hb : b.Denotes S ρ y L) :
    Builds (divide a b) L (Denotes S ρ (x / y)) :=
  binary_denotes .divide ha hb (safeDiv_real x y)

/-- Sums, products and lengths denote those of the numbers. -/
theorem assoc_denotes (op : AssocOp) {xs : List ℝ} {es : List (Formula PartialReal)}
    (hes : DenoteAll S ρ xs L es) : Builds (assoc op es) L (Denotes S ρ (op.amount xs)) := by
  have hmeans := assoc_means op hes.defined
  rw [hes.map_realValue] at hmeans
  exact denotes_of_means (assoc_builds (scoped_admitsOperations S) op hes.member) hmeans

/-- A sum of two denotes the sum. -/
theorem add_denotes (ha : a.Denotes S ρ x L) (hb : b.Denotes S ρ y L) :
    Builds (add a b) L (Denotes S ρ (x + y)) := by
  have hsum := assoc_denotes .add (.cons ha (.cons hb .nil))
  rwa [AssocOp.amount, List.sum_pair] at hsum

/-- A product of two denotes the product. -/
theorem multiply_denotes (ha : a.Denotes S ρ x L) (hb : b.Denotes S ρ y L) :
    Builds (multiply a b) L (Denotes S ρ (x * y)) := by
  have hproduct := assoc_denotes .multiply (.cons ha (.cons hb .nil))
  rwa [AssocOp.amount, List.prod_pair] at hproduct

/-! ## Several formulas -/

/-- One after the other, computations that lead from `K i` to `P i` lead from all to all. -/
theorem mapM_builds {ι δ γ : Type} {f : δ → Fresh γ} {K : ι → Ledger PartialReal → δ → Prop}
    {P : ι → Ledger PartialReal → γ → Prop}
    {is : List ι} {ds : List δ} (hK : ∀ i, Lasting (K i)) (hP : ∀ i, Lasting (P i))
    (hds : List.Forall₂ (fun i d => K i L d) is ds)
    (hf : ∀ i d L', L.Extends L' → K i L' d → Builds (f d) L' (P i)) :
    Builds (ds.mapM f) L fun L' es => List.Forall₂ (fun i e => P i L' e) is es := by
  induction is generalizing ds L with
  | nil =>
      cases hds
      rw [List.mapM_nil]
      exact .pure .nil
  | cons i is ih =>
      obtain _ | ⟨hd, hds⟩ := hds
      rw [List.mapM_cons]
      refine .bind (hf i _ L (.refl L) hd) fun L₁ c hL₁ hc => ?_
      refine .bind (ih (hds.imp fun _ _ h => hK _ hL₁ h) fun i d L' hL' =>
        hf i d L' (hL₁.trans hL')) fun L₂ cs hL₂ hcs => ?_
      exact .pure (.cons (hP i hL₂ hc) hcs)

/-- In the sense of `P`, formulas stand for numbers, and from the ledger `L₀` on an operation on
any number of them is built to stand for what it makes of the numbers. -/
structure Arithmetic (L₀ : Ledger PartialReal)
    (P : ℝ → Ledger PartialReal → Formula PartialReal → Prop) : Prop where
  lasting : ∀ x, Lasting (P x)
  assoc : ∀ {L : Ledger PartialReal} (op : AssocOp) {xs : List ℝ} {es : List (Formula PartialReal)},
    L₀.Extends L → List.Forall₂ (fun x e => P x L e) xs es →
      Builds (assoc op es) L (P (op.amount xs))

/-- All operations at once, for what is built of them later on. -/
theorem denotes_arithmetic : Arithmetic L (Denotes S ρ) where
  lasting _ _ _ _ hL h := h.mono hL
  assoc op _ _ _ hes := assoc_denotes op hes

end Formula

end FormulaGraph
