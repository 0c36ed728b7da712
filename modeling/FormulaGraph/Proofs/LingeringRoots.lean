import FormulaGraph.Proofs.Denotations
import FormulaGraph.Proofs.LexicalScope

/-!
# Roots that linger

A solver leaves its root in the variable it searched in.  Until then a pass serves the scope
without the variable, and from then on the scope with it, where the variable is the root
(`after_solver`): what is read later in the pass sees the root, and the solver itself may
be met again, for searching anew leaves the same root (`solver_delivers`).

So a pass over formulas that read the variable of a solver beside it depends on what comes first.
The least solver to show this is the one for the zero of `1 - t` (`UnitRoot.root`).
-/

namespace FormulaGraph

section

variable {α : Type} [Scalar α] {D : Formula.Directory α} {g : Generation} {S : Set NodeId}
  {ρ σ : Valuation α} {s : Store α} {id : NodeId} {q : Solver α (Formula α)}

/-- A larger scope is served, with what its variables hold. -/
theorem Store.Serves.widen {T : Set NodeId} (hs : s.Serves D g S ρ) (hST : S ⊆ T)
    (hread : ∀ v ∈ T, s.read v = σ v) : s.Serves D g T σ where
  issued := hs.issued
  drawn := hs.drawn
  read := hread
  slot id hid ρ' hρ' := hs.slot id hid ρ' fun v hv =>
    (hρ' v (hST hv)).trans ((hread v (hST hv)).symm.trans (hs.read v hv))

namespace Formula

/-- The formula reads no variables but those of the scope, and evaluates to its value where the
scope is served, be it scoped or not. -/
structure FitsIn (D : Directory α) (g : Generation) (S : Set NodeId) (ρ : Valuation α)
    (e : Formula α) : Prop where
  free : ∀ v, e.Free v → v ∈ S
  delivers : Delivers D g S ρ (evaluateIn g e) (value ρ e)

/-- A formula in scope fits in without further conditions. -/
theorem Scoped.fitsIn {e : Formula α} (hscoped : e.Scoped S) (hlisted : e.ListedIn D) :
    e.FitsIn D g S ρ :=
  ⟨fun _ => hscoped.mem_of_free, evaluateIn_delivers hscoped hlisted g ρ⟩

/-- An operation on formulas that fit in does so itself. -/
theorem FitsIn.operation {shape : Shape α (Formula α)} (hlisted : (node id shape).ListedIn D)
    (hshape : shape.IsOperation) (h : ∀ c ∈ shape.children, c.FitsIn D g S ρ) :
    (node id shape).FitsIn D g S ρ := by
  have notSolver : ∀ q, shape ≠ .solver q := by
    rintro q rfl
    exact hshape
  have notVar : ∀ name, shape ≠ .var name := by
    rintro name rfl
    exact hshape
  have hfree : ∀ v, (node id shape).Free v → v ∈ S := by
    intro v hv
    obtain ⟨-, name, hname⟩ | ⟨c, hc, hv⟩ | ⟨q, hq, -⟩ := free_node.mp hv
    · exact absurd hname (notVar name)
    · rw [Shape.passParts_eq_children notSolver] at hc
      exact (h c hc).free v hv
    · exact absurd hq (notSolver q)
  refine ⟨hfree, Delivers.answering.evaluateIn notSolver (fun name hname =>
    absurd hname (notVar name)) ?_ fun c hc => (h c hc).delivers⟩
  have hentry : D id = node id shape := hlisted.entry
  rw [← hentry] at hfree ⊢
  exact fun x hx => .throughSlot hfree hx

/-- A product goes on from the store in which its first factor leaves it. -/
theorem productIn_cons_run {e : Formula α} {es : List (Formula α)} {acc v : α} {t : Store α}
    (he : (evaluateIn g e).run s = (v, t)) (hzero : (acc * v == 0) = false) :
    (productIn g acc (e :: es)).run s = (productIn g (acc * v) es).run t := by
  rw [productIn, StateT.run_bind, he]
  show (if (acc * v == 0) = true then pure (acc * v) else productIn g (acc * v) es).run t = _
  rw [if_neg (by simp [hzero])]

/-- The last factor is not followed by anything that sees its store. -/
theorem productIn_last (e : Formula α) (acc : α) (s : Store α) :
    ((productIn g acc [e]).run s).1 = acc * ((evaluateIn g e).run s).1 := by
  rw [productIn, StateT.run_bind]
  generalize (evaluateIn g e).run s = answer
  show ((if (acc * answer.1 == 0) = true then pure (acc * answer.1)
    else productIn g (acc * answer.1) []).run answer.2).1 = acc * answer.1
  split <;> rfl

/-! ## Where nothing has been stored yet -/

/-- A unary node that is not held is computed from what its argument leaves, and filled. -/
theorem evaluateIn_unary_run {a : Formula α} {t : Store α} {v : α}
    (hheld : (s.slot id).holds g = false) (ha : (evaluateIn g a).run s = (v, t)) (op : UnaryOp) :
    (evaluateIn g (node id (.unary op a))).run s = (op.apply v, t.fill id g (op.apply v)) := by
  rw [evaluateIn, throughSlot_run_of_unheld hheld, StateT.run_bind, ha]
  rfl

/-- A length with one component is evaluated after its component. -/
theorem evaluateIn_hypot_run {a : Formula α} {t : Store α} {v : α}
    (hheld : (s.slot id).holds g = false) (ha : (evaluateIn g a).run s = (v, t)) :
    (evaluateIn g (node id (.assoc .hypot [a]))).run s =
      (AssocOp.hypot.apply [v], t.fill id g (AssocOp.hypot.apply [v])) := by
  have hall : (do return AssocOp.hypot.apply (← evaluateAllIn g [a])).run s =
      (AssocOp.hypot.apply [v], t) := by
    rw [StateT.run_bind, evaluateAllIn, StateT.run_bind, ha]
    rfl
  have hnode : evaluateIn g (node id (.assoc .hypot [a])) =
      throughSlot id g (do return AssocOp.hypot.apply (← evaluateAllIn g [a])) := rfl
  rw [hnode, throughSlot_run_of_unheld hheld, hall]

/-- A product is evaluated in a generation of its own. -/
theorem evaluate_product {args : List (Formula α)} (hs : s.Issued) :
    ((node id (.assoc .multiply args)).evaluate.run s).1 =
      ((productIn (s.generation + 1) 1 args).run (Evaluation.nextGeneration.run s).2).1 := by
  have hproduct : ∀ g, evaluateIn g (node id (.assoc .multiply args)) =
      throughSlot id g (productIn g 1 args) := fun g => by rw [evaluateIn]
  rw [hs.evaluate_run hproduct]

/-- A solver that is computed and finds a root leaves it in its variable. -/
theorem read_evaluateIn_solver (hheld : (s.slot id).holds g = false)
    (hroot : Scalar.isNaN ((evaluateIn g (node id (.solver q))).run s).1 = false) :
    ((evaluateIn g (node id (.solver q))).run s).2.read q.bound.id =
      ((evaluateIn g (node id (.solver q))).run s).1 := by
  rw [evaluateIn_solver, throughSlot_run_of_unheld hheld] at hroot ⊢
  refine LeavesAnswer.bind (fun low => ?_) _ hroot
  refine .bind fun high => .bind fun precision => ?_
  exact search_leaves q low high precision

/-- A search issues generations and takes none back. -/
theorem search_advances (q : Solver α (Formula α)) (g : Generation) (low high precision : α) :
    Advances g (search q low high precision) := by
  have hall := Advances.evaluationProperty (α := α)
  refine search_of (hall.pass g).toHereditary (fun x => ?_) (fun x => ?_) (hall.write g _) _ _ _
  · exact hall.trial g q.bound.id x fun trial =>
      (hall.pass trial).condition (hall.evaluateIn q.body trial) fun e _ => hall.evaluateIn e trial
  · exact hall.trial g q.bound.id x (hall.evaluateIn q.body)

section Served

variable (hlisted : (node id (.solver q)).ListedIn D)
  (hnumber : Scalar.isNaN (value ρ (node id (.solver q))) = false)

include hlisted hnumber

/-- **Once a solver was computed, its root is in its variable.**  The scope with the variable is
served from then on. -/
theorem after_solver (hscoped : (node id (.solver q)).Scoped S) (hs : s.Serves D g S ρ)
    (hheld : (s.slot id).holds g = false) :
    ((evaluateIn g (node id (.solver q))).run s).1 = value ρ (node id (.solver q)) ∧
      ((evaluateIn g (node id (.solver q))).run s).2.Serves D g (insert q.bound.id S)
        (ρ.set q.bound.id (value ρ (node id (.solver q)))) := by
  obtain ⟨hvalue, hserves⟩ := evaluateIn_delivers hscoped hlisted g ρ s hs
  refine ⟨hvalue, hserves.widen (Set.subset_insert _ _) ?_⟩
  intro v hv
  rw [Valuation.set]
  by_cases h : v = q.bound.id
  · rw [if_pos h, h, read_evaluateIn_solver hheld (hvalue ▸ hnumber), hvalue]
  · rw [if_neg h]
    exact hserves.read v (hv.resolve_left h)

/-- A solver whose variable holds the root already may be evaluated beside its variable. -/
theorem solver_delivers (hbound : q.bound.id ∉ S)
    (hpass : ∀ c ∈ (Shape.solver q).passParts, c.Scoped (insert q.bound.id S))
    (htrial : ∀ c ∈ q.trialParts, c.Scoped (insert q.bound.id S))
    (hroot : ρ q.bound.id = value ρ (node id (.solver q))) :
    Delivers D g (insert q.bound.id S) ρ (evaluateIn g (node id (.solver q)))
      (value ρ (node id (.solver q))) := by
  have hdelivers : ∀ c ∈ (Shape.solver q).passParts,
      Delivers D g (insert q.bound.id S) ρ (evaluateIn g c) (value ρ c) := fun c hc =>
    evaluateIn_delivers (hpass c hc) (hlisted.ref (Shape.mem_refs_of_mem_passParts hc)) g ρ
  have hsearch : Delivers D g (insert q.bound.id S) ρ
      (search q (value ρ q.low) (value ρ q.high) (value ρ q.precision))
      (value ρ (node id (.solver q))) := by
    intro s hs
    obtain ⟨hvalue, hserves⟩ := search_delivers (D := D) (g := 0) (ρ := ρ) hbound
      (fun c hc => evaluateIn_delivers (htrial c hc)
        (hlisted.ref (Shape.mem_refs_of_mem_trialParts hc)))
      (value ρ q.low) (value ρ q.high) (value ρ q.precision) s (hs.narrow (Set.subset_insert _ _))
    rw [← value_solver ρ id] at hvalue
    have hadvanced := search_advances q 0 (value ρ q.low) (value ρ q.high) (value ρ q.precision) s
    refine ⟨hvalue, hserves.issued, hs.drawn.trans hadvanced.generation_le, ?_, ?_⟩
    · rintro v (rfl | hv)
      · rw [search_leaves _ _ _ _ _ (hvalue ▸ hnumber), hvalue, hroot]
      · exact hserves.read v hv
    · intro j hj
      -- searching, the solver fills slots of its trials only
      have hzero : g ≠ 0 := by
        rintro rfl
        simp [Slot.holds] at hj
      have hkept := hadvanced.holds hzero hs.drawn hj
      rw [hkept] at hj ⊢
      exact hs.slot j hj
  have hlow := hdelivers q.low (by simp [Shape.passParts])
  have hhigh := hdelivers q.high (by simp [Shape.passParts])
  have hprecision := hdelivers q.precision (by simp [Shape.passParts])
  have hfree : ∀ v, (node id (.solver q)).Free v → v ∈ insert q.bound.id S := by
    intro v hv
    obtain ⟨-, name, hname⟩ | ⟨c, hc, hv⟩ | ⟨q', hq', -, c, hc, hv⟩ := free_node.mp hv
    · cases hname
    · exact (hpass c hc).mem_of_free hv
    · cases hq'
      exact (htrial c hc).mem_of_free hv
  have hentry : D id = node id (.solver q) := hlisted.entry
  rw [← hentry] at hfree hsearch ⊢
  rw [hentry, evaluateIn_solver, ← hentry]
  exact .throughSlot hfree (Delivers.answering.bind hlow (Delivers.answering.bind hhigh
    (Delivers.answering.bind hprecision hsearch)))

end Served

end Formula

end

/-! ## The zero of `1 - t` -/

namespace UnitRoot

open Formula PartialReal

/-- The variable that the solver sets. -/
def t : Formula PartialReal := node 2 (.var "t")

/-- Between zero and two, the body falls from one to minus one. -/
noncomputable def solver : Solver PartialReal (Formula PartialReal) where
  body := node 4 (.binary .subtract one t)
  bound := ⟨2, "t"⟩
  low := zero
  high := node 3 (.const Scalar.two)
  precision := node 3 (.const Scalar.two)
  guard := none

/-- The solver for the zero of `1 - t`. -/
noncomputable def root : Formula PartialReal := node 5 (.solver solver)

/-- The solver and what it is made of. -/
noncomputable def ledger : Ledger PartialReal where
  directory id := [zero, one, t, solver.high, solver.body, root].getD id zero
  next := 6
  firstFree_le := by decide
  zero_entry := rfl
  one_entry := rfl

variable {S : Set NodeId} {ρ : Valuation PartialReal} {s : Store PartialReal} {x : ℝ}
  {D : Directory PartialReal} {id : NodeId} {args : List (Formula PartialReal)}

/-- The variable is known to the ledger. -/
theorem t_known : t.KnownTo ledger :=
  .node (by decide) rfl (by simp [Shape.refs, Shape.children])

/-- The ends of the bracket are known. -/
theorem high_known : solver.high.KnownTo ledger :=
  .node (by decide) rfl (by simp [Shape.refs, Shape.children])

/-- The body is known. -/
theorem body_known : solver.body.KnownTo ledger :=
  .node (by decide) rfl (by
    simpa [Shape.refs, Shape.children] using And.intro (one_known ledger) t_known)

/-- The solver is known, since all it refers to is. -/
theorem root_known : root.KnownTo ledger := by
  refine .node (by decide) rfl ?_
  have hrefs : ∀ r ∈ [t, solver.body, solver.low, solver.high, solver.precision],
      r.KnownTo ledger := by
    simpa using ⟨t_known, body_known, zero_known ledger, high_known, high_known⟩
  exact hrefs

/-- The root is one, whatever the variables hold. -/
theorem value_root (ρ : Valuation PartialReal) : value ρ root = real 1 :=
  value_unitSolver 5 4 3 ⟨2, "t"⟩ ρ

/-- The solver reads no variable but its own. -/
theorem root_scoped (h : 2 ∉ S) : root.Scoped S :=
  unitSolver_scoped (i := 4) (j := 3) (v := ⟨2, "t"⟩) h

/-- The variable is in scope where its number is. -/
theorem t_scoped (h : 2 ∈ S) : t.Scoped S := by
  simp [t, scoped_iff, Shape.passParts, Shape.children, h]

/-- Where it holds a number it can be evaluated. -/
theorem t_evaluable (h : 2 ∈ S) (hread : s.read 2 = real x) : t.Evaluable ledger S s :=
  evaluable_var t_known h hread

/-- The solver can be evaluated wherever its own variable is out of scope. -/
theorem root_evaluable (hs : s.Reachable) (h : 2 ∉ S) (hread : s.read 2 = real x) :
    root.Evaluable ledger S s := by
  have ht : t.Evaluable ledger Set.univ s := t_evaluable trivial hread
  have hbody : solver.body.Evaluable ledger Set.univ s := by
    refine evaluable_node hs body_known ?_ ?_ ?_
    · simp [solver, one, t, scoped_iff, Shape.passParts, Shape.children]
    · simp [solver, one, t, value, BinaryOp.apply, hread]
    · simpa [solver, Formula.children, Shape.children] using
        And.intro (one_evaluable (L := ledger) (S := S) s).defined ht.defined
  have hhigh : solver.high.Evaluable ledger S s := evaluable_const high_known
  refine evaluable_node hs root_known (root_scoped h) (by simp [value_root]) ?_
  simpa [root, Formula.children, Shape.children, Solver.children] using
    ⟨hbody.defined, (zero_evaluable (L := ledger) (S := S) s).defined, hhigh.defined, hhigh.defined⟩

/-- Evaluating the variable reads it and changes nothing. -/
theorem t_run (g : Generation) (hread : s.read 2 = real x) :
    (evaluateIn g t).run s = (real x, s) := by
  rw [t, evaluateIn]
  exact Prod.ext hread rfl

/-- Computed first in a pass, the solver leaves one in the variable. -/
theorem after_root (hlisted : root.ListedIn D) (hs : s.Issued) :
    ((evaluateIn (s.generation + 1) root).run (Evaluation.nextGeneration.run s).2).1 = real 1 ∧
      ((evaluateIn (s.generation + 1) root).run (Evaluation.nextGeneration.run s).2).2.Serves D
        (s.generation + 1) {2} fun _ => real 1 := by
  have hbegun : (Evaluation.nextGeneration.run s).2.Serves D (s.generation + 1) ∅ s.read :=
    hs.serves_next fun _ _ => rfl
  have hheld : ((Evaluation.nextGeneration.run s).2.slot 5).holds (s.generation + 1) = false :=
    Bool.eq_false_iff.mpr (hs.not_holds_next 5)
  obtain ⟨hvalue, hserves⟩ := after_solver hlisted (by rw [← root, value_root]; rfl)
    (root_scoped (Set.notMem_empty 2)) hbegun hheld
  refine ⟨hvalue.trans (value_root _), hserves.widen (by simp [solver]) ?_⟩
  rintro v rfl
  rw [hserves.read 2 (Set.mem_insert 2 ∅), Valuation.set,
    if_pos (show 2 = solver.bound.id from rfl)]
  exact value_root _

/-- Where the variable is one, the solver may be met again. -/
theorem root_fitsIn (hlisted : root.ListedIn D) (g : Generation) (hρ : ρ 2 = real 1) :
    root.FitsIn D g {2} ρ := by
  have hscope : insert solver.bound.id (∅ : Set NodeId) = {2} := insert_empty_eq 2
  have hpass : ∀ c ∈ (Shape.solver solver).passParts, c.Scoped (insert solver.bound.id ∅) := by
    simp [solver, zero, scoped_iff, Shape.passParts, Shape.children]
  have htrial : ∀ c ∈ solver.trialParts, c.Scoped (insert solver.bound.id ∅) := by
    simp [solver, t, one, scoped_iff, Shape.passParts, Shape.children, Solver.trialParts]
  have hdelivers := solver_delivers (S := ∅) (g := g) (ρ := ρ) hlisted
    (by rw [← root, value_root]; rfl) (Set.notMem_empty 2) hpass htrial
    (hρ.trans (value_root ρ).symm)
  rw [← root, hscope] at hdelivers
  exact ⟨fun v hv => ((root_scoped (Set.notMem_empty 2)).mem_of_free hv).elim, hdelivers⟩

/-- In a product, what comes after the solver finds one in the variable. -/
theorem productIn_root (hlisted : root.ListedIn D) (hs : s.Issued) (hx : x ≠ 0)
    (hargs : ∀ e ∈ args, e.FitsIn D (s.generation + 1) {2} fun _ => real 1) :
    ((productIn (s.generation + 1) (real x) (root :: args)).run
      (Evaluation.nextGeneration.run s).2).1 =
        Scalar.productUntilZero (real x) (values (fun _ => real 1) args) := by
  obtain ⟨hone, hserves⟩ := after_root hlisted hs
  have hacc : real x * real 1 = real x := by rw [real_mul, mul_one]
  have hzero : (real x * real 1 == 0) = false := by
    rw [hacc]
    exact Bool.eq_false_iff.mpr (by simpa using hx)
  rw [productIn_cons_run (Prod.ext hone rfl) hzero, hacc]
  exact (Delivers.answering.productIn (fun e he => (hargs e he).delivers) _ _ hserves).1

/-- In a product, the variable may be read before the solver is computed, and again after it. -/
theorem evaluate_variable_ahead (hlisted : root.ListedIn D) (hs : s.Issued)
    (hread : s.read 2 = real x) (hx : x ≠ 0)
    (hargs : ∀ e ∈ args, e.FitsIn D (s.generation + 1) {2} fun _ => real 1) :
    ((node id (.assoc .multiply (t :: root :: args))).evaluate.run s).1 =
      Scalar.productUntilZero (real x) (values (fun _ => real 1) args) := by
  have hacc : 1 * real x = real x := by rw [one_eq, real_mul, one_mul]
  have hzero : (1 * real x == 0) = false := by
    rw [hacc]
    exact Bool.eq_false_iff.mpr (by simpa using hx)
  have hfirst := t_run (s := (Evaluation.nextGeneration.run s).2) (s.generation + 1) hread
  rw [evaluate_product hs, productIn_cons_run hfirst hzero, hacc]
  exact productIn_root hlisted hs hx hargs

end UnitRoot

end FormulaGraph
