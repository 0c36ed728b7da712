import FormulaGraph.Proofs.LexicalScope
import FormulaGraph.Proofs.Substituting

/-!
# Substituting and evaluating

A formula with others put in the place of its variables evaluates, in the store as it
is, as the formula does in a store where the variables hold what was put for them
(`substituted_evaluation`).  For formulas without solvers all that is needed is that
solvers among what is put keep to themselves: a solver leaves its root in its variable,
and a formula that reads this variable beside it sees the root
(`substitution_sees_root`).

Into a solver a formula may be put under the same terms, as long as what ends up in the
body mentions no variable bound around it (`substituted_solver_evaluation`); for bound
variables are not renamed, and what mentions one is read at the trial values
(`substitution_captures`).  Nothing may be undefined either, for the rules of construction
may rebuild what is undefined into what is not (`substitution_uncovers_root`).
-/

namespace FormulaGraph

namespace Formula

open PartialReal

variable {S T : Set NodeId} {θ : Substitution PartialReal} {s t : Store PartialReal}
  {L : Ledger PartialReal} {pairs : List (NodeId × Formula PartialReal)}

/-- At `t` the free variables of the formula hold what is put in their place evaluates to
at `s`, where that is defined; the others hold what they hold at `s`. -/
structure Furnished (θ : Substitution PartialReal) (s t : Store PartialReal)
    (e : Formula PartialReal) : Prop where
  kept : ∀ v, e.Free v → θ v = none → t.read v = s.read v
  put : ∀ v r, e.Free v → θ v = some r → t.read v = (r.evaluate.run s).1
  defined : ∀ v r, e.Free v → θ v = some r → r.Defined s.read

/-- If what is put is scoped, it is furnished by what supplies it. -/
theorem Furnished.supplies {e : Formula PartialReal} (h : Furnished θ s t e) (hs : s.Reachable)
    (hput : ∀ v r, θ v = some r → r.KnownTo L)
    (hscoped : ∀ v r, e.Free v → θ v = some r → ∃ S, r.Scoped S) :
    Supplies ⟨∅, θ⟩ e s.read t.read where
  kept := h.kept
  put := by
    intro v r hv hr
    obtain ⟨S, hS⟩ := hscoped v r hv hr
    refine ⟨?_, h.defined v r hv hr⟩
    rw [h.put v r hv hr]
    exact evaluate_scoped hS (hput v r hr).listed hs fun _ _ => rfl

theorem ofPairs_known (hpairs : ∀ p ∈ pairs, p.2.KnownTo L) {v : NodeId}
    {r : Formula PartialReal} (hr : Substitution.ofPairs pairs v = some r) : r.KnownTo L := by
  obtain ⟨p, hp, rfl⟩ := Option.map_eq_some_iff.mp hr
  exact hpairs p (List.mem_of_find?_eq_some hp)

/-! ## Without solvers -/

/-- **Substitution and evaluation.**  What is put in the place of the variables of a
solver-free formula may read the variables of a set, with those that are left among them,
and may use solvers that bind none of them.  Where nothing is undefined, the formula with
all this put evaluates as the formula itself where its variables hold what was put. -/
theorem substituted_evaluation (L : Ledger PartialReal) {e : Formula PartialReal}
    (he : e.KnownTo L) (hfree : e.SolverFree) (hpairs : ∀ p ∈ pairs, p.2.KnownTo L)
    (hkept : ∀ v, e.Free v → Substitution.ofPairs pairs v = none → v ∈ S)
    (hput : ∀ v r, e.Free v → Substitution.ofPairs pairs v = some r → r.Scoped S)
    (hs : s.Reachable) (ht : t.Reachable) (hfurnished : Furnished (.ofPairs pairs) s t e)
    (hdefined : e.EvaluatesThroughout t) :
    (((substitute pairs e).run L.next).1.evaluate.run s).1 = (e.evaluate.run t).1 := by
  have hsubstitutes := (substitutes S).carries (k := ⟨∅, .ofPairs pairs⟩) e
    ⟨he, fun _ _ hr => ofPairs_known hpairs hr, receives_of_solverFree hfree
      (fun v hv hnone => .inl (hkept v hv hnone)) fun v r hv hr => ⟨hput v r hv hr, by simp⟩⟩
  rw [Substitution.replacement_ofPairs] at hsubstitutes
  obtain ⟨L', _, _, hresult⟩ := hsubstitutes.answer
  have hsupplies := hfurnished.supplies hs (fun _ _ hr => ofPairs_known hpairs hr)
    fun v r hv hr => ⟨S, hput v r hv hr⟩
  have hmeans := hresult.means s.read t.read hsupplies
    ((hdefined.defined ht hfree he).definedInTrials hfree)
  rw [evaluate_run hfree he.listed ht, ← hmeans.value_eq]
  exact evaluate_scoped hresult.inScope hresult.known.listed hs fun _ _ => rfl

/-- In `x - y` the variables change places at once, and the difference changes its sign. -/
theorem substituted_evaluation_of_swap :
    let x : Formula PartialReal := node 2 (.var "x")
    let y : Formula PartialReal := node 3 (.var "y")
    let difference : Formula PartialReal := node 4 (.binary .subtract x y)
    let s := (Store.empty.write 2 (real 5)).write 3 (real 3)
    let t := (Store.empty.write 2 (real 3)).write 3 (real 5)
    (((substitute [(2, y), (3, x)] difference).run 5).1.evaluate.run s).1 =
        (difference.evaluate.run t).1 ∧
      (difference.evaluate.run t).1 = real (-2) := by
  intro x y difference s t
  have hknown : ∀ {e}, e ∈ [x, y, difference] → e.KnownTo (.ofNodes [x, y, difference]) :=
    ofNodes_known rfl (by simp [x, y, difference, Shape.refs, Shape.children])
  have hfree : difference.SolverFree := by
    simp [difference, x, y, everywhere_node, Shape.children]
  have hs : s.Reachable := .write (.write .empty _ _) _ _
  have ht : t.Reachable := .write (.write .empty _ _) _ _
  have hread : s.read 2 = real 5 ∧ s.read 3 = real 3 ∧ t.read 2 = real 3 ∧ t.read 3 = real 5 := by
    simp [s, t, Store.read_write, Valuation.set]
  obtain ⟨hreadX, hreadY, hreadX', hreadY'⟩ := hread
  have hvalue : (difference.evaluate.run t).1 = real (-2) := by
    rw [evaluate_run hfree (hknown (by simp)).listed ht]
    simp [difference, x, y, value, hreadX', hreadY', BinaryOp.apply]
    norm_num
  have hplaces : ∀ v, difference.Free v → v = 2 ∨ v = 3 := by
    intro v hv
    simpa [difference, x, y, free_node, Shape.passParts, Shape.children, eq_comm] using hv
  have hput : ∀ v r, Substitution.ofPairs [(2, y), (3, x)] v = some r →
      (v = 2 ∧ r = y) ∨ (v = 3 ∧ r = x) := by
    intro v r hr
    simpa using Substitution.mem_of_ofPairs hr
  have hfurnished : Furnished (.ofPairs [(2, y), (3, x)]) s t difference := by
    refine ⟨fun v hv hnone => ?_, fun v r _ hr => ?_, fun v r _ hr => ?_⟩
    · obtain rfl | rfl := hplaces v hv <;> cases hnone
    · obtain ⟨rfl, rfl⟩ | ⟨rfl, rfl⟩ := hput v r hr
      · exact hreadX'.trans hreadY.symm
      · exact hreadY'.trans hreadX.symm
    · obtain ⟨rfl, rfl⟩ | ⟨rfl, rfl⟩ := hput v r hr
      · exact defined_var (by simp [hreadY])
      · exact defined_var (by simp [hreadX])
  have hthroughout : difference.EvaluatesThroughout t := by
    refine evaluatesThroughout_of_value ht hfree (hknown (by simp)) ?_
    simp [difference, x, y, forall_within_node, Shape.children, value, hreadX', hreadY',
      BinaryOp.apply]
  refine ⟨substituted_evaluation (S := Set.univ) _ (hknown (by simp)) hfree
    (by simpa using ⟨hknown (by simp), hknown (by simp)⟩) (fun _ _ _ => Set.mem_univ _) ?_ hs ht
    hfurnished hthroughout, hvalue⟩
  intro v r _ hr
  obtain ⟨-, rfl⟩ | ⟨-, rfl⟩ := hput v r hr <;>
    simp [x, y, scoped_iff, Shape.passParts, Shape.children]

/-! ### The zero of a difference from one -/

section UnitSolver

variable {id i j : NodeId} {v : Variable}

/-- Between zero and two, the difference of one and the variable falls from one to minus one. -/
noncomputable def unitSolver (i j : NodeId) (v : Variable) :
    Solver PartialReal (Formula PartialReal) where
  body := node i (.binary .subtract one v.formula)
  bound := v
  low := zero
  high := node j (.const Scalar.two)
  precision := node j (.const Scalar.two)
  guard := none

/-- The root is one, whatever the variables hold. -/
theorem value_unitSolver (id i j : NodeId) (v : Variable) (ρ : Valuation PartialReal) :
    value ρ (node id (.solver (unitSolver i j v))) = real 1 := by
  have hbody : ∀ x, (unitSolver i j v).bodyAt ρ (real x) = real (1 - x) := by
    intro x
    simp [Solver.bodyAt, unitSolver, one, Variable.formula, value, BinaryOp.apply, Valuation.set]
  exact value_solver_of_difference rfl hbody (value_of_asConstant rfl _)
    (value_of_asConstant rfl _) (value_of_asConstant rfl _) (by norm_num) (by norm_num)
    (by norm_num) id

/-- The solver reads no variable but its own. -/
theorem unitSolver_scoped (h : v.id ∉ S) : (node id (.solver (unitSolver i j v))).Scoped S := by
  simp [unitSolver, Variable.formula, one, zero, scoped_iff, Shape.passParts, Shape.children,
    Solver.trialParts, h]

variable {D : Directory PartialReal} (hlisted : (node id (.solver (unitSolver i j v))).ListedIn D)
  (hs : s.Reachable)

include hlisted hs

/-- Evaluated in any store, the solver answers with one. -/
theorem evaluate_unitSolver : ((node id (.solver (unitSolver i j v))).evaluate.run s).1 = real 1 :=
  (evaluate_scoped (unitSolver_scoped (Set.notMem_empty v.id)) hlisted hs fun _ _ => rfl).trans
    (value_unitSolver id i j v _)

/-- Where its variable holds a number, nothing within the solver is undefined. -/
theorem evaluatesThroughout_unitSolver {x : ℝ} (hread : s.read v.id = real x) :
    (node id (.solver (unitSolver i j v))).EvaluatesThroughout s := by
  rw [(unitSolver_scoped (Set.notMem_empty v.id)).evaluatesThroughout_iff hlisted hs,
    forall_within_node]
  refine ⟨by rw [value_unitSolver]; simp, ?_⟩
  simp [unitSolver, Variable.formula, one, zero, forall_within_node, Shape.children,
    Solver.children, value, BinaryOp.apply, hread]

end UnitSolver

/-- Beside `y`, a solver for `y` is put in the place of `x`.  The sum is twice the root of
`1 - y`, though `x + y` is the root alone where `x` holds it and `y` is zero. -/
theorem substitution_sees_root :
    let x : Formula PartialReal := node 2 (.var "x")
    let y : Formula PartialReal := node 3 (.var "y")
    let two : Formula PartialReal := node 4 (.const (real 2))
    let body : Formula PartialReal := node 5 (.binary .subtract one y)
    let q : Solver PartialReal (Formula PartialReal) :=
      { body, bound := ⟨3, "y"⟩, low := zero, high := two, precision := two, guard := none }
    let root : Formula PartialReal := node 6 (.solver q)
    let sum : Formula PartialReal := node 7 (.assoc .add [x, y])
    let result := ((substitute [(2, root)] sum).run 8).1
    let s : Store PartialReal := Store.empty
    let t := s.write 2 (root.evaluate.run s).1
    sum.SolverFree ∧ sum.EvaluatesThroughout t ∧ root.EvaluatesThroughout s ∧
      result.EvaluatesThroughout s ∧
      (sum.evaluate.run t).1 = real 1 ∧ (result.evaluate.run s).1 = real 2 := by
  intro x y two body q root sum result s t
  have hknown : ∀ {e}, e ∈ [x, y, two, body, root, sum] →
      e.KnownTo (.ofNodes [x, y, two, body, root, sum]) :=
    ofNodes_known rfl (by
      simp [x, y, two, body, q, root, sum, zero, one, Shape.refs, Shape.children, Solver.refs,
        Solver.children, Variable.formula])
  have hroot : (node 6 (.solver (unitSolver 5 4 ⟨3, "y"⟩))).ListedIn _ :=
    (hknown (e := root) (by simp)).listed
  have hsum := (hknown (e := sum) (by simp)).listed
  have hresult : result = node 8 (.assoc .add [root, y]) := by
    simp [result, substitute, replace, replaceNode, replaceShape, replaceNodes, once, sum, x, y,
      Replacement.ofPairs, StateT.run_bind]
    rfl
  have hscopedSum : sum.Scoped {2, 3} := by
    simp [sum, x, y, scoped_iff, Shape.passParts, Shape.children]
  have hs : s.Reachable := .empty
  have hread : ∀ v, s.read v = real 0 := fun v => by simp [s, Store.read, Store.empty]
  have hevaluate : (root.evaluate.run s).1 = real 1 := evaluate_unitSolver hroot hs
  have ht : t.Reachable := .write hs 2 _
  have hreadX : t.read 2 = real 1 := by
    simp [t, Store.read_write, Valuation.set, hevaluate]
  have hreadY : t.read 3 = real 0 := by
    rw [Store.read_write, Valuation.set, if_neg (by decide)]
    exact hread 3
  have hsumAt : value t.read sum = real 1 := by
    simp [sum, x, y, value, values, hreadX, hreadY, AssocOp.apply, sum_eq]
  have hresultAt : (result.evaluate.run s).1 = real 2 := by
    rw [hresult, evaluate_beside_solver (i := 6) (q := q) hs hevaluate rfl]
    simp [sum_eq]
    norm_num
  have hthroughout : root.EvaluatesThroughout s :=
    evaluatesThroughout_unitSolver hroot hs (hread 3)
  have hthroughoutY : y.EvaluatesThroughout s := by
    refine evaluatesThroughout_of_value hs ?_ (hknown (by simp)) ?_ <;>
      simp [y, everywhere_node, forall_within_node, Shape.children, value, hread]
  have hthroughoutSum : sum.EvaluatesThroughout t := by
    rw [hscopedSum.evaluatesThroughout_iff hsum ht]
    simp [sum, x, y, forall_within_node, Shape.children, value, values, AssocOp.apply, sum_eq,
      hreadX, hreadY]
  refine ⟨?_, hthroughoutSum, hthroughout, ?_, ?_, hresultAt⟩
  · simp [sum, x, y, everywhere_node, Shape.children]
  · rw [hresult]
    refine .node (by rw [← hresult, hresultAt]; simp) ?_
    simpa [Shape.children] using ⟨hthroughout, hthroughoutY⟩
  · rw [evaluate_scoped hscopedSum hsum ht fun _ _ => rfl, hsumAt]

/-! ## Into a solver -/

/-- The result of substitution into a solver of its own: a solver for the same variable over
the results for the parts. -/
def SolverSubstitutesTo (S T : Set NodeId) (θ : Substitution PartialReal)
    (q : Solver PartialReal (Formula PartialReal)) (L : Ledger PartialReal)
    (d : Formula PartialReal) : Prop :=
  d.KnownTo L ∧ ∃ id body low high precision,
    d = node id (.solver { q with body, low, high, precision }) ∧
    SubstitutesTo T (Site.under ⟨∅, θ⟩ q.bound.id) q.body L body ∧
    SubstitutesTo S ⟨∅, θ⟩ q.low L low ∧ SubstitutesTo S ⟨∅, θ⟩ q.high L high ∧
    SubstitutesTo S ⟨∅, θ⟩ q.precision L precision

theorem substitute_solver_builds {id : NodeId} {q : Solver PartialReal (Formula PartialReal)}
    (hq : (node id (.solver q)).KnownTo L) (hpairs : ∀ p ∈ pairs, p.2.KnownTo L)
    (hbounds : ∀ c ∈ (Shape.solver q).passParts, c.Receives S ⟨∅, .ofPairs pairs⟩)
    (hbody : q.body.Receives T (Site.under ⟨∅, .ofPairs pairs⟩ q.bound.id)) :
    Builds (substitute pairs (node id (.solver q))) L
      (SolverSubstitutesTo S T (.ofPairs pairs) q) := by
  have hput : ∀ v r, Substitution.ofPairs pairs v = some r → r.KnownTo L :=
    fun _ _ hr => ofPairs_known hpairs hr
  have hputBody : ∀ v r, (Site.under ⟨∅, .ofPairs pairs⟩ q.bound.id).put v = some r →
      r.KnownTo L := fun v r hr => hput v r (Substitution.except_eq_some.mp hr).2
  have hbodyPass := (substitutes T).carries q.body
    ⟨hq.ref (Shape.mem_refs_of_mem_trialParts List.mem_cons_self), hputBody, hbody⟩
  rw [(substitutes T).except, Substitution.replacement_ofPairs] at hbodyPass
  rw [substitute, replace, replaceNode]
  refine once_answer (replaceSolver_carries (R := SubstitutesTo S ⟨∅, .ofPairs pairs⟩)
    substitutesTo_lasting substitutesTo_lasting hbodyPass ?_ ?_)
  · intro c hc L' hL
    have hpass := (substitutes S).carries (k := ⟨∅, .ofPairs pairs⟩) c
      ⟨(hq.ref (Shape.mem_refs_of_mem_passParts hc)).mono hL, fun v r hr => (hput v r hr).mono hL,
        hbounds c hc⟩
    rwa [Substitution.replacement_ofPairs] at hpass
  · intro L' body low high precision hL hbody hlow hhigh hprecision
    have hds : ∀ d ∈ [body, low, high, precision], d.KnownTo L' := by
      simpa using ⟨hbody.known, hlow.known, hhigh.known, hprecision.known⟩
    refine replaceOver_solver_builds (hq.mono hL) hds fun L'' id' hL' hknown => ?_
    exact ⟨hknown, id', body, low, high, precision, rfl, substitutesTo_lasting _ hL' hbody,
      substitutesTo_lasting _ hL' hlow, substitutesTo_lasting _ hL' hhigh,
      substitutesTo_lasting _ hL' hprecision⟩

/-- **Substitution into a solver.**  Let the variables bound in a solver without a guard
occur only where they are bound.  What is put into its body mentions no variable bound
around its place, neither the solver's own nor another; what is put into its bounds may.
Where nothing is undefined, neither in the bounds nor at the trial values, the solver with
all this put evaluates as the solver itself where the variables hold what was put. -/
theorem substituted_solver_evaluation (L : Ledger PartialReal) {id : NodeId}
    {q : Solver PartialReal (Formula PartialReal)} (hq : (node id (.solver q)).KnownTo L)
    (hguard : q.guard = none) (hscoped : (node id (.solver q)).LexicallyScoped)
    (hpairs : ∀ p ∈ pairs, p.2.KnownTo L) (hsub : T ⊆ S) (hbound : q.bound.id ∉ T)
    (hbounds : ∀ c ∈ (Shape.solver q).passParts, c.Receives S ⟨∅, .ofPairs pairs⟩)
    (hbody : q.body.Receives T (Site.under ⟨∅, .ofPairs pairs⟩ q.bound.id))
    (hs : s.Reachable) (ht : t.Reachable)
    (hfurnished : Furnished (.ofPairs pairs) s t (node id (.solver q)))
    (hdefined : ∀ c ∈ (Shape.solver q).passParts, c.DefinedInTrials t.read)
    (htrials : ∀ x ∈ q.trials t.read (value t.read q.low) (value t.read q.high)
      (value t.read q.precision), q.body.DefinedInTrials (Valuation.set t.read q.bound.id x)) :
    (((substitute pairs (node id (.solver q))).run L.next).1.evaluate.run s).1 =
      ((node id (.solver q)).evaluate.run t).1 := by
  have hscopedBody : ∀ v r, q.body.Free v →
      (Site.under ⟨∅, .ofPairs pairs⟩ q.bound.id).put v = some r → r.Scoped T :=
    fun v r hv hr => hbody.scoped_of_free hv hr
  have hparts : ∀ v r, (node id (.solver q)).Free v → Substitution.ofPairs pairs v = some r →
      ∃ S, r.Scoped S := by
    intro v r hv hr
    rcases free_node.mp hv with ⟨_, name, h⟩ | ⟨c, hc, hv⟩ | ⟨_, ⟨⟩, hne, c, hc, hv⟩
    · cases h
    · exact ⟨S, (hbounds c hc).scoped_of_free hv hr⟩
    · have hc' : c = q.body := by simpa [Solver.trialParts, hguard] using hc
      exact ⟨T, hscopedBody v r (hc' ▸ hv) ((if_neg hne).trans hr)⟩
  have hsupplies := hfurnished.supplies hs (fun _ _ hr => ofPairs_known hpairs hr) hparts
  obtain ⟨L', _, _, hknown, id', body, low, high, precision, hd, hbody', hlow, hhigh,
    hprecision⟩ := substitute_solver_builds hq hpairs hbounds hbody
  have hpart : ∀ {c d}, c ∈ (Shape.solver q).passParts →
      SubstitutesTo S ⟨∅, .ofPairs pairs⟩ c L' d → d.Means s.read (value t.read c) :=
    fun hc hd => hd.means _ _ (hsupplies.pass hc) (hdefined _ hc)
  have hmeans := solver_means id id' (s := q) body
    (fun c hc => (hdefined c hc).here)
    (hpart (by simp [Shape.passParts]) hlow) (hpart (by simp [Shape.passParts]) hhigh)
    (hpart (by simp [Shape.passParts]) hprecision) (by simp [hguard, guardHolds]) (by
      intro x hx
      refine (hbody'.means _ _ (hsupplies.trial List.mem_cons_self ?_ x) (htrials x hx)).value_eq
      exact fun v r hv hr hfree => hbound ((hscopedBody v r hv hr).mem_of_free hfree))
  rw [evaluate_lexicallyScoped L.directory _ hq.listed hscoped t ht t.read fun _ _ => rfl,
    ← hmeans.value_eq, hd]
  rw [hd] at hknown
  refine evaluate_solver (q := { q with body, low, high, precision }) hsub hbound ?_ ?_
    hknown.listed hs
  · have hinScope : ∀ {c d}, SubstitutesTo S ⟨∅, .ofPairs pairs⟩ c L' d → d.Scoped S :=
      fun h => by simpa using h.inScope
    simpa [Shape.passParts] using ⟨hinScope hlow, hinScope hhigh, hinScope hprecision⟩
  · have hinScope : body.Scoped (T ∪ insert q.bound.id ∅) := hbody'.inScope
    simpa [Solver.trialParts, hguard, Set.union_insert] using hinScope

/-- In `x - t` searched up to `z`, the variable `y` is put for `x`, and the bound variable
itself for `z`: above it still holds what it held before. -/
theorem substituted_solver_evaluation_of_difference :
    let x : Formula PartialReal := node 2 (.var "x")
    let t : Formula PartialReal := node 3 (.var "t")
    let z : Formula PartialReal := node 4 (.var "z")
    let y : Formula PartialReal := node 5 (.var "y")
    let body : Formula PartialReal := node 6 (.binary .subtract x t)
    let q : Solver PartialReal (Formula PartialReal) :=
      { body, bound := ⟨3, "t"⟩, low := zero, high := z, precision := one, guard := none }
    let root : Formula PartialReal := node 7 (.solver q)
    let before := (Store.empty.write 3 (real 1)).write 5 (real (1 / 2))
    let after := (before.write 2 (real (1 / 2))).write 4 (real 1)
    (((substitute [(2, y), (4, t)] root).run 8).1.evaluate.run before).1 =
        (root.evaluate.run after).1 ∧
      (root.evaluate.run after).1 = real (1 / 2) := by
  intro x t z y body q root before after
  have hknown : ∀ {e}, e ∈ [x, t, z, y, body, root] →
      e.KnownTo (.ofNodes [x, t, z, y, body, root]) :=
    ofNodes_known rfl (by
      simp [x, t, z, y, body, q, root, zero, one, Shape.refs, Shape.children, Solver.refs,
        Solver.children, Variable.formula])
  have hscoped : root.Scoped {2, 4} := by
    simp [root, q, body, x, t, z, zero, one, scoped_iff, Shape.passParts, Shape.children,
      Solver.trialParts]
  have hbefore : before.Reachable := .write (.write .empty _ _) _ _
  have hafter : after.Reachable := .write (.write hbefore _ _) _ _
  have hread : before.read 3 = real 1 ∧ before.read 5 = real (1 / 2) ∧
      after.read 2 = real (1 / 2) ∧ after.read 4 = real 1 := by
    simp [before, after, Store.read_write, Valuation.set]
  obtain ⟨hreadT, hreadY, hreadX, hreadZ⟩ := hread
  have hput : ∀ v r, Substitution.ofPairs [(2, y), (4, t)] v = some r →
      (v = 2 ∧ r = y) ∨ (v = 4 ∧ r = t) := by
    intro v r hr
    simpa using Substitution.mem_of_ofPairs hr
  have hfurnished : Furnished (.ofPairs [(2, y), (4, t)]) before after root := by
    refine ⟨fun v hv hnone => ?_, fun v r _ hr => ?_, fun v r _ hr => ?_⟩
    · obtain rfl | rfl := hscoped.mem_of_free hv <;> cases hnone
    · obtain ⟨rfl, rfl⟩ | ⟨rfl, rfl⟩ := hput v r hr
      · exact hreadX.trans hreadY.symm
      · exact hreadZ.trans hreadT.symm
    · obtain ⟨rfl, rfl⟩ | ⟨rfl, rfl⟩ := hput v r hr
      · exact defined_var (by simp [hreadY])
      · exact defined_var (by simp [hreadT])
  have hbounds : ∀ c ∈ (Shape.solver q).passParts,
      c.Receives {3, 5} ⟨∅, .ofPairs [(2, y), (4, t)]⟩ := by
    simp [q, zero, one, z, t, receives_node, scoped_iff, Substitution.ofPairs, Shape.passParts,
      Shape.children]
  have hbody : body.Receives {5} (Site.under ⟨∅, .ofPairs [(2, y), (4, t)]⟩ 3) := by
    simp [body, x, t, y, receives_node, scoped_iff, binds_node, Site.under, Substitution.except,
      Substitution.ofPairs, Shape.passParts, Shape.trialParts, Shape.children]
  have hbodyAt : ∀ v, q.bodyAt after.read (real v) = real (1 / 2 - v) := by
    intro v
    simp [Solver.bodyAt, q, body, x, t, value, BinaryOp.apply, Valuation.set, hreadX]
  have hlow : value after.read q.low = real 0 := value_of_asConstant rfl _
  have hprecision : value after.read q.precision = real 1 := value_of_asConstant rfl _
  have hvalue : value after.read root = real (1 / 2) :=
    value_solver_of_difference rfl hbodyAt hlow hreadZ hprecision (by norm_num) (by norm_num)
      (by norm_num) 7
  have htrials : q.trials after.read (real 0) (real 1) (real 1) =
      [real 0, real 1, real 0, real 1] :=
    Solver.trials_of_bracket rfl (hbodyAt 0) (hbodyAt 1) (by norm_num) (by norm_num) (by norm_num)
  have hroot := hknown (e := root) (by simp)
  refine ⟨?_, (evaluate_scoped hscoped hroot.listed hafter fun _ _ => rfl).trans hvalue⟩
  refine substituted_solver_evaluation (S := {3, 5}) (T := {5}) _ hroot rfl
    hscoped.lexicallyScoped (by simpa using ⟨hknown (by simp), hknown (by simp)⟩) (by simp)
    (by simp [q]) hbounds hbody hbefore hafter hfurnished ?_ ?_
  · simp [q, zero, one, z, definedInTrials_node, neededInPass, needed, Shape.passParts,
      Shape.children, value, hreadZ]
  · rw [hlow, show value after.read q.high = real 1 from hreadZ, hprecision, htrials]
    have hbodyDefined : ∀ v, body.DefinedInTrials (Valuation.set after.read 3 (real v)) := by
      intro v
      simp [body, x, t, definedInTrials_node, neededInPass, needed, Shape.children, value,
        BinaryOp.apply, Valuation.set, hreadX]
    simpa using ⟨hbodyDefined 0, hbodyDefined 1, hbodyDefined 0, hbodyDefined 1⟩

/-- The root of `x - 2 t` is half of `x`, but with `t` put in the place of `x` the body is
`t - 2 t` in every trial, whatever `t` was before. -/
theorem substitution_captures :
    let x : Formula PartialReal := node 2 (.var "x")
    let t : Formula PartialReal := node 3 (.var "t")
    let two : Formula PartialReal := node 4 (.const (real 2))
    let first : Formula PartialReal := node 5 (.binary .subtract x t)
    let body : Formula PartialReal := node 6 (.binary .subtract first t)
    let q : Solver PartialReal (Formula PartialReal) :=
      { body, bound := ⟨3, "t"⟩, low := zero, high := two, precision := two, guard := none }
    let root : Formula PartialReal := node 7 (.solver q)
    let result := ((substitute [(2, t)] root).run 8).1
    let before : Store PartialReal := Store.empty.write 3 (real 1)
    root.LexicallyScoped ∧
      (root.evaluate.run (before.write 2 (t.evaluate.run before).1)).1 = real (1 / 2) ∧
      (result.evaluate.run before).1 = real 0 := by
  intro x t two first body q root result before
  let first' : Formula PartialReal := node 8 (.binary .subtract t t)
  let body' : Formula PartialReal := node 9 (.binary .subtract first' t)
  let root' : Formula PartialReal := node 10 (.solver { q with body := body' })
  have hresult : result = root' := by
    simp [result, substitute, replace, replaceNode, replaceShape, once, root, q, body,
      first, x, t, two, zero, Replacement.ofPairs, Replacement.except, StateT.run_bind,
      Std.HashMap.getElem_insert]
    rfl
  have hknown : ∀ {e}, e ∈ [x, t, two, first, body, root, first', body', root'] →
      e.KnownTo (.ofNodes [x, t, two, first, body, root, first', body', root']) :=
    ofNodes_known rfl (by
      simp [x, t, two, first, body, q, root, first', body', root', zero, Shape.refs,
        Shape.children, Solver.refs, Solver.children, Variable.formula])
  have hscoped : root.Scoped {2} := by
    simp [root, q, body, first, x, t, two, zero, scoped_iff, Shape.passParts, Shape.children,
      Solver.trialParts]
  have hscoped' : root'.Scoped ∅ := by
    simp [root', q, body', first', t, two, zero, scoped_iff, Shape.passParts, Shape.children,
      Solver.trialParts]
  have hnow : (t.evaluate.run before).1 = real 1 := by
    show before.read 3 = real 1
    simp [before, Store.read_write, Valuation.set]
  have hreachable : before.Reachable := .write .empty _ _
  refine ⟨hscoped.lexicallyScoped, ?_, ?_⟩
  · let after := before.write 2 (t.evaluate.run before).1
    have hbodyAt : ∀ v, q.bodyAt after.read (real v) = real (1 - v - v) := by
      intro v
      simp [after, Solver.bodyAt, q, body, first, x, t, value, BinaryOp.apply, Valuation.set,
        Store.read_write, hnow]
    have hvalue : value after.read root =
        real (0 + (2 - 0) * (1 - 0 - 0) / ((1 - 0 - 0) - (1 - 2 - 2))) :=
      value_solver_of_bracket rfl (hbodyAt 0) (hbodyAt 2) (by norm_num) (by norm_num)
        (by norm_num) 7 (value_of_asConstant rfl _) (value_of_asConstant rfl _)
        (value_of_asConstant rfl _) (by norm_num)
    norm_num at hvalue
    rw [← hvalue]
    exact evaluate_scoped hscoped (hknown (by simp)).listed (.write hreachable _ _) fun _ _ => rfl
  · have hbodyAt : ∀ v, Solver.bodyAt { q with body := body' } before.read (real v) =
        real (0 - v) := by
      intro v
      simp [Solver.bodyAt, q, body', first', t, value, BinaryOp.apply, Valuation.set]
    have hvalue : value before.read root' = real 0 :=
      value_solver_of_difference rfl hbodyAt (value_of_asConstant rfl _)
        (value_of_asConstant rfl _) (value_of_asConstant rfl _) (by norm_num) (by norm_num)
        (by norm_num) 10
    rw [hresult, ← hvalue]
    exact evaluate_scoped hscoped' (hknown (by simp)).listed hreachable fun _ _ => rfl

/-- Where `z` is negative, `log z` is undefined and `e ^ x - t` has no root if `x` is that;
with `log z` put for `x` the body becomes `z - t`, which has one. -/
theorem substitution_uncovers_root :
    let x : Formula PartialReal := node 2 (.var "x")
    let t : Formula PartialReal := node 3 (.var "t")
    let z : Formula PartialReal := node 4 (.var "z")
    let low : Formula PartialReal := node 5 (.const (real (-2)))
    let two : Formula PartialReal := node 6 (.const (real 2))
    let logZ : Formula PartialReal := node 7 (.unary .log z)
    let expX : Formula PartialReal := node 8 (.unary .exp x)
    let body : Formula PartialReal := node 9 (.binary .subtract expX t)
    let q : Solver PartialReal (Formula PartialReal) :=
      { body, bound := ⟨3, "t"⟩, low, high := zero, precision := two, guard := none }
    let root : Formula PartialReal := node 10 (.solver q)
    let result := ((substitute [(2, logZ)] root).run 11).1
    let before : Store PartialReal := Store.empty.write 4 (real (-1))
    root.LexicallyScoped ∧
      (root.evaluate.run (before.write 2 (logZ.evaluate.run before).1)).1 = undefined ∧
      (result.evaluate.run before).1 = real (-1) := by
  intro x t z low two logZ expX body q root result before
  let body' : Formula PartialReal := node 11 (.binary .subtract z t)
  let root' : Formula PartialReal := node 12 (.solver { q with body := body' })
  have hresult : result = root' := by
    simp [result, substitute, replace, replaceNode, replaceShape, once, root, q, body, expX,
      x, t, low, zero, two, Replacement.ofPairs, Replacement.except, StateT.run_bind]
    rfl
  have hknown : ∀ {e}, e ∈ [x, t, z, low, two, logZ, expX, body, root, body', root'] →
      e.KnownTo (.ofNodes [x, t, z, low, two, logZ, expX, body, root, body', root']) :=
    ofNodes_known rfl (by
      simp [x, t, z, low, two, logZ, expX, body, q, root, body', root', zero, Shape.refs,
        Shape.children, Solver.refs, Solver.children, Variable.formula])
  have hscoped : root.Scoped {2} := by
    simp [root, q, body, expX, x, t, low, zero, two, scoped_iff, Shape.passParts, Shape.children,
      Solver.trialParts]
  have hscoped' : root'.Scoped {4} := by
    simp [root', q, body', z, t, low, zero, two, scoped_iff, Shape.passParts, Shape.children,
      Solver.trialParts]
  have hscopedLog : logZ.Scoped {4} := by
    simp [logZ, z, scoped_iff, Shape.passParts, Shape.children]
  have hreachable : before.Reachable := .write .empty _ _
  have hread : before.read 4 = real (-1) := by
    simp [before, Store.read_write, Valuation.set]
  have hnow : (logZ.evaluate.run before).1 = undefined := by
    rw [evaluate_scoped hscopedLog (hknown (by simp)).listed hreachable fun _ _ => rfl, value,
      value, hread]
    exact log_real_of_nonpos (by norm_num)
  refine ⟨hscoped.lexicallyScoped, ?_, ?_⟩
  · let after := before.write 2 (logZ.evaluate.run before).1
    have hbodyAt : ∀ v, q.bodyAt after.read v = undefined := by
      intro v
      simp [after, Solver.bodyAt, q, body, expX, x, t, value, BinaryOp.apply, UnaryOp.apply,
        Valuation.set, Store.read_write, hnow]
      rfl
    have hvalue : value after.read root = undefined := by
      rw [value_solver, Solver.rootBetween_of_never_past fun v => ?_]
      · rfl
      · rw [Solver.isPast, hbodyAt, Bool.and_eq_false_iff]
        exact .inr rfl
    rw [← hvalue]
    exact evaluate_scoped hscoped (hknown (by simp)).listed (.write hreachable _ _) fun _ _ => rfl
  · have hbodyAt : ∀ v, Solver.bodyAt { q with body := body' } before.read (real v) =
        real (-1 - v) := by
      intro v
      simp [Solver.bodyAt, q, body', z, t, value, BinaryOp.apply, Valuation.set, hread]
    have hvalue : value before.read root' = real (-1) :=
      value_solver_of_difference rfl hbodyAt (value_of_asConstant rfl _)
        (value_of_asConstant rfl _) (value_of_asConstant rfl _) (by norm_num) (by norm_num)
        (by norm_num) 12
    rw [hresult, ← hvalue]
    exact evaluate_scoped hscoped' (hknown (by simp)).listed hreachable fun _ _ => rfl

end Formula

end FormulaGraph
