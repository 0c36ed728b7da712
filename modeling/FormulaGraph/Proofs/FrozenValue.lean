import FormulaGraph.Proofs.Replacing
import FormulaGraph.Proofs.SimplifiedValue
import FormulaGraph.Proofs.Walks
import FormulaGraph.Proofs.WholeNumbers

/-!
# Frozen formulas

Freezing puts constants in the place of all variables but the excluded ones.  On the way into
the body of a solver its variable is excluded as well, so **the context of the pass is the list
of excluded variables**.

Two things are said of what comes out.  Of variables nothing is left but the excluded ones and
those that a solver binds (`freeze_builds_holding`), whatever the formula.  And a formula
without solvers, frozen in one store and evaluated in another, evaluates as it would where the
excluded variables hold what they hold now and all others what they held then
(`freeze_builds_meaning`).
-/

namespace FormulaGraph

namespace Formula

section

variable {α : Type}

/-- A solver within the formula binds the variable and has it in its body. -/
def HasBound (e : Formula α) (x : Variable) : Prop :=
  ∃ id s, (node id (.solver s)).Within e ∧ s.bound.id = x.id ∧ x.formula.Within s.body

/-- What a child binds the formula binds. -/
theorem HasBound.of_child {c e : Formula α} {x : Variable} (h : c.HasBound x)
    (hc : c ∈ e.children) : e.HasBound x := by
  obtain ⟨id, s, hs, hbound, hx⟩ := h
  exact ⟨id, s, .child hc hs, hbound, hx⟩

/-- The variable may be left when the formula is frozen. -/
structure MayStay (excluded : List NodeId) (e : Formula α) (x : Variable) : Prop where
  within : x.formula.Within e
  spared : x.id ∈ excluded ∨ e.HasBound x

/-- A variable that may stay in a child may stay in the formula. -/
theorem MayStay.of_child {excluded : List NodeId} {c e : Formula α} {x : Variable}
    (h : MayStay excluded c x) (hc : c ∈ e.children) : MayStay excluded e x :=
  ⟨.child hc h.within, h.spared.imp_right fun h => h.of_child hc⟩

/-- What stays in the body of a solver is bound by it or stays in the solver. -/
theorem MayStay.of_body {excluded : List NodeId} {id : NodeId} {s : Solver α (Formula α)}
    {x : Variable} (h : MayStay (s.bound.id :: excluded) s.body x) :
    MayStay excluded (node id (.solver s)) x := by
  have hbody : s.body ∈ (node id (.solver s)).children := List.mem_cons_self
  refine ⟨.child hbody h.within, ?_⟩
  rcases h.spared with hmem | hbound
  · rcases List.mem_cons.mp hmem with heq | hmem
    · exact .inr ⟨id, s, .refl _, heq.symm, h.within⟩
    · exact .inl hmem
  · exact .inr (hbound.of_child hbody)

/-- All variables within the formula satisfy `P`. -/
abbrev Holding (P : Variable → Prop) : Formula α → Prop :=
  Everywhere fun id shape => ∀ name, shape = .var name → P ⟨id, name⟩

/-- Operations hold no variables of their own. -/
theorem holding_admitsOperations (P : Variable → Prop) :
    AdmitsOperations (Holding (α := α) P) := by
  refine everywhere_admitsOperations (by simp) ?_
  rintro id shape hshape name rfl
  exact hshape.elim

/-- All variables of a formula that holds only such are such. -/
theorem Holding.mem_vars {P : Variable → Prop} {e : Formula α} (h : e.Holding P) {x : Variable}
    (hx : x ∈ e.vars) : P x := by
  obtain ⟨d, hd, hvar⟩ := List.mem_filterMap.mp hx
  obtain ⟨p, hp, hwithin⟩ := within_of_mem_walk hd
  rw [List.mem_singleton.mp hp] at hwithin
  obtain ⟨id, shape⟩ := d
  cases shape with
  | var name =>
      obtain rfl := Option.some.inj hvar
      exact (h.within hwithin).here name rfl
  | _ => cases hvar

/-- Freezing below a binder excludes the bound variable too. -/
theorem ofValues_except (values : NodeId → α) (excluded : List NodeId) (v : NodeId) :
    Replacement.ofValues values (v :: excluded) =
      (Replacement.ofValues values excluded).except v := by
  funext w
  rw [Replacement.except]
  by_cases hw : w.id = v
  · simp [Replacement.ofValues, hw]
  · simp [Replacement.ofValues, hw]

/-- What is frozen is not excluded, and a constant. -/
theorem ofValues_eq_some {values : NodeId → α} {excluded : List NodeId} {v : Variable}
    {put : Fresh (Formula α)} (h : Replacement.ofValues values excluded v = some put) :
    v.id ∉ excluded ∧ put = constant (values v.id) := by
  by_cases hv : v.id ∈ excluded
  · simp [Replacement.ofValues, hv] at h
  · exact ⟨hv, by simpa [Replacement.ofValues, hv, eq_comm] using h⟩

/-- Only excluded variables are not frozen. -/
theorem ofValues_eq_none {values : NodeId → α} {excluded : List NodeId} {v : Variable}
    (h : Replacement.ofValues values excluded v = none) : v.id ∈ excluded := by
  by_contra hv
  simp [Replacement.ofValues, hv] at h

end

/-! ## Variables that are left -/

section

variable {α : Type} [Scalar α] {L : Ledger α}

/-- **What freezing leaves**, through every step of the pass. -/
theorem freezing_holds (values : NodeId → α) :
    Replaces (Replacement.ofValues values) (fun excluded v => v :: excluded)
      (fun _ L e => e.KnownTo L)
      fun excluded e L d => d.Member (Holding (MayStay excluded e)) L where
  except excluded v := ofValues_except values excluded v
  lasting _ _ _ _ hL h := h.mono hL
  imageLasting _ _ := Member.lasting
  known h := h
  part h hc := h.ref (Shape.mem_refs_of_mem_passParts hc)
  body h := h.ref (Shape.mem_refs_of_mem_trialParts List.mem_cons_self)
  const h := ⟨h, (holding_admitsOperations _).const _ _⟩
  kept {excluded L id name} h hnone := by
    refine ⟨h, .node ?_ (by simp [Shape.children])⟩
    rintro _ ⟨⟩
    exact ⟨.refl _, .inl (ofValues_eq_none hnone)⟩
  put {excluded L id name} _ put hput := by
    rw [(ofValues_eq_some hput).2]
    exact constant_builds (holding_admitsOperations _) _
  rebuilt {excluded L e ds shape} h _ hds hshape := by
    have hmember : ∀ d ∈ ds, d.Member (Holding (MayStay excluded e)) L := by
      intro d hd
      obtain ⟨c, hc, hd⟩ := exists_of_forall₂ hds d hd
      exact ⟨hd.known, hd.holds.imp fun _ _ hstay name hname => (hstay name hname).of_child hc⟩
    refine replaceOver_member (holding_admitsOperations _) h hmember hshape fun id => .node ?_ ?_
    · exact fun name hname => absurd hname (not_var_of_withChildren hshape name)
    · rw [(children_of_withChildren hshape).1]
      exact fun d hd => (hmember d hd).holds
  solver {excluded L id s body low high precision} h hbody hlow hhigh hprecision := by
    have hpart : ∀ {c d : Formula α}, c ∈ (Shape.solver s).children →
        d.Member (Holding (MayStay excluded c)) L →
        d.Holding (MayStay excluded (node id (.solver s))) := fun hc hd =>
      hd.holds.imp fun _ _ hstay name hname =>
        (hstay name hname).of_child (e := node id (.solver s)) hc
    have hds : ∀ d ∈ [body, low, high, precision], d.KnownTo L := by
      simpa using ⟨hbody.known, hlow.known, hhigh.known, hprecision.known⟩
    refine replaceOver_solver_builds h hds fun L' id' hL hknown => ⟨hknown, .node (by simp) ?_⟩
    have hbodyHolds : body.Holding (MayStay excluded (node id (.solver s))) :=
      hbody.holds.imp fun _ _ hstay name hname => (hstay name hname).of_body
    simpa [Shape.children, Solver.children] using ⟨hbodyHolds,
      hpart (by simp [Shape.children, Solver.children]) hlow,
      hpart (by simp [Shape.children, Solver.children]) hhigh,
      hpart (by simp [Shape.children, Solver.children]) hprecision⟩

/-- A frozen formula holds excluded variables and bound ones, and no others. -/
theorem freeze_builds_holding (values : NodeId → α) (excluded : List NodeId) {e : Formula α}
    (he : e.KnownTo L) :
    Builds (freeze values excluded e) L fun L' d => d.Member (Holding (MayStay excluded e)) L' :=
  ((freezing_holds values).carries e he).answer

end

/-! ## Values -/

open PartialReal

section

variable {values ρ : Valuation PartialReal} {excluded : List NodeId} {L : Ledger PartialReal}

/-- The excluded variables at one valuation, all others at another. -/
def mixed (values : Valuation PartialReal) (excluded : List NodeId) (ρ : Valuation PartialReal) :
    Valuation PartialReal :=
  fun v => if v ∈ excluded then ρ v else values v

/-- A formula without solvers that has, at every valuation, the value the first one has at the
mixed one, where that one is defined. -/
structure FreezesTo (values : Valuation PartialReal) (excluded : List NodeId)
    (e : Formula PartialReal) (L : Ledger PartialReal) (d : Formula PartialReal) : Prop where
  member : d.Member SolverFree L
  means : ∀ ρ, e.Defined (mixed values excluded ρ) → d.Means ρ (value (mixed values excluded ρ) e)

/-- A frozen formula matches the original where that is defined. -/
theorem FreezesTo.matches {c d : Formula PartialReal} (h : FreezesTo values excluded c L d)
    (hc : c.Defined (mixed values excluded ρ)) : Matches (mixed values excluded ρ) ρ c d :=
  ⟨(h.means ρ hc).defined hc.here, (h.means ρ hc).value_eq⟩

/-- A frozen formula keeps matching while more is built. -/
theorem freezesTo_lasting (e : Formula PartialReal) : Lasting (FreezesTo values excluded e) :=
  fun _ _ _ hL h => ⟨h.member.mono hL, h.means⟩

/-- A node rebuilt over frozen children is the node frozen. -/
theorem freezesTo_rebuilt {e : Formula PartialReal}
    {shape : Shape PartialReal (Formula PartialReal)} {ds : List (Formula PartialReal)}
    (he : e.Member SolverFree L)
    (hds : List.Forall₂ (fun c d => FreezesTo values excluded c L d) e.children ds)
    (hshape : e.shape.withChildren? ds = some shape) :
    Builds (replaceOver e ds) L (FreezesTo values excluded e) := by
  obtain ⟨id, eshape⟩ := e
  have hfree : ∀ s, eshape ≠ .solver s := he.holds.here
  have hmember : ∀ d ∈ ds, d.Member SolverFree L := forall_of_forall₂ hds fun _ _ h => h.member
  have hshapeFree : ∀ id', (node id' shape).SolverFree := fun id' =>
    solverFree_admitsRebuilding.withChildren he.holds (fun d hd => (hmember d hd).holds) hshape id'
  have hvar : ∀ name, shape ≠ .var name := not_var_of_withChildren hshape
  have hneeded : ∀ {ρ}, (node id eshape).Defined (mixed values excluded ρ) →
      (∀ c ∈ neededInPass ρ shape, c.Defined ρ) ∧
        value ρ (node 0 shape) = value (mixed values excluded ρ) (node id eshape) := fun hdefined =>
    (withChildren_means id hfree
      (hds.imp fun c d hd hc => hd.matches (hdefined.needed hc)) hshape).2
  refine (replaceOver_satisfies solverFree_admitsRebuilding.toAdmitsOperations he.known hmember
    hshape (P := fun d => ∀ ρ, (node id eshape).Defined (mixed values excluded ρ) →
      d.Means ρ (value (mixed values excluded ρ) (node id eshape)))
    (fun id' => ⟨hshapeFree id', ?_⟩) ?_).mono fun _ _ _ h => ⟨h.1, h.2⟩
  · intro ρ hdefined
    rw [← (hneeded hdefined).2]
    exact node_means hvar (hneeded hdefined).1
  · intro n ρ hdefined
    rw [← (hneeded hdefined).2]
    exact ofShape_means hvar (hneeded hdefined).1 n

/-- **Freezing is sound**: the steps of the pass, over formulas without solvers. -/
theorem freezing_means (values : Valuation PartialReal) :
    Replaces (Replacement.ofValues values) (fun excluded v => v :: excluded)
      (fun _ L e => e.Member SolverFree L) (FreezesTo values) where
  except excluded v := ofValues_except values excluded v
  lasting _ := Member.lasting
  imageLasting _ := freezesTo_lasting
  known h := h.known
  part {excluded L e c} h hc := by
    rw [Shape.passParts_eq_children h.holds.here] at hc
    exact h.child hc
  body h := absurd rfl (h.holds.here _)
  const {excluded L id v} h := by
    refine ⟨h, fun ρ _ => ?_⟩
    rw [value]
    exact const_means id v
  kept {excluded L id name} h hnone := by
    refine ⟨h, fun ρ hdefined => ?_⟩
    have hread : mixed values excluded ρ id = ρ id := if_pos (ofValues_eq_none hnone)
    have hhere := hdefined.here
    rw [value, hread] at hhere ⊢
    exact ⟨by rw [value], fun _ => defined_var hhere⟩
  put {excluded L id name} _ put hput := by
    obtain ⟨hnot, rfl⟩ := ofValues_eq_some hput
    have hmeans : Yields (constant (values id)) fun d => ∀ ρ, d.Means ρ (values id) :=
      .new fun id' ρ => const_means id' _
    refine ((constant_builds solverFree_admitsRebuilding.toAdmitsOperations _).and_yields
      hmeans).mono fun L' d _ h => ⟨h.1, fun ρ _ => ?_⟩
    rw [value, mixed, if_neg hnot]
    exact h.2 ρ
  rebuilt h _ hds hshape := freezesTo_rebuilt h hds hshape
  solver h := absurd rfl (h.holds.here _)

/-- Freezing builds a formula that matches the original. -/
theorem freeze_builds_meaning (values : Valuation PartialReal) (excluded : List NodeId)
    {e : Formula PartialReal} (he : e.KnownTo L) (hfree : e.SolverFree) :
    Builds (freeze values excluded e) L (FreezesTo values excluded e) :=
  ((freezing_means values).carries e ⟨he, hfree⟩).answer

end

/-- **Freezing.**  The variables in a frozen formula are excluded ones, or there is a solver in
the formula that binds them and has them in its body.  In exact arithmetic a solver-free formula
that was frozen at the values of the moment evaluates, at any later time, as the formula itself
where the excluded variables hold what they hold then and all others what they held at the
moment, if nothing within it is undefined there. -/
theorem frozen_evaluation :
    (∀ (α : Type) [Scalar α] (L : Ledger α) (e : Formula α), e.KnownTo L →
      ∀ (values : NodeId → α) (excluded : List NodeId) (x : Variable),
        x ∈ ((e.freeze values excluded).run L.next).1.vars →
        x.id ∈ excluded ∨ ∃ id s, (node id (.solver s)).Within e ∧ s.bound.id = x.id ∧
          x.formula.Within s.body) ∧
    ∀ (L : Ledger PartialReal) (e : Formula PartialReal), e.KnownTo L → e.SolverFree →
      ∀ (excluded : List NodeId) (moment later mixed : Store PartialReal), later.Reachable →
        mixed.Reachable →
        (∀ v, mixed.read v = if v ∈ excluded then later.read v else moment.read v) →
        e.EvaluatesThroughout mixed →
        (((e.freeze moment.read excluded).run L.next).1.evaluate.run later).1 =
          (e.evaluate.run mixed).1 := by
  refine ⟨?_, ?_⟩
  · intro α _ L e he values excluded x hx
    obtain ⟨_, _, _, hmember⟩ := freeze_builds_holding values excluded he
    exact (hmember.holds.mem_vars hx).spared
  · intro L e he hfree excluded moment later mixed hlater hmixed hread hthroughout
    obtain ⟨_, _, _, hfrozen⟩ := freeze_builds_meaning moment.read excluded he hfree
    have hdefined := hthroughout.defined hmixed hfree he
    rw [show mixed.read = Formula.mixed moment.read excluded later.read from funext hread]
      at hdefined
    rw [evaluate_run hfrozen.member.holds hfrozen.member.known.listed hlater,
      evaluate_run hfree he.listed hmixed, (hfrozen.means later.read hdefined).value_eq,
      show mixed.read = Formula.mixed moment.read excluded later.read from funext hread]

/-- Of a solver for `t` frozen with nothing excluded `t` is left, in the body.  The sum of the
square of `x` and `y`, frozen with `y` excluded where they are two and three, is fourteen when
`x` is seven and `y` ten. -/
theorem frozen_evaluation_of_solver_and_sum :
    let t : Variable := ⟨2, "t"⟩
    let difference : Formula Int := node 4 (.binary .subtract (node 3 (.var "x")) t.formula)
    let search : Solver Int (Formula Int) :=
      { body := difference, bound := t, low := zero, high := one, precision := one, guard := none }
    let root : Formula Int := node 5 (.solver search)
    let x : Formula PartialReal := node 2 (.var "x")
    let y : Formula PartialReal := node 3 (.var "y")
    let square : Formula PartialReal := node 4 (.unary .square x)
    let sum : Formula PartialReal := node 5 (.assoc .add [square, y])
    let moment := (Store.empty.write 2 (real 2)).write 3 (real 3)
    let later := (Store.empty.write 2 (real 7)).write 3 (real 10)
    let mixed := (Store.empty.write 2 (real 2)).write 3 (real 10)
    ((root.freeze (fun _ => 5) []).run 6).1.vars = [t] ∧
      (∃ id s, (node id (.solver s)).Within root ∧ s.bound.id = t.id ∧
        t.formula.Within s.body) ∧
      (((sum.freeze moment.read [3]).run 6).1.evaluate.run later).1 = (sum.evaluate.run mixed).1 ∧
      (sum.evaluate.run mixed).1 = real 14 := by
  intro t difference search root x y square sum moment later mixed
  obtain ⟨hvars, hvalue⟩ := frozen_evaluation
  have hleft : ((root.freeze (fun _ => 5) []).run 6).1.vars = [t] := by
    simp only [root, search, difference, t]
    cbv
  refine ⟨hleft, ?_, ?_⟩
  · have hroot : root.KnownTo (.ofNodes [t.formula, node 3 (.var "x"), difference, root]) :=
      ofNodes_known rfl (by
        simp [t, difference, search, root, zero, one, Shape.refs, Shape.children, Solver.refs,
          Solver.children, Variable.formula]) (by simp)
    have hmem : t ∈ ((root.freeze (fun _ => 5) []).run 6).1.vars :=
      hleft ▸ List.mem_singleton_self t
    exact (hvars Int _ root hroot (fun _ => 5) [] t hmem).resolve_left (by simp)
  · have hsum : sum.KnownTo (.ofNodes [x, y, square, sum]) :=
      ofNodes_known rfl (by simp [x, y, square, sum, Shape.refs, Shape.children]) (by simp)
    have hfree : sum.SolverFree := by
      simp [sum, square, x, y, everywhere_node, Shape.children]
    have hlater : later.Reachable := .write (.write .empty _ _) _ _
    have hmixed : mixed.Reachable := .write (.write .empty _ _) _ _
    have hread : ∀ v, mixed.read v = if v ∈ [3] then later.read v else moment.read v := by
      intro v
      by_cases hv : v = 3 <;>
        simp [mixed, later, moment, Store.read_write, Valuation.set, hv]
    have hsumAt : value mixed.read sum = real 14 := by
      simp [sum, square, x, y, value, values, mixed, Store.read_write, Valuation.set,
        AssocOp.apply, UnaryOp.apply, sum_eq]
      norm_num
    have hthroughout : sum.EvaluatesThroughout mixed := by
      refine evaluatesThroughout_of_value hmixed hfree hsum (forall_within_node.mpr ⟨?_, ?_⟩)
      · show value _ sum ≠ undefined
        simp [hsumAt]
      · simp [square, x, y, forall_within_node, Shape.children, value, mixed, Store.read_write,
          Valuation.set, UnaryOp.apply]
    refine ⟨hvalue _ sum hsum hfree [3] moment later mixed hlater hmixed hread hthroughout, ?_⟩
    rw [evaluate_run hfree hsum.listed hmixed, hsumAt]

end Formula

end FormulaGraph
