import FormulaGraph.Proofs.RewrittenDerivatives
import FormulaGraph.Proofs.UntouchedNodes

/-!
# Slopes of roots

A solver for `t` makes `t` a function of the other variables, by an equation.  Its derivative
is the slope of the level line of the body, with the solver itself put in the place of `t`.

Whatever is remembered, the derivative of a solver is zero for its own variable, zero where the
derivative of the body is, and otherwise this slope, made of derivatives of the body
(`SlopeOfRoot`).  Substitution leaves no variable exposed but those it leaves alone and those
that come with what is put (`substitution_surfaces`).  So the slope is not exposed to `t`, and
while it is evaluated the search for the root may write `t` as it likes: where the solver has a
root, the slope has the value that implicit differentiation gives (`rootSlope_builds_quotient`).
-/

namespace FormulaGraph

namespace Formula

/-! ## Variables after a substitution -/

section

variable {α : Type}

/-- Exposed variables are free. -/
theorem Exposed.free {e : Formula α} {v : NodeId} (h : e.Exposed v) : e.Free v := by
  induction h with
  | var name => exact .var name
  | part hc _ ih => exact .pass hc ih
  | body hne _ ih => exact .trial hne List.mem_cons_self ih

/-- The formula is exposed to the variable and it is left alone, or what is put for another one
that the formula is exposed to is exposed to it. -/
def Surfaces (θ : Substitution α) (e : Formula α) (v : NodeId) : Prop :=
  (e.Exposed v ∧ θ v = none) ∨ ∃ w r, e.Exposed w ∧ θ w = some r ∧ r.Exposed v

variable {θ : Substitution α} {v : NodeId}

/-- A variable that surfaces in a part surfaces in the formula. -/
theorem Surfaces.part {c e : Formula α} (h : Surfaces θ c v) (hc : c ∈ e.shape.passParts) :
    Surfaces θ e v := by
  obtain ⟨id, shape⟩ := e
  rcases h with ⟨hv, hnone⟩ | ⟨w, r, hw, hr, hv⟩
  · exact .inl ⟨.part hc hv, hnone⟩
  · exact .inr ⟨w, r, .part hc hw, hr, hv⟩

/-- What surfaces in the body surfaces, unless it is bound. -/
theorem Surfaces.body {id : NodeId} {s : Solver α (Formula α)}
    (h : Surfaces (θ.except s.bound.id) s.body v) (hne : v ≠ s.bound.id) :
    Surfaces θ (node id (.solver s)) v := by
  rcases h with ⟨hv, hnone⟩ | ⟨w, r, hw, hr, hv⟩
  · exact .inl ⟨.body hne hv, (if_neg hne).symm.trans hnone⟩
  · obtain ⟨hne', hr⟩ := Substitution.except_eq_some.mp hr
    exact .inr ⟨w, r, .body hne' hw, hr, hv⟩

/-- Away from variables and solvers, a node is exposed to what its children are exposed to. -/
theorem exposed_iff_of_children {id : NodeId} {shape : Shape α (Formula α)}
    (hvar : ∀ name, shape ≠ .var name) (hsolver : ∀ s, shape ≠ .solver s) :
    (node id shape).Exposed v ↔ ∃ c ∈ shape.children, c.Exposed v := by
  rw [exposed_node, Shape.passParts_eq_children hsolver]
  refine ⟨?_, fun h => .inr (.inl h)⟩
  rintro (⟨-, name, h⟩ | h | ⟨s, h, -⟩)
  · exact absurd h (hvar name)
  · exact h
  · exact absurd h (hsolver s)

/-- Operations expose no variables of their own. -/
theorem exposed_admitsOperations (P : NodeId → Prop) :
    AdmitsOperations fun d : Formula α => ∀ v, d.Exposed v → P v := by
  refine admitsOperations_of_iff fun hvar hsolver => ?_
  simp only [exposed_iff_of_children hvar hsolver]
  exact ⟨fun h c hc v hv => h v ⟨c, hc, hv⟩, fun h v ⟨c, hc, hv⟩ => h c hc v hv⟩

variable [Scalar α] {L : Ledger α}

/-- **What a substitution leaves exposed**, through every step of the pass. -/
theorem substitution_surfaces :
    Replaces (fun θ : Substitution α => θ.replacement) Substitution.except
      (fun θ L e => e.KnownTo L ∧ ∀ v r, θ v = some r → r.KnownTo L)
      fun θ e L d => d.Member (fun d => ∀ v, d.Exposed v → Surfaces θ e v) L where
  except := Substitution.replacement_except
  lasting _ _ _ _ hL h := ⟨h.1.mono hL, fun v r hr => (h.2 v r hr).mono hL⟩
  imageLasting _ _ := Member.lasting
  known h := h.1
  part h hc := ⟨h.1.ref (Shape.mem_refs_of_mem_passParts hc), h.2⟩
  body {θ L id s} h := by
    refine ⟨h.1.ref (Shape.mem_refs_of_mem_trialParts List.mem_cons_self), fun v r hr => ?_⟩
    exact h.2 v r (Substitution.except_eq_some.mp hr).2
  const h := ⟨h.1, (exposed_admitsOperations _).const _ _⟩
  kept {θ L id name} h hkept := by
    have hnone : θ id = none := Option.map_eq_none_iff.mp hkept
    refine ⟨h.1, fun v hv => .inl ⟨hv, ?_⟩⟩
    rcases exposed_node.mp hv with ⟨rfl, -⟩ | ⟨c, hc, -⟩ | ⟨s, hs, -⟩
    · exact hnone
    · cases hc
    · cases hs
  put {θ L id name} h x hx := by
    obtain ⟨r, hr, rfl⟩ := Option.map_eq_some_iff.mp hx
    exact .pure ⟨h.2 id r hr, fun v hv => .inr ⟨id, r, .var name, hr, hv⟩⟩
  rebuilt {θ L e ds shape} h hfree hds hshape := by
    have hmember : ∀ d ∈ ds, d.Member (fun d => ∀ v, d.Exposed v → Surfaces θ e v) L := by
      intro d hd
      obtain ⟨c, hc, hd⟩ := exists_of_forall₂ hds d hd
      have hpart : c ∈ e.shape.passParts := by rwa [Shape.passParts_eq_children hfree]
      exact ⟨hd.known, fun v hv => (hd.holds v hv).part hpart⟩
    refine replaceOver_member (exposed_admitsOperations _) h.1 hmember hshape fun id v hv => ?_
    rw [exposed_iff_of_children (not_var_of_withChildren hshape)
      (not_solver_of_withChildren hfree hshape), (children_of_withChildren hshape).1] at hv
    obtain ⟨d, hd, hv⟩ := hv
    exact (hmember d hd).holds v hv
  solver {θ L id s body low high precision} h hbody hlow hhigh hprecision := by
    have hds : ∀ d ∈ [body, low, high, precision], d.KnownTo L := by
      simpa using ⟨hbody.known, hlow.known, hhigh.known, hprecision.known⟩
    refine replaceOver_solver_builds h.1 hds fun L' id' hL hknown => ⟨hknown, fun v hv => ?_⟩
    rcases exposed_node.mp hv with ⟨-, name, h⟩ | ⟨c, hc, hvc⟩ | ⟨_, ⟨⟩, hne, hvBody⟩
    · cases h
    · have hc' : c = low ∨ c = high ∨ c = precision := by simpa [Shape.passParts] using hc
      rcases hc' with rfl | rfl | rfl
      · exact (hlow.holds v hvc).part (by simp [Shape.passParts])
      · exact (hhigh.holds v hvc).part (by simp [Shape.passParts])
      · exact (hprecision.holds v hvc).part (by simp [Shape.passParts])
    · exact (hbody.holds v hvBody).body hne

/-- A variable is not exposed any more once something is put for it that is not exposed to it. -/
theorem substitute_not_exposed {e r : Formula α} (he : e.KnownTo L) (hr : r.KnownTo L)
    (h : ¬ r.Exposed v) : Builds (substitute [(v, r)] e) L fun _ d => ¬ d.Exposed v := by
  have hpass := substitution_surfaces.carries (k := .ofPairs [(v, r)]) e
    ⟨he, fun w d hd => (Substitution.ofPairs_eq_some.mp hd).2 ▸ hr⟩
  rw [Substitution.replacement_ofPairs] at hpass
  refine hpass.answer.mono fun L' d _ hd hv => ?_
  rcases hd.holds v hv with ⟨-, hnone⟩ | ⟨w, c, -, hc, hv⟩
  · exact Substitution.ofPairs_eq_none.mp hnone rfl
  · exact h ((Substitution.ofPairs_eq_some.mp hc).2 ▸ hv)

/-- The slope of a root does not expose the bound variable, for the root is put in its place. -/
theorem rootSlope_not_exposed {e d d' : Formula α} (he : e.KnownTo L) (hd : d.KnownTo L)
    (hd' : d'.KnownTo L) (h : ¬ e.Exposed v) :
    Builds (rootSlope e v d d') L fun _ D => ¬ D.Exposed v := by
  have hA := trivial_admitsOperations (α := α)
  refine .bind (binary_builds hA .divide (member_trivial hd) (member_trivial hd')) ?_
  intro L₁ quotient hL₁ hquotient
  refine .bind (unary_builds hA .negate hquotient) ?_
  intro L₂ slope hL₂ hslope
  exact substitute_not_exposed hslope.known (he.mono (hL₁.trans hL₂)) h

end

/-! ## What the derivative of a solver is -/

section

variable {α : Type} [Scalar α] {V : NodeId → Formula α → Formula α → Prop} {L : Ledger α}

/-- The derivative of the solver, from derivatives of its body. -/
inductive SlopeOfRoot (V : NodeId → Formula α → Formula α → Prop) (x id : NodeId)
    (s : Solver α (Formula α)) : Formula α → Prop
  | bound (h : s.bound.id = x) : SlopeOfRoot V x id s zero
  | level {d : Formula α} (hne : s.bound.id ≠ x) (hd : V x s.body d)
      (hlevel : d.isConstantValue 0 = true) : SlopeOfRoot V x id s zero
  | slope {L : Ledger α} {d d' : Formula α} (he : (node id (.solver s)).KnownTo L)
      (hne : s.bound.id ≠ x) (hd : IsDerivative V x s.body L d)
      (hd' : IsDerivative V s.bound.id s.body L d') :
      SlopeOfRoot V x id s ((rootSlope (node id (.solver s)) s.bound.id d d').run L.next).1

/-- Handed on with `V`: the derivative of a solver is the slope of its root. -/
def WithSlopes (V : NodeId → Formula α → Formula α → Prop) (x : NodeId) (e d : Formula α) : Prop :=
  V x e d ∧ ∀ id s, e = node id (.solver s) → SlopeOfRoot V x id s d

/-- Terms are also the derivatives of anything weaker. -/
theorem DerivativeTerms.imp {V' : NodeId → Formula α → Formula α → Prop} {x : NodeId}
    {op : AssocOp} {before args terms : List (Formula α)} (h : ∀ e d, V x e d → V' x e d)
    (hterms : DerivativeTerms V x op before args terms) :
    DerivativeTerms V' x op before args terms := by
  induction hterms with
  | nil => exact .nil
  | cons hd n _ ih => exact .cons (h _ _ hd) n ih

/-- A derivative remembered with its slopes is a derivative. -/
theorem IsDerivative.of_withSlopes {x : NodeId} {e d : Formula α}
    (h : IsDerivative (WithSlopes V) x e L d) : IsDerivative V x e L d :=
  ⟨h.known, h.inherits, h.handedOn.1⟩

/-- Whatever is handed on, the derivatives of solvers are slopes of roots. -/
theorem HandedOn.withSlopes (h : HandedOn V) : HandedOn (WithSlopes V) where
  const x id v := ⟨h.const x id v, nofun⟩
  var_self x name := ⟨h.var_self x name, nofun⟩
  var_other x id name hne := ⟨h.var_other x id name hne, nofun⟩
  unary hd := (h.unary hd.1).mono fun _ hV => ⟨hV, nofun⟩
  binary hda hdb := (h.binary hda.1 hdb.1).mono fun _ hV => ⟨hV, nofun⟩
  assoc hterms := (h.assoc (hterms.imp fun _ _ hd => hd.1)).mono fun _ hV => ⟨hV, nofun⟩
  conditional hda hdb := (h.conditional hda.1 hdb.1).mono fun _ hV => ⟨hV, nofun⟩
  tabulated hd := (h.tabulated hd.1).mono fun _ hV => ⟨hV, nofun⟩
  solver_bound {id s} := by
    refine ⟨h.solver_bound, ?_⟩
    rintro _ _ ⟨⟩
    exact .bound rfl
  solver_level {x id s d} hd hlevel := by
    refine ⟨h.solver_level hd.1 hlevel, ?_⟩
    rintro _ _ ⟨⟩
    by_cases hbound : s.bound.id = x
    · exact .bound hbound
    · exact .level hbound hd.1 hlevel
  solver_slope {x id s d d' L} he hne hlevel hd hd' := by
    have hV := h.solver_slope he hne hlevel hd.of_withSlopes hd'.of_withSlopes
    obtain ⟨L', hL, hnext, hslope⟩ := hV
    refine ⟨L', hL, hnext, hslope, ?_⟩
    rintro _ _ ⟨⟩
    exact .slope he hne hd.of_withSlopes hd'.of_withSlopes

/-- The derivative of a solver is the slope of its root. -/
theorem derivative_slopeOfRoot (hV : HandedOn V) {w : Workbench α} (hw : w.Attainable)
    {id : NodeId} {s : Solver α (Formula α)} (hs : node id (.solver s) ∈ w.atHand) (x : NodeId) :
    SlopeOfRoot V x id s (w.derivative (node id (.solver s)) x) := by
  obtain ⟨L, hL⟩ := hw.accounted hV.withSlopes
  obtain ⟨_, _, hderivative⟩ := hL.isDerivative hV.withSlopes hs x
  exact hderivative.handedOn.2 id s rfl

/-- By its own variable the root does not change. -/
theorem SlopeOfRoot.eq_zero {x id : NodeId} {s : Solver α (Formula α)} {d : Formula α}
    (h : SlopeOfRoot V x id s d) (hx : s.bound.id = x) : d = zero := by
  cases h with
  | bound => rfl
  | level => rfl
  | slope _ hne _ _ => exact absurd hx hne

/-- The slope of a root does not expose the bound variable. -/
theorem SlopeOfRoot.not_exposed {x id : NodeId} {s : Solver α (Formula α)} {d : Formula α}
    (h : SlopeOfRoot V x id s d) (hs : ¬ (node id (.solver s)).Exposed s.bound.id) :
    ¬ d.Exposed s.bound.id := by
  have hzero : ¬ (zero : Formula α).Exposed s.bound.id := by
    simp [zero, exposed_node, Shape.passParts, Shape.children]
  cases h with
  | bound => exact hzero
  | level => exact hzero
  | slope he _ hd hd' =>
      obtain ⟨_, _, _, hslope⟩ := rootSlope_not_exposed he hd.known hd'.known hs
      exact hslope

end

/-! ## What it evaluates to -/

open PartialReal

variable {L : Ledger PartialReal} {S : Set NodeId} {t : NodeId} {e d d' : Formula PartialReal}

/-- The negated quotient, with `e` put for `t`, is scoped as `e` is, and means what the quotient
gives where `t` has the value of `e`. -/
theorem rootSlope_builds_quotient (he : e.KnownTo L) (hscoped : e.Scoped S)
    (hS : ∀ v, v ≠ t → v ∈ S) (hd : d.Member SolverFree L) (hd' : d'.Member SolverFree L) :
    Builds (rootSlope e t d d') L fun L' D => D.Member (Scoped S) L' ∧
      ∀ (ρ : Valuation PartialReal) (a b : ℝ), e.Defined ρ →
        d.Means (ρ.set t (value ρ e)) (real a) → d'.Means (ρ.set t (value ρ e)) (real b) →
          D.Means ρ (real (-(a / b))) := by
  have hA : AdmitsOperations (SolverFree (α := PartialReal)) :=
    solverFree_admitsRebuilding.toAdmitsOperations
  have hquotient : Yields (binary .divide d d') fun q => ∀ (ρ : Valuation PartialReal) (a b : ℝ),
      d.Means ρ (real a) → d'.Means ρ (real b) → q.Means ρ (real (a / b)) :=
    fun n ρ a b ha hb => binary_real .divide ha hb n
  refine .bind ((binary_builds hA .divide hd hd').and_yields hquotient) ?_
  intro L₁ q hL₁ hboth
  obtain ⟨hq, hqMeans⟩ := hboth
  have hnegated : Yields (unary .negate q) fun r => ∀ (ρ : Valuation PartialReal) (c : ℝ),
      q.Means ρ (real c) → r.Means ρ (real (-c)) :=
    fun n ρ c hc => unary_real .negate hc rfl n
  refine .bind ((unary_builds hA .negate hq).and_yields hnegated) ?_
  intro L₂ r hL₂ hboth
  obtain ⟨hr, hrMeans⟩ := hboth
  have hput : ∀ v c, Substitution.ofPairs [(t, e)] v = some c → v = t ∧ c = e := fun _ _ hc =>
    Substitution.ofPairs_eq_some.mp hc
  have hpass := (substitutes S).carries (k := ⟨∅, .ofPairs [(t, e)]⟩) r
    ⟨hr.known, fun v c hc => (hput v c hc).2 ▸ he.mono (hL₁.trans hL₂),
      receives_of_solverFree hr.holds
        (fun v _ hnone => .inl (hS v (Substitution.ofPairs_eq_none.mp hnone)))
        fun v c _ hc => ⟨(hput v c hc).2 ▸ hscoped, by simp⟩⟩
  rw [Substitution.replacement_ofPairs] at hpass
  refine hpass.answer.mono fun L' D _ hD => ⟨⟨hD.known, by simpa using hD.inScope⟩, ?_⟩
  intro ρ a b hdefined ha hb
  have hmeans := hrMeans _ _ (hqMeans _ a b ha hb)
  have hsupplies : Supplies ⟨∅, .ofPairs [(t, e)]⟩ r ρ (ρ.set t (value ρ e)) := by
    refine ⟨fun v _ hnone => if_neg (Substitution.ofPairs_eq_none.mp hnone), fun v c _ hc => ?_⟩
    obtain ⟨rfl, rfl⟩ := hput v c hc
    exact ⟨if_pos rfl, hdefined⟩
  rw [← hmeans.value_eq]
  exact hD.means _ _ hsupplies (hmeans.defined_of_real.definedInTrials hr.holds)

/-- A solver without a guard over a body without tables and solvers, with bounds that are free of
solvers and of its variable. -/
structure PlainSolver {α : Type} (q : Solver α (Formula α)) : Prop where
  guard : q.guard = none
  body : q.body.Elementary
  bounds : ∀ c ∈ (Shape.solver q).passParts, c.SolverFree ∧ ¬ c.Free q.bound.id

/-- Elementary formulas contain no solvers. -/
theorem Elementary.solverless {α : Type} {e : Formula α} (he : e.Elementary) : e.Solverless := by
  induction he with
  | @node id shape here _ ih =>
      cases shape with
      | tabulated mark t a => exact here.elim
      | solver s => exact here.elim
      | _ => exact .node (by simp) ih

section

variable {id : NodeId}

/-- A plain solver does not expose its bound variable. -/
theorem PlainSolver.not_exposed {α : Type} {q : Solver α (Formula α)} (h : PlainSolver q) :
    ¬ (node id (.solver q)).Exposed q.bound.id := by
  intro hv
  rcases exposed_node.mp hv with ⟨-, name, h'⟩ | ⟨c, hc, hv⟩ | ⟨_, ⟨⟩, hne, -⟩
  · cases h'
  · exact (h.bounds c hc).2 hv.free
  · exact hne rfl

variable {q : Solver PartialReal (Formula PartialReal)} {x v : NodeId} {a : ℝ}
  {s : Store PartialReal}

/-- A plain solver keeps its own variable to itself. -/
theorem PlainSolver.scoped {α : Type} {q : Solver α (Formula α)} (h : PlainSolver q) :
    (node id (.solver q)).Scoped {v | v ≠ q.bound.id} := by
  refine .node (by simp) ?_ ?_ ?_
  · rintro _ ⟨⟩ hbound
    exact hbound rfl
  · intro c hc
    obtain ⟨hfree, hnot⟩ := h.bounds c hc
    refine scoped_of_solverFree hfree fun v hv heq => ?_
    exact hnot (heq ▸ hv)
  · rintro _ ⟨⟩ c hc
    have hbody : c = q.body := by simpa [Solver.trialParts, h.guard] using hc
    rw [hbody]
    exact scoped_of_solverFree h.body.solverFree fun v _ => em (v = q.bound.id)

/-- Where the solver has a root and the body is sloped there, the slope of the root evaluates as
implicit differentiation has it, to a quotient of rates of the body. -/
theorem SlopeOfRoot.evaluate_run (h : SlopeOfRoot MeansRate v id q d) (hq : PlainSolver q)
    (hv : v ≠ q.bound.id) (hknown : (node id (.solver q)).KnownTo L) (hs : s.Reachable)
    (hroot : ((node id (.solver q)).evaluate.run s).1 = real a)
    (hbounds : ∀ c ∈ (Shape.solver q).passParts, c.EvaluatesThroughout s)
    (hsloped : q.body.Sloped (Valuation.set s.read q.bound.id (real a))) :
    (d.evaluate.run s).1 =
      real (-(rate (Valuation.set s.read q.bound.id (real a)) (along v) q.body /
        rate (Valuation.set s.read q.bound.id (real a)) (along q.bound.id) q.body)) := by
  have hvalue : value s.read (node id (.solver q)) = real a := by
    rw [← evaluate_scoped hq.scoped hknown.listed hs fun _ _ => rfl, hroot]
  have hdefined : (node id (.solver q)).Defined s.read := by
    refine .node (by simp [hvalue]) fun c hc => ?_
    have hpart : c ∈ (Shape.solver q).passParts := mem_passParts_of_mem_neededInPass hc
    exact (hbounds c hpart).defined hs (hq.bounds c hpart).1
      (hknown.ref (Shape.mem_refs_of_mem_passParts hpart))
  have hsolverFree : ∀ {L : Ledger PartialReal} {y : NodeId} {e : Formula PartialReal},
      IsDerivative MeansRate y q.body L e → e.Member SolverFree L := fun he =>
    ⟨he.known, (he.elementary hq.body).solverFree⟩
  cases h with
  | bound hbound => exact absurd hbound.symm hv
  | level _ hlevel hzero =>
      have hrate : rate (Valuation.set s.read q.bound.id (real a)) (along v) q.body = 0 :=
        (hlevel _ hsloped).eq_zero hzero
      have hzeroFree : (zero : Formula PartialReal).SolverFree :=
        .node (by simp) (by simp [Shape.children])
      rw [hrate, zero_div, neg_zero, Formula.evaluate_run hzeroFree (zero_known L).listed hs]
      simp [zero, value]
  | slope he _ hd hd' =>
      obtain ⟨_, _, _, hmember, hmeans⟩ := rootSlope_builds_quotient he hq.scoped (fun _ h => h)
        (hsolverFree hd) (hsolverFree hd')
      rw [← hvalue] at hsloped ⊢
      rw [evaluate_scoped hmember.holds hmember.known.listed hs fun _ _ => rfl]
      exact (hmeans _ _ _ hdefined (hd.handedOn _ hsloped) (hd'.handedOn _ hsloped)).value_eq

end

/-- **Implicit differentiation.**  Let a plain solver be at hand, and let derivatives be taken,
whatever else is done.

Its derivative by its own variable is zero.  No derivative of it is exposed to its variable.  In
exact arithmetic, where the solver has a root and nothing in its bounds is undefined, and nothing
in the body where the variable holds the root, the derivatives of the body have values there, and
the derivative of the solver by another variable evaluates to the negated quotient of these
values, a quotient by zero being zero. -/
theorem solver_derivative :
    (∀ (α : Type) [Scalar α] (w : Workbench α), w.Attainable →
      ∀ (id : NodeId) (q : Solver α (Formula α)), node id (.solver q) ∈ w.atHand →
        PlainSolver q →
        w.derivative (node id (.solver q)) q.bound.id = zero ∧
          ∀ v, ¬ (w.derivative (node id (.solver q)) v).Exposed q.bound.id) ∧
    ∀ (w : Workbench PartialReal), w.Attainable →
      ∀ (id : NodeId) (q : Solver PartialReal (Formula PartialReal)),
        node id (.solver q) ∈ w.atHand → PlainSolver q →
        ∀ (v : NodeId), v ≠ q.bound.id → ∀ (s : Store PartialReal), s.Reachable →
          ∀ (root : ℝ), ((node id (.solver q)).evaluate.run s).1 = real root →
            (∀ c ∈ (Shape.solver q).passParts, c.EvaluatesThroughout s) →
            q.body.EvaluatesThroughout (s.write q.bound.id (real root)) →
            ∃ a b : ℝ,
              (∀ w' : Workbench PartialReal, w'.Attainable → q.body ∈ w'.atHand →
                ((w'.derivative q.body v).evaluate.run (s.write q.bound.id (real root))).1 =
                    real a ∧
                  ((w'.derivative q.body q.bound.id).evaluate.run
                    (s.write q.bound.id (real root))).1 = real b) ∧
              ((w.derivative (node id (.solver q)) v).evaluate.run s).1 = real (-(a / b)) := by
  refine ⟨?_, ?_⟩
  · intro α _ w hw id q hroot hq
    have hslope : ∀ v, SlopeOfRoot (fun _ _ _ => True) v id q
        (w.derivative (node id (.solver q)) v) := derivative_slopeOfRoot trivial_handedOn hw hroot
    exact ⟨(hslope _).eq_zero rfl, fun v => (hslope v).not_exposed hq.not_exposed⟩
  · intro w hw id q hatHand hq v hv s hs root hroot hbounds hbody
    have ht : (s.write q.bound.id (real root)).Reachable := hs.write _ _
    obtain ⟨L, hL⟩ := hw.accounted trivial_handedOn
    have hknown := hL.known _ hatHand
    have hsolverless := hq.body.solverless
    have hsloped := (slopesThroughout_of_elementary hbody hq.body).sloped ht
      (hknown.ref (Shape.mem_refs_of_mem_trialParts List.mem_cons_self)) hsolverless
    refine ⟨rate (s.write q.bound.id (real root)).read (along v) q.body,
      rate (s.write q.bound.id (real root)).read (along q.bound.id) q.body, ?_, ?_⟩
    · intro w' hw' hatHand'
      exact ⟨derivative_run hw' hatHand' hsolverless ht hsloped v,
        derivative_run hw' hatHand' hsolverless ht hsloped q.bound.id⟩
    · rw [Store.read_write] at hsloped ⊢
      exact (derivative_slopeOfRoot rate_calculus.handedOn hw hatHand v).evaluate_run hq hv hknown
        hs hroot hbounds hsloped

/-- The root of `x - t * t` for `t`, found by one secant between zero and two, is a half where `x`
is one.  There the body has the slopes one and minus one, so the root has the slope one. -/
theorem solver_derivative_of_square :
    let x : Formula PartialReal := node 2 (.var "x")
    let t : Formula PartialReal := node 3 (.var "t")
    let square : Formula PartialReal := node 4 (.unary .square t)
    let body : Formula PartialReal := node 5 (.binary .subtract x square)
    let two : Formula PartialReal := node 6 (.const (real 2))
    let q : Solver PartialReal (Formula PartialReal) :=
      { body, bound := ⟨3, "t"⟩, low := zero, high := two, precision := two, guard := none }
    let root : Formula PartialReal := node 7 (.solver q)
    let w := (((((Workbench.start.perform (.node x.shape)).perform (.node t.shape)).perform
      (.node square.shape)).perform (.node body.shape)).perform (.node two.shape)).perform
      (.node root.shape)
    let s := Store.empty.write 2 (real 1)
    (root.evaluate.run s).1 = real (1 / 2) ∧ w.derivative root 3 = zero ∧
      ¬ (w.derivative root 2).Exposed 3 ∧ ((w.derivative root 2).evaluate.run s).1 = real 1 := by
  intro x t square body two q root w s
  have hw : w.Attainable := by
    refine .perform (.perform (.perform (.perform (.perform (.perform .start ?_) ?_) ?_) ?_) ?_) ?_
    · simp [Workbench.Admits, x, Shape.refs, Shape.children]
    · simp [Workbench.Admits, t, Shape.refs, Shape.children]
    · show ∀ r ∈ [t], r ∈ [t, x, zero, one]
      simp
    · show ∀ r ∈ [x, square], r ∈ [square, t, x, zero, one]
      simp
    · simp [Workbench.Admits, two, Shape.refs, Shape.children]
    · show ∀ r ∈ [t, body, zero, two, two], r ∈ [two, body, square, t, x, zero, one]
      simp
  have hroot : root ∈ w.atHand := List.mem_cons_self
  have hbodyAtHand : body ∈ w.atHand := .tail _ (.tail _ (.head _))
  obtain ⟨L, hL⟩ := hw.accounted trivial_handedOn
  have hknown : root.KnownTo L := hL.known root hroot
  have hbodyKnown : body.KnownTo L := hL.known body hbodyAtHand
  have helementaryX : x.Elementary := elementary_formula ⟨2, "x"⟩
  have helementaryT : t.Elementary := elementary_formula ⟨3, "t"⟩
  have helementarySquare : square.Elementary :=
    .node trivial (by simpa [Shape.children] using helementaryT)
  have helementary : body.Elementary :=
    .node trivial (by simpa [Shape.children] using ⟨helementaryX, helementarySquare⟩)
  have hq : PlainSolver q := by
    refine ⟨rfl, helementary, ?_⟩
    simp [q, zero, two, everywhere_node, free_node, Shape.passParts, Shape.children]
  have hs : s.Reachable := .write .empty 2 _
  have hread : s.read 2 = real 1 := by simp [s, Store.read_write, Valuation.set]
  have hbodyAt : ∀ v, q.bodyAt s.read (real v) = real (1 - v * v) := by
    intro v
    simp [q, Solver.bodyAt, body, square, x, t, value, BinaryOp.apply, UnaryOp.apply,
      Valuation.set, hread]
  have hvalue : value s.read root =
      real (0 + (2 - 0) * (1 - 0 * 0) / ((1 - 0 * 0) - (1 - 2 * 2))) :=
    value_solver_of_bracket rfl (hbodyAt 0) (hbodyAt 2) (by norm_num) (by norm_num) (by norm_num) 7
      (value_of_asConstant rfl _) (value_of_asConstant rfl _) (value_of_asConstant rfl _)
      (by norm_num)
  norm_num at hvalue
  have hevaluate : (root.evaluate.run s).1 = real (1 / 2) :=
    (evaluate_scoped hq.scoped hknown.listed hs fun _ _ => rfl).trans hvalue
  have hboundsDefined : ∀ c ∈ (Shape.solver q).passParts, c.EvaluatesThroughout s := by
    intro c hc
    have hc' : c.KnownTo L := hknown.child (Shape.mem_children_of_mem_passParts hc)
    refine evaluatesThroughout_of_value hs (hq.bounds c hc).1 hc' ?_
    have hcases : c = zero ∨ c = two := by simpa [q, Shape.passParts] using hc
    obtain rfl | rfl := hcases <;> simp [zero, two, within_node, Shape.children, value]
  have hs' : (s.write 3 (real (1 / 2))).Reachable := hs.write _ _
  have hreadX : (s.write 3 (real (1 / 2))).read 2 = real 1 := by
    simp [s, Store.read_write, Valuation.set]
  have hreadT : (s.write 3 (real (1 / 2))).read 3 = real (1 / 2) := by
    simp [s, Store.read_write, Valuation.set]
  have hthroughout : body.EvaluatesThroughout (s.write 3 (real (1 / 2))) := by
    refine evaluatesThroughout_of_value hs' helementary.solverFree hbodyKnown ?_
    simp [-one_div, body, square, x, t, within_node, Shape.children, value, hreadX, hreadT,
      BinaryOp.apply, UnaryOp.apply]
  have hsloped := (slopesThroughout_of_elementary hthroughout helementary).sloped hs' hbodyKnown
    helementary.solverless
  obtain ⟨hfirst, hsecond⟩ := solver_derivative
  obtain ⟨hown, hexposed⟩ := hfirst PartialReal w hw 7 q hroot hq
  obtain ⟨a, b, hslopes, hslope⟩ := hsecond w hw 7 q hroot hq 2 (by decide) s hs (1 / 2) hevaluate
    hboundsDefined hthroughout
  obtain ⟨ha, hb⟩ := hslopes w hw hbodyAtHand
  rw [derivative_run hw hbodyAtHand helementary.solverless hs' hsloped] at ha hb
  have ha' : a = 1 := by
    rw [← real.inj ha]
    simp [rate, along, body, square, x, t, BinaryOp.slope, UnaryOp.slope]
  have hb' : b = -1 := by
    rw [← real.inj hb]
    simp [-one_div, rate, along, body, square, x, t, BinaryOp.slope, UnaryOp.slope, realValue,
      value, hreadT, q]
    norm_num [toReal]
  refine ⟨hevaluate, hown, hexposed 2, ?_⟩
  rw [hslope, ha', hb']
  norm_num

end Formula

end FormulaGraph
