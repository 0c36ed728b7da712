import FormulaGraph.Proofs.Replacing
import FormulaGraph.Proofs.SimplifiedValue
import FormulaGraph.Proofs.Trials

/-!
# What substitution means

Formulas are put in the place of variables all at once, and every node above them is
rebuilt by the rules of construction.  The result means what the formula means where the
variables have the values of what was put for them.

Under a solver two things can go wrong.  A formula put into the body that mentions the
bound variable is read at the trial values, for nothing renames a bound variable; and a
solver inside a formula that was put somewhere writes its own variable for all to see.
A formula **receives** what is put into it (`Receives`) when neither happens: what is put
is scoped in the variables visible from outside, and binds none of the variables bound
on the way to its place.  Then the result is scoped, and means what it should
(`substitutes`).
-/

namespace FormulaGraph

/-- The formulas to be put in the place of variables. -/
abbrev Substitution (α : Type) := NodeId → Option (Formula α)

namespace Substitution

variable {α : Type}

/-- The substitution that leaves `v` alone as well. -/
def except (θ : Substitution α) (v : NodeId) : Substitution α :=
  fun w => if w = v then none else θ w

/-- Below a binder, the bound variable is not replaced. -/
theorem except_eq_some {θ : Substitution α} {v w : NodeId} {r : Formula α} :
    θ.except v w = some r ↔ w ≠ v ∧ θ w = some r := by
  rw [except]
  split
  · next h => simp [h]
  · next h => simp [h]

/-- For each variable of the list, the formula first paired with it. -/
def ofPairs (pairs : List (NodeId × Formula α)) : Substitution α :=
  fun v => (pairs.find? fun p => p.1 == v).map (·.2)

/-- What is put in the place of a variable is paired with it. -/
theorem mem_of_ofPairs {pairs : List (NodeId × Formula α)} {v : NodeId} {r : Formula α}
    (h : ofPairs pairs v = some r) : (v, r) ∈ pairs := by
  obtain ⟨⟨w, d⟩, hp, rfl⟩ := Option.map_eq_some_iff.mp h
  have hw : w = v := by simpa using List.find?_some hp
  exact hw ▸ List.mem_of_find?_eq_some hp

/-- A single pair replaces its variable. -/
theorem ofPairs_eq_some {v w : NodeId} {r d : Formula α} :
    ofPairs [(v, r)] w = some d ↔ w = v ∧ d = r := by
  by_cases h : w = v
  · simp [ofPairs, h, eq_comm]
  · simp [ofPairs, h, Ne.symm h]

/-- A single pair replaces no other variable. -/
theorem ofPairs_eq_none {v w : NodeId} {r : Formula α} : ofPairs [(v, r)] w = none ↔ w ≠ v := by
  by_cases h : w = v
  · simp [ofPairs, h]
  · simp [ofPairs, h, Ne.symm h]

/-- The replacement a pass is run with. -/
def replacement (θ : Substitution α) : Replacement α := fun v => (θ v.id).map pure

/-- A substitution and its replacement leave a bound variable alone alike. -/
theorem replacement_except (θ : Substitution α) (v : NodeId) :
    (θ.except v).replacement = θ.replacement.except v := by
  funext w
  rw [replacement, except, Replacement.except]
  split <;> rfl

/-- A substitution by pairs is run with the replacement made of the pairs. -/
theorem replacement_ofPairs (pairs : List (NodeId × Formula α)) :
    (ofPairs pairs).replacement = Replacement.ofPairs pairs := by
  funext v
  rw [replacement, ofPairs, Replacement.ofPairs, Option.map_map]
  rfl

end Substitution

/-- A place in a formula under substitution: the variables bound on the way to it, and
what is put there. -/
structure Site (α : Type) where
  bound : Set NodeId
  put : Substitution α

/-- The body of a solver for `v`. -/
def Site.under {α : Type} (k : Site α) (v : NodeId) : Site α := ⟨insert v k.bound, k.put.except v⟩

namespace Formula

/-- An operation is in scope exactly if its operands are. -/
theorem scoped_admitsOperations {α : Type} (S : Set NodeId) :
    AdmitsOperations (Scoped (α := α) S) :=
  admitsOperations_of_iff scoped_node

section Receives

variable {α : Type} {S : Set NodeId} {k : Site α}

/-- At the site, the formula can take what is put into it, so that the result reads of
the variables not bound on the way only those of `S`. -/
inductive Receives (S : Set NodeId) : Site α → Formula α → Prop
  | node {k : Site α} {id : NodeId} {shape : Shape α (Formula α)}
      (kept : ∀ name, shape = .var name → k.put id = none → id ∈ S ∪ k.bound)
      (put : ∀ name r, shape = .var name → k.put id = some r →
        r.Scoped S ∧ ∀ v ∈ k.bound, ¬ r.Binds v)
      (bound : ∀ s, shape = .solver s → s.bound.id ∉ S ∪ k.bound)
      (pass : ∀ c ∈ shape.passParts, Receives S k c)
      (body : ∀ s, shape = .solver s → Receives S (k.under s.bound.id) s.body)
      (guard : ∀ s, shape = .solver s → ∀ c ∈ s.guard.toList.flatMap (·.2.refs),
        c.Scoped (S ∪ (k.under s.bound.id).bound) ∧
          ∀ v, c.Free v → (k.under s.bound.id).put v = none) :
      Receives S k (node id shape)

/-- What has to be so at a node: a variable is visible or takes what is put there, and a solver
binds a variable of its own and receives in its body what its site leaves. -/
theorem receives_node {id : NodeId} {shape : Shape α (Formula α)} :
    (node id shape).Receives S k ↔
      (∀ name, shape = .var name → (k.put id = none → id ∈ S ∪ k.bound) ∧
        ∀ r, k.put id = some r → r.Scoped S ∧ ∀ v ∈ k.bound, ¬ r.Binds v) ∧
      (∀ c ∈ shape.passParts, c.Receives S k) ∧
      ∀ s, shape = .solver s → s.bound.id ∉ S ∪ k.bound ∧
        s.body.Receives S (k.under s.bound.id) ∧
        ∀ c ∈ s.guard.toList.flatMap (·.2.refs),
          c.Scoped (S ∪ (k.under s.bound.id).bound) ∧
            ∀ v, c.Free v → (k.under s.bound.id).put v = none := by
  refine ⟨fun h => ?_, fun ⟨hvar, hpass, hsolver⟩ => ?_⟩
  · cases h with
    | node kept put bound pass body guard =>
        exact ⟨fun name hname => ⟨kept name hname, fun r => put name r hname⟩, pass,
          fun s hs => ⟨bound s hs, body s hs, guard s hs⟩⟩
  · exact .node (fun name hname => (hvar name hname).1) (fun name r hname => (hvar name hname).2 r)
      (fun s hs => (hsolver s hs).1) hpass (fun s hs => (hsolver s hs).2.1)
      fun s hs => (hsolver s hs).2.2

/-- A variable that is kept is in scope, or bound on the way. -/
theorem Receives.kept {e : Formula α} {name : String} (h : e.Receives S k)
    (he : e.shape = .var name) (hput : k.put e.id = none) : e.id ∈ S ∪ k.bound := by
  cases h with
  | node kept _ _ _ _ _ => exact kept name he hput

/-- What is put for a variable is in scope, and binds nothing bound on the way. -/
theorem Receives.put {e r : Formula α} {name : String} (h : e.Receives S k)
    (he : e.shape = .var name) (hput : k.put e.id = some r) :
    r.Scoped S ∧ ∀ v ∈ k.bound, ¬ r.Binds v := by
  cases h with
  | node _ put _ _ _ _ => exact put name r he hput

/-- A bound variable is neither in scope nor bound twice. -/
theorem Receives.bound {e : Formula α} {s : Solver α (Formula α)} (h : e.Receives S k)
    (he : e.shape = .solver s) : s.bound.id ∉ S ∪ k.bound := by
  cases h with
  | node _ _ bound _ _ _ => exact bound s he

/-- The parts of a pass receive what the formula receives. -/
theorem Receives.pass {e c : Formula α} (h : e.Receives S k) (hc : c ∈ e.shape.passParts) :
    c.Receives S k := by
  cases h with
  | node _ _ _ pass _ _ => exact pass c hc

/-- The body of a solver receives, below the binder, what the solver receives. -/
theorem Receives.body {e : Formula α} {s : Solver α (Formula α)} (h : e.Receives S k)
    (he : e.shape = .solver s) : s.body.Receives S (k.under s.bound.id) := by
  cases h with
  | node _ _ _ _ body _ => exact body s he

/-- What a guard refers to is in scope below the binder, and nothing is put into it. -/
theorem Receives.guard {e c : Formula α} {s : Solver α (Formula α)} (h : e.Receives S k)
    (he : e.shape = .solver s) (hc : c ∈ s.guard.toList.flatMap (·.2.refs)) :
    c.Scoped (S ∪ (k.under s.bound.id).bound) ∧
      ∀ v, c.Free v → (k.under s.bound.id).put v = none := by
  cases h with
  | node _ _ _ _ _ guard => exact guard s he c hc

/-- What is put in the place of a free variable is scoped. -/
theorem Receives.scoped_of_free {e r : Formula α} {v : NodeId} (h : e.Receives S k)
    (hv : e.Free v) (hput : k.put v = some r) : r.Scoped S := by
  induction hv generalizing k with
  | var name => exact (h.put rfl hput).1
  | pass hc _ ih => exact ih (h.pass hc) hput
  | trial hne hc hv ih =>
      have hunder : (k.under _).put v = some r := (if_neg hne).trans hput
      rcases List.mem_cons.mp hc with rfl | hc
      · exact ih (h.body rfl) hunder
      · rw [(h.guard rfl hc).2 v hv] at hunder
        cases hunder

/-- A formula without solvers receives what is put in the place of its variables if each
place can take it. -/
theorem receives_of_solverFree {e : Formula α} (hfree : e.SolverFree)
    (hkept : ∀ v, e.Free v → k.put v = none → v ∈ S ∪ k.bound)
    (hput : ∀ v r, e.Free v → k.put v = some r → r.Scoped S ∧ ∀ v ∈ k.bound, ¬ r.Binds v) :
    e.Receives S k := by
  induction hfree with
  | @node id shape notSolver _ ih =>
      refine .node ?_ ?_ (fun s hs => absurd hs (notSolver s)) ?_
        (fun s hs => absurd hs (notSolver s)) fun s hs => absurd hs (notSolver s)
      · rintro name rfl
        exact hkept id (.var name)
      · rintro name r rfl
        exact hput id r (.var name)
      · intro c hc
        refine ih c (Shape.passParts_eq_children notSolver ▸ hc) ?_ ?_
        · exact fun v hv => hkept v (.pass hc hv)
        · exact fun v r hv => hput v r (.pass hc hv)

end Receives

/-! ## What the result means -/

open PartialReal

variable {S : Set NodeId} {k : Site PartialReal} {ρ σ : Valuation PartialReal}
  {L : Ledger PartialReal}

/-- At `ρ`, the free variables of the formula have the values they have at `σ`, or what is
put in their place has, and is defined. -/
structure Supplies (k : Site PartialReal) (e : Formula PartialReal)
    (ρ σ : Valuation PartialReal) : Prop where
  kept : ∀ v, e.Free v → k.put v = none → σ v = ρ v
  put : ∀ v r, e.Free v → k.put v = some r → σ v = value ρ r ∧ r.Defined ρ

/-- The parts of a pass are supplied with what the formula is supplied with. -/
theorem Supplies.pass {e c : Formula PartialReal} (h : Supplies k e ρ σ)
    (hc : c ∈ e.shape.passParts) : Supplies k c ρ σ := by
  obtain ⟨id, shape⟩ := e
  exact ⟨fun v hv => h.kept v (.pass hc hv), fun v r hv => h.put v r (.pass hc hv)⟩

/-- In a trial both valuations change alike, and what is put does not notice. -/
theorem Supplies.trial {id : NodeId} {s : Solver PartialReal (Formula PartialReal)}
    (h : Supplies k (node id (.solver s)) ρ σ) {c : Formula PartialReal} (hc : c ∈ s.trialParts)
    (hput : ∀ v r, c.Free v → (k.under s.bound.id).put v = some r → ¬ r.Free s.bound.id)
    (x : PartialReal) :
    Supplies (k.under s.bound.id) c (ρ.set s.bound.id x) (σ.set s.bound.id x) := by
  have hset : ∀ {ρ : Valuation PartialReal} {v}, v ≠ s.bound.id → ρ.set s.bound.id x v = ρ v :=
    fun hne => if_neg hne
  refine ⟨?_, ?_⟩
  · intro v hv hkept
    by_cases hne : v = s.bound.id
    · rw [hne, Valuation.set, Valuation.set, if_pos rfl, if_pos rfl]
    · rw [hset hne, hset hne]
      exact h.kept v (.trial hne hc hv) ((if_neg hne).symm.trans hkept)
  · intro v r hv hr
    have hne : v ≠ s.bound.id := by
      rintro rfl
      have hnone : (k.under s.bound.id).put s.bound.id = none := if_pos rfl
      rw [hnone] at hr
      cases hr
    obtain ⟨hvalue, hdefined⟩ := h.put v r (.trial hne hc hv) ((if_neg hne).symm.trans hr)
    have hagree : ∀ w, r.Free w → ρ w = ρ.set s.bound.id x w := fun w hw =>
      (hset fun heq => hput v r hv hr (heq ▸ hw)).symm
    exact ⟨by rw [hset hne, hvalue, value_congr hagree], hdefined.congr hagree⟩

/-- A solver over other bounds and another body, with a guard that admits the same values,
means what it meant if the bounds do, and the body at the trial values. -/
theorem solver_means (id id' : NodeId) {s : Solver PartialReal (Formula PartialReal)}
    (body : Formula PartialReal) {low high precision : Formula PartialReal}
    (hpass : ∀ c ∈ (Shape.solver s).passParts, value σ c ≠ undefined)
    (hlow : low.Means ρ (value σ s.low)) (hhigh : high.Means ρ (value σ s.high))
    (hprecision : precision.Means ρ (value σ s.precision))
    (hguard : ∀ x, guardHolds (ρ.set s.bound.id x) x s.guard =
      guardHolds (σ.set s.bound.id x) x s.guard)
    (hbody : ∀ x ∈ s.trials σ (value σ s.low) (value σ s.high) (value σ s.precision),
      value (ρ.set s.bound.id x) body = value (σ.set s.bound.id x) s.body) :
    (node id' (.solver { s with body, low, high, precision })).Means ρ
      (value σ (node id (.solver s))) := by
  have hvalue : value ρ (node id' (.solver { s with body, low, high, precision })) =
      value σ (node id (.solver s)) := by
    rw [value_solver, value_solver, hlow.value_eq, hhigh.value_eq, hprecision.value_eq]
    exact Solver.rootBetween_congr_of_trials hguard hbody
  refine ⟨hvalue, fun h => .node (by rwa [hvalue]) ?_⟩
  simpa [neededInPass] using ⟨hlow.defined (hpass s.low (by simp [Shape.passParts])),
    hhigh.defined (hpass s.high (by simp [Shape.passParts])),
    hprecision.defined (hpass s.precision (by simp [Shape.passParts]))⟩

/-- The result of substitution at a site: known and scoped, and it means what the formula
means where what is put supplies its variables. -/
structure SubstitutesTo (S : Set NodeId) (k : Site PartialReal) (e : Formula PartialReal)
    (L : Ledger PartialReal) (d : Formula PartialReal) : Prop where
  known : d.KnownTo L
  inScope : d.Scoped (S ∪ k.bound)
  means : ∀ ρ σ, Supplies k e ρ σ → e.DefinedInTrials σ → d.Means ρ (value σ e)

/-- What a formula was substituted to stays so while more is built. -/
theorem substitutesTo_lasting (e : Formula PartialReal) : Lasting (SubstitutesTo S k e) :=
  fun _ _ _ hL h => ⟨h.known.mono hL, h.inScope, h.means⟩

/-- What a site asks of a formula to substitute into, and of what is put there. -/
structure Substitutable (S : Set NodeId) (k : Site PartialReal) (L : Ledger PartialReal)
    (e : Formula PartialReal) : Prop where
  known : e.KnownTo L
  putKnown : ∀ v r, k.put v = some r → r.KnownTo L
  receives : e.Receives S k

/-- A formula that is put somewhere is the result there. -/
theorem substitutesTo_put {id : NodeId} {name : String} {r : Formula PartialReal}
    (h : Substitutable S k L (node id (.var name))) (hr : k.put id = some r) :
    SubstitutesTo S k (node id (.var name)) L r := by
  obtain ⟨hscoped, hbinds⟩ := h.receives.put rfl hr
  refine ⟨h.putKnown id r hr, hscoped.mono Set.subset_union_left ?_, ?_⟩
  · rintro v (hv | hv) hb
    · exact hscoped.not_mem_of_binds hb hv
    · exact hbinds v hv hb
  · intro ρ σ hsupplies _
    obtain ⟨hvalue, hdefined⟩ := hsupplies.put id r (.var name) hr
    rw [value, hvalue]
    exact hdefined.means

/-- A node rebuilt over the results for its children is the result for it. -/
theorem substitutesTo_rebuilt {e : Formula PartialReal}
    {shape : Shape PartialReal (Formula PartialReal)} {ds : List (Formula PartialReal)}
    (h : Substitutable S k L e) (hfree : ∀ s, e.shape ≠ .solver s)
    (hds : List.Forall₂ (fun c d => SubstitutesTo S k c L d) e.children ds)
    (hshape : e.shape.withChildren? ds = some shape) :
    Builds (replaceOver e ds) L (SubstitutesTo S k e) := by
  obtain ⟨id, eshape⟩ := e
  have hvar : ∀ name, shape ≠ .var name := not_var_of_withChildren hshape
  have hmember : ∀ d ∈ ds, d.Member (Scoped (S ∪ k.bound)) L :=
    forall_of_forall₂ hds fun _ _ h => ⟨h.known, h.inScope⟩
  have hscoped : ∀ id', (node id' shape).Scoped (S ∪ k.bound) := by
    intro id'
    rw [scoped_node hvar (not_solver_of_withChildren hfree hshape),
      (children_of_withChildren hshape).1]
    exact fun d hd => (hmember d hd).holds
  have hmeans : ∀ {ρ σ}, Supplies k (node id eshape) ρ σ →
      (node id eshape).DefinedInTrials σ → (∀ c ∈ neededInPass ρ shape, c.Defined ρ) ∧
        value ρ (node 0 shape) = value σ (node id eshape) := by
    intro ρ σ hsupplies hdefined
    refine (withChildren_means id hfree (hds.imp fun c d hd hc => ?_) hshape).2
    have hcd := hd.means ρ σ (hsupplies.pass (mem_passParts_of_mem_neededInPass hc))
      (hdefined.needed hc)
    exact ⟨hcd.defined (hdefined.needed hc).here, hcd.value_eq⟩
  refine (replaceOver_satisfies (scoped_admitsOperations _) h.known hmember hshape
    (P := fun d => ∀ ρ σ, Supplies k (node id eshape) ρ σ → (node id eshape).DefinedInTrials σ →
      d.Means ρ (value σ (node id eshape)))
    (fun id' => ⟨hscoped id', ?_⟩) ?_).mono fun _ _ _ h => ⟨h.1.known, h.1.holds, h.2⟩
  · intro ρ σ hsupplies hdefined
    obtain ⟨hneeded, hvalue⟩ := hmeans hsupplies hdefined
    exact hvalue ▸ node_means hvar hneeded
  · intro n ρ σ hsupplies hdefined
    obtain ⟨hneeded, hvalue⟩ := hmeans hsupplies hdefined
    exact hvalue ▸ ofShape_means hvar hneeded n

/-- A solver over the results for its parts is the result for it. -/
theorem substitutesTo_solver {id id' : NodeId} {s : Solver PartialReal (Formula PartialReal)}
    {body low high precision : Formula PartialReal}
    (h : (node id (.solver s)).Receives S k)
    (hbody : SubstitutesTo S (k.under s.bound.id) s.body L body)
    (hlow : SubstitutesTo S k s.low L low) (hhigh : SubstitutesTo S k s.high L high)
    (hprecision : SubstitutesTo S k s.precision L precision)
    (hknown : (node id' (.solver { s with body, low, high, precision })).KnownTo L) :
    SubstitutesTo S k (node id (.solver s)) L
      (node id' (.solver { s with body, low, high, precision })) := by
  have hbound : s.bound.id ∉ S ∪ k.bound := h.bound rfl
  refine ⟨hknown, .node (by simp) ?_ ?_ ?_, ?_⟩
  · rintro _ ⟨⟩
    exact hbound
  · simpa [Shape.passParts] using ⟨hlow.inScope, hhigh.inScope, hprecision.inScope⟩
  · rintro _ ⟨⟩ c hc
    rw [← Set.union_insert]
    rcases List.mem_cons.mp hc with rfl | hc
    · exact hbody.inScope
    · exact (h.guard rfl hc).1
  · intro ρ σ hsupplies hdefined
    have hpart : ∀ {c d}, c ∈ (Shape.solver s).passParts → SubstitutesTo S k c L d →
        d.Means ρ (value σ c) := fun hc hd =>
      hd.means ρ σ (hsupplies.pass hc) (hdefined.needed hc)
    refine solver_means id id' body (fun c hc => (hdefined.needed hc).here)
      (hpart (by simp [Shape.passParts]) hlow) (hpart (by simp [Shape.passParts]) hhigh)
      (hpart (by simp [Shape.passParts]) hprecision) ?_ ?_
    · intro x
      refine guardHolds_congr fun c hc => value_congr fun v hv => ?_
      have hnone := (h.guard rfl hc).2
      have htrial := hsupplies.trial (List.mem_cons_of_mem _ hc) (fun v r hv hr => by
        rw [hnone v hv] at hr
        cases hr) x
      exact (htrial.kept v hv (hnone v hv)).symm
    · intro x hx
      have hput : ∀ v r, s.body.Free v → (k.under s.bound.id).put v = some r →
          ¬ r.Free s.bound.id := fun v r hv hr hfree =>
        hbound (.inl (((h.body rfl).scoped_of_free hv hr).mem_of_free hfree))
      exact (hbody.means _ _ (hsupplies.trial List.mem_cons_self hput x)
        (hdefined.trial rfl hx)).value_eq

/-- **Substitution is sound.**  Into formulas that receive what is put into them, the pass
substitutes as it should. -/
theorem substitutes (S : Set NodeId) :
    Replaces (fun k : Site PartialReal => k.put.replacement) Site.under (Substitutable S)
      (SubstitutesTo S) where
  except k v := Substitution.replacement_except k.put v
  lasting _ _ _ _ hL h :=
    ⟨h.known.mono hL, fun v r hr => (h.putKnown v r hr).mono hL, h.receives⟩
  imageLasting _ := substitutesTo_lasting
  known h := h.known
  part h hc := ⟨h.known.ref (Shape.mem_refs_of_mem_passParts hc), h.putKnown, h.receives.pass hc⟩
  body {k L id s} h := by
    refine ⟨h.known.ref (Shape.mem_refs_of_mem_trialParts List.mem_cons_self), ?_,
      h.receives.body rfl⟩
    intro v r hr
    exact h.putKnown v r (Substitution.except_eq_some.mp hr).2
  const {k L id v} h := by
    refine ⟨h.known, (scoped_admitsOperations _).const id v, fun ρ σ _ _ => ?_⟩
    rw [value]
    exact const_means id v
  kept {k L id name} h hkept := by
    have hnone : k.put id = none := Option.map_eq_none_iff.mp hkept
    refine ⟨h.known, .node ?_ (by simp) (by simp [Shape.passParts, Shape.children]) (by simp), ?_⟩
    · rintro _ ⟨⟩
      exact h.receives.kept rfl hnone
    · intro ρ σ hsupplies hdefined
      have hkeeps : σ id = ρ id := hsupplies.kept id (.var name) hnone
      have hhere : σ id ≠ undefined := by
        have h := hdefined.here
        rwa [value] at h
      rw [hkeeps] at hhere
      rw [value, hkeeps]
      exact ⟨by rw [value], fun _ => defined_var hhere⟩
  put {k L id name} h x hx := by
    obtain ⟨r, hr, rfl⟩ := Option.map_eq_some_iff.mp hx
    exact .pure (substitutesTo_put h hr)
  rebuilt h hfree hds hshape := substitutesTo_rebuilt h hfree hds hshape
  solver {k L id s body low high precision} h hbody hlow hhigh hprecision := by
    have hds : ∀ d ∈ [body, low, high, precision], d.KnownTo L := by
      simpa using ⟨hbody.known, hlow.known, hhigh.known, hprecision.known⟩
    refine replaceOver_solver_builds h.known hds fun L' id' hL hknown => ?_
    exact substitutesTo_solver h.receives (substitutesTo_lasting _ hL hbody)
      (substitutesTo_lasting _ hL hlow) (substitutesTo_lasting _ hL hhigh)
      (substitutesTo_lasting _ hL hprecision) hknown

end Formula

end FormulaGraph
