import FormulaGraph.Formula.Value
import FormulaGraph.Proofs.Definedness
import Mathlib.Data.Set.Insert

/-!
# The scope of bound variables

A solver consults its bounds and its precision in the pass it is evaluated in, and
its body and its guard anew in every trial.  Its variable is **bound** in what the
trials consult, and there only: an occurrence anywhere else is **free**, and the
value of a formula depends on the variables that are free in it (`value_congr`).

A formula is **scoped** in a set of variables when it reads no others, save those
it binds, and binds none of them.  That is how an evaluation has to meet it: the
variables of the set hold what they should, whatever the others hold.  A formula
whose bound variables occur only where they are bound, and are bound once on every
way down, is scoped in the variables it does not bind (`LexicallyScoped.scoped`).
-/

namespace FormulaGraph

namespace Formula

variable {α : Type}

/-! ## Free and bound variables -/

/-- The variable occurs in the formula outside of what binds it. -/
inductive Free (v : NodeId) : Formula α → Prop
  | var (name : String) : Free v (node v (.var name))
  | pass {id : NodeId} {shape : Shape α (Formula α)} {c : Formula α}
      (hc : c ∈ shape.passParts) (hv : Free v c) : Free v (node id shape)
  | trial {id : NodeId} {s : Solver α (Formula α)} {c : Formula α} (hne : v ≠ s.bound.id)
      (hc : c ∈ s.trialParts) (hv : Free v c) : Free v (node id (.solver s))

/-- `d.Consulted e`: evaluating `e` may lead to evaluating `d`, in its own pass or in
trials. -/
inductive Consulted : Formula α → Formula α → Prop
  | refl (e : Formula α) : Consulted e e
  | part {d c e : Formula α} (hc : c ∈ e.shape.passParts ∨ c ∈ e.shape.trialParts)
      (hd : Consulted d c) : Consulted d e

/-- A solver consulted in the formula binds the variable. -/
def Binds (e : Formula α) (v : NodeId) : Prop :=
  ∃ id s, (node id (.solver s)).Consulted e ∧ s.bound.id = v

/-- What a part binds the formula binds. -/
theorem Binds.of_part {c e : Formula α} {v : NodeId}
    (hc : c ∈ e.shape.passParts ∨ c ∈ e.shape.trialParts) (hv : c.Binds v) : e.Binds v := by
  obtain ⟨id, s, hs, rfl⟩ := hv
  exact ⟨id, s, .part hc hs, rfl⟩

/-- A solver binds its variable. -/
theorem binds_bound (id : NodeId) (s : Solver α (Formula α)) :
    (node id (.solver s)).Binds s.bound.id :=
  ⟨id, s, .refl _, rfl⟩

/-- What is within a formula may be consulted, as every child is in the pass or in a trial. -/
theorem Within.consulted {d e : Formula α} (h : d.Within e) : d.Consulted e := by
  induction h with
  | refl => exact .refl _
  | @child c e hc _ ih =>
      refine .part ?_ ih
      obtain ⟨id, shape⟩ := e
      cases shape with
      | solver s =>
          rcases List.mem_cons.mp hc with rfl | hc
          · exact .inr List.mem_cons_self
          · exact .inl hc
      | _ => exact .inl hc

/-- Consulted are the node itself and whatever is consulted in its parts. -/
theorem consulted_node {d : Formula α} {id : NodeId} {shape : Shape α (Formula α)} :
    d.Consulted (node id shape) ↔ d = node id shape ∨
      ∃ c, (c ∈ shape.passParts ∨ c ∈ shape.trialParts) ∧ d.Consulted c := by
  refine ⟨?_, ?_⟩
  · intro h
    cases h with
    | refl => exact .inl rfl
    | part hc hd => exact .inr ⟨_, hc, hd⟩
  · rintro (rfl | ⟨c, hc, hd⟩)
    · exact .refl _
    · exact .part hc hd

/-- A node binds its own variable, if it is a solver, and those its parts bind. -/
theorem binds_node {v : NodeId} {id : NodeId} {shape : Shape α (Formula α)} :
    (node id shape).Binds v ↔ (∃ s, shape = .solver s ∧ s.bound.id = v) ∨
      ∃ c, (c ∈ shape.passParts ∨ c ∈ shape.trialParts) ∧ c.Binds v := by
  refine ⟨?_, ?_⟩
  · rintro ⟨id', s, hs, hv⟩
    rcases consulted_node.mp hs with heq | ⟨c, hc, hd⟩
    · exact .inl ⟨s, by cases heq; rfl, hv⟩
    · exact .inr ⟨c, hc, id', s, hd, hv⟩
  · rintro (⟨s, rfl, rfl⟩ | ⟨c, hc, hv⟩)
    · exact binds_bound id s
    · exact hv.of_part hc

/-- A variable is free in a node if it is the node, or is free in a part that does not bind it.
-/
theorem free_node {v : NodeId} {id : NodeId} {shape : Shape α (Formula α)} :
    (node id shape).Free v ↔ (id = v ∧ ∃ name, shape = .var name) ∨
      (∃ c ∈ shape.passParts, c.Free v) ∨
      ∃ s, shape = .solver s ∧ v ≠ s.bound.id ∧ ∃ c ∈ s.trialParts, c.Free v := by
  refine ⟨?_, ?_⟩
  · intro h
    cases h with
    | var name => exact .inl ⟨rfl, name, rfl⟩
    | pass hc hv => exact .inr (.inl ⟨_, hc, hv⟩)
    | trial hne hc hv => exact .inr (.inr ⟨_, rfl, hne, _, hc, hv⟩)
  · rintro (⟨rfl, name, rfl⟩ | ⟨c, hc, hv⟩ | ⟨s, rfl, hne, c, hc, hv⟩)
    · exact .var name
    · exact .pass hc hv
    · exact .trial hne hc hv

/-- Bound variables occur only where they are bound, and no solver is consulted in
the trials of another that binds the same variable. -/
structure LexicallyScoped (e : Formula α) : Prop where
  not_free : ∀ v, e.Binds v → ¬ e.Free v
  not_rebound : ∀ id s, (node id (.solver s)).Consulted e →
    ∀ c ∈ s.trialParts, ¬ c.Binds s.bound.id

/-! ## Scopes -/

/-- The formula reads no variables but those of the set and those it binds, and
binds none of the set. -/
inductive Scoped : Set NodeId → Formula α → Prop
  | node {S : Set NodeId} {id : NodeId} {shape : Shape α (Formula α)}
      (var : ∀ name, shape = .var name → id ∈ S)
      (bound : ∀ s, shape = .solver s → s.bound.id ∉ S)
      (pass : ∀ c ∈ shape.passParts, Scoped S c)
      (trial : ∀ s, shape = .solver s → ∀ c ∈ s.trialParts, Scoped (insert s.bound.id S) c) :
      Scoped S (node id shape)

variable {S : Set NodeId} {id : NodeId} {shape : Shape α (Formula α)}

/-- A variable in a scoped formula is in scope. -/
theorem Scoped.var {e : Formula α} {name : String} (he : e.Scoped S)
    (h : e.shape = .var name) : e.id ∈ S := by
  cases he with
  | node var _ _ _ => exact var name h

/-- A bound variable is not in scope outside. -/
theorem Scoped.bound {e : Formula α} {s : Solver α (Formula α)} (he : e.Scoped S)
    (h : e.shape = .solver s) : s.bound.id ∉ S := by
  cases he with
  | node _ bound _ _ => exact bound s h

/-- The parts of a pass are in the same scope. -/
theorem Scoped.pass {e c : Formula α} (he : e.Scoped S) (hc : c ∈ e.shape.passParts) :
    c.Scoped S := by
  cases he with
  | node _ _ pass _ => exact pass c hc

/-- The parts for the trials have the bound variable in scope too. -/
theorem Scoped.trial {e c : Formula α} {s : Solver α (Formula α)} (he : e.Scoped S)
    (h : e.shape = .solver s) (hc : c ∈ s.trialParts) : c.Scoped (insert s.bound.id S) := by
  cases he with
  | node _ _ _ trial => exact trial s h c hc

/-- The rules of scope, read both ways. -/
theorem scoped_iff : (node id shape).Scoped S ↔
    (∀ name, shape = .var name → id ∈ S) ∧ (∀ c ∈ shape.passParts, c.Scoped S) ∧
      ∀ s, shape = .solver s → s.bound.id ∉ S ∧
        ∀ c ∈ s.trialParts, c.Scoped (insert s.bound.id S) := by
  refine ⟨?_, ?_⟩
  · exact fun h => ⟨fun _ hname => h.var hname, fun _ hc => h.pass hc,
      fun _ hs => ⟨h.bound hs, fun _ hc => h.trial hs hc⟩⟩
  · rintro ⟨var, pass, solver⟩
    exact .node var (fun s hs => (solver s hs).1) pass fun s hs => (solver s hs).2

/-- Away from variables and solvers, a node is scoped as its children are. -/
theorem scoped_node (hvar : ∀ name, shape ≠ .var name) (hsolver : ∀ s, shape ≠ .solver s) :
    (node id shape).Scoped S ↔ ∀ c ∈ shape.children, c.Scoped S := by
  rw [scoped_iff, Shape.passParts_eq_children hsolver]
  exact ⟨fun h => h.2.1, fun h => ⟨fun name heq => absurd heq (hvar name), h,
    fun s heq => absurd heq (hsolver s)⟩⟩

/-- A scoped formula has no free variables but those of the set. -/
theorem Scoped.mem_of_free {e : Formula α} {v : NodeId} (he : e.Scoped S) (hv : e.Free v) :
    v ∈ S := by
  induction hv generalizing S with
  | var name => exact he.var rfl
  | pass hc _ ih => exact ih (he.pass hc)
  | trial hne hc _ ih => exact (ih (he.trial rfl hc)).resolve_left hne

/-- A scoped formula binds none of the set. -/
theorem Scoped.not_mem_of_binds {e : Formula α} {v : NodeId} (he : e.Scoped S)
    (hv : e.Binds v) : v ∉ S := by
  induction he with
  | node _ bound _ _ ihpass ihtrial =>
      rcases binds_node.mp hv with ⟨s, hs, rfl⟩ | ⟨c, hc | hc, hv⟩
      · exact bound s hs
      · exact ihpass c hc hv
      · obtain ⟨s, hs, hc⟩ := Shape.exists_solver_of_mem_trialParts hc
        exact fun hmem => ihtrial s hs c hc hv (Set.mem_insert_of_mem _ hmem)

/-- More variables may be read, as long as none of them is bound. -/
theorem Scoped.mono {S' : Set NodeId} {e : Formula α} (he : e.Scoped S) (hsub : S ⊆ S')
    (hbinds : ∀ v ∈ S', ¬ e.Binds v) : e.Scoped S' := by
  induction he generalizing S' with
  | @node S id shape var bound pass trial ihpass ihtrial =>
      refine .node (fun name hname => hsub (var name hname)) ?_ ?_ ?_
      · rintro s rfl hmem
        exact hbinds _ hmem (binds_bound id s)
      · intro c hc
        exact ihpass c hc hsub fun v hv h => hbinds v hv (h.of_part (.inl hc))
      · rintro s rfl c hc
        refine ihtrial s rfl c hc (Set.insert_subset_insert hsub) ?_
        rintro v (rfl | hv) h
        · exact (trial s rfl c hc).not_mem_of_binds h (Set.mem_insert _ _)
        · exact hbinds v hv (h.of_part (.inr hc))

/-- A formula in which no variable is bound twice on the way down is scoped in every
set of variables that has its free ones and none of its bound ones. -/
theorem scoped_of_free {e : Formula α} (hfree : ∀ v, e.Free v → v ∈ S)
    (hbound : ∀ v, e.Binds v → v ∉ S)
    (hrebound : ∀ id s, (node id (.solver s)).Consulted e →
      ∀ c ∈ s.trialParts, ¬ c.Binds s.bound.id) : e.Scoped S := by
  induction e using inductionOnRefs generalizing S with
  | h id shape ih =>
      refine .node ?_ ?_ ?_ ?_
      · rintro name rfl
        exact hfree _ (.var name)
      · rintro s rfl
        exact hbound _ (binds_bound id s)
      · intro c hc
        exact ih c (Shape.mem_refs_of_mem_passParts hc) (fun v hv => hfree v (.pass hc hv))
          (fun v hv => hbound v (hv.of_part (.inl hc)))
          fun id' s hs => hrebound id' s (.part (.inl hc) hs)
      · rintro s rfl c hc
        refine ih c (Shape.mem_refs_of_mem_trialParts hc) ?_ ?_ ?_
        · intro v hv
          by_cases hv' : v = s.bound.id
          · exact .inl hv'
          · exact .inr (hfree v (.trial hv' hc hv))
        · rintro v hv (rfl | hmem)
          · exact hrebound id s (.refl _) c hc hv
          · exact hbound v (hv.of_part (.inr hc)) hmem
        · intro id' s' hs'
          exact hrebound id' s' (.part (.inr hc) hs')

/-- Without solvers nothing is bound. -/
theorem scoped_of_solverFree {e : Formula α} (he : e.SolverFree) (hfree : ∀ v, e.Free v → v ∈ S) :
    e.Scoped S := by
  induction he with
  | @node id shape notSolver _ ih =>
      refine .node ?_ (fun s hs => absurd hs (notSolver s)) ?_ fun s hs => absurd hs (notSolver s)
      · rintro name rfl
        exact hfree id (.var name)
      · intro c hc
        exact ih c (Shape.passParts_eq_children notSolver ▸ hc) fun v hv => hfree v (.pass hc hv)

/-- What is consulted in a scoped formula is scoped itself, in more variables. -/
theorem Scoped.consulted {d e : Formula α} (he : e.Scoped S) (hd : d.Consulted e) :
    ∃ T, d.Scoped T := by
  induction hd generalizing S with
  | refl => exact ⟨S, he⟩
  | part hc _ ih =>
      rcases hc with hc | hc
      · exact ih (he.pass hc)
      · obtain ⟨s, hs, hc⟩ := Shape.exists_solver_of_mem_trialParts hc
        exact ih (he.trial hs hc)

/-- A scoped formula has its bound variables where they are bound, and once on every way. -/
theorem Scoped.lexicallyScoped {e : Formula α} (he : e.Scoped S) : e.LexicallyScoped where
  not_free _ hb hv := he.not_mem_of_binds hb (he.mem_of_free hv)
  not_rebound _ s hs c hc hb := by
    obtain ⟨T, hT⟩ := he.consulted hs
    exact (hT.trial rfl hc).not_mem_of_binds hb (Set.mem_insert s.bound.id T)

/-- A lexically scoped formula is in scope where nothing it binds is. -/
theorem LexicallyScoped.scoped {e : Formula α} (he : e.LexicallyScoped) :
    e.Scoped {v | ¬ e.Binds v} :=
  scoped_of_free (fun v hv hb => he.not_free v hb hv) (fun _ hb hnot => hnot hb) he.not_rebound

end Formula

/-! ## What a solver searches -/

namespace Solver

variable {α : Type} [Scalar α]

/-- The value of the body at a trial value. -/
def bodyAt (s : Solver α (Formula α)) (ρ : Valuation α) (x : α) : α :=
  s.body.value (ρ.set s.bound.id x)

/-- Whether the search is past the root at a trial value. -/
def isPast (s : Solver α (Formula α)) (ρ : Valuation α) (x : α) : Bool :=
  Formula.guardHolds (ρ.set s.bound.id x) x s.guard && Scalar.less (s.bodyAt ρ x) 0

/-- What the search between two numbers finds. -/
def rootBetween (s : Solver α (Formula α)) (ρ : Valuation α) (low high precision : α) : α :=
  (BracketSearch.run (m := Id) low high precision (fun x => s.isPast ρ x)
    fun x => s.bodyAt ρ x).root

/-- A search depends on its answers only. -/
theorem rootBetween_congr {s : Solver α (Formula α)} {ρ ρ' : Valuation α}
    (hpast : ∀ x, s.isPast ρ x = s.isPast ρ' x) (hbody : ∀ x, s.bodyAt ρ x = s.bodyAt ρ' x)
    (low high precision : α) :
    s.rootBetween ρ low high precision = s.rootBetween ρ' low high precision := by
  rw [rootBetween, rootBetween, funext hpast, funext hbody]

end Solver

namespace Formula

variable {α : Type} [Scalar α] {S : Set NodeId}

/-- The value of a solver is the root its search finds. -/
theorem value_solver (ρ : Valuation α) (id : NodeId) (s : Solver α (Formula α)) :
    value ρ (node id (.solver s)) =
      s.rootBetween ρ (value ρ s.low) (value ρ s.high) (value ρ s.precision) := by
  obtain ⟨body, bound, low, high, precision, guard⟩ := s
  rw [value]
  rfl

/-! ## The value depends on the free variables -/

/-- A guard depends on the values of what it refers to. -/
theorem guardHolds_congr {ρ ρ' : Valuation α} {x : α}
    {guard : Option (NodeId × Guard α (Formula α))}
    (h : ∀ c ∈ guard.toList.flatMap (·.2.refs), value ρ c = value ρ' c) :
    guardHolds ρ x guard = guardHolds ρ' x guard := by
  match guard with
  | none => rfl
  | some (_, .custom _) => rfl
  | some (_, .positive e) =>
      simp only [guardHolds]
      rw [h e (by simp [Guard.refs])]

/-- **The value depends on the free variables only.** -/
theorem value_congr {e : Formula α} {ρ ρ' : Valuation α} (h : ∀ v, e.Free v → ρ v = ρ' v) :
    value ρ e = value ρ' e := by
  induction e using inductionOnRefs generalizing ρ ρ' with
  | h id shape ih =>
      have hpass : ∀ c ∈ shape.passParts, value ρ c = value ρ' c := fun c hc =>
        ih c (Shape.mem_refs_of_mem_passParts hc) fun v hv => h v (.pass hc hv)
      cases shape with
      | const v => rw [value, value]
      | var name =>
          rw [value, value]
          exact h id (.var name)
      | unary op a =>
          have ha := hpass a (by simp [Shape.passParts, Shape.children])
          rw [value, value, ha]
      | binary op a b =>
          have ha := hpass a (by simp [Shape.passParts, Shape.children])
          have hb := hpass b (by simp [Shape.passParts, Shape.children])
          rw [value, value, ha, hb]
      | assoc op args =>
          rw [value, value, values_eq_map, values_eq_map]
          exact congrArg op.apply (List.map_congr_left hpass)
      | conditional op c a b =>
          have hc := hpass c (by simp [Shape.passParts, Shape.children])
          have ha := hpass a (by simp [Shape.passParts, Shape.children])
          have hb := hpass b (by simp [Shape.passParts, Shape.children])
          rw [value, value, hc, ha, hb]
      | tabulated mark t a =>
          have ha := hpass a (by simp [Shape.passParts, Shape.children])
          rw [value, value, ha]
      | solver s =>
          have htrial : ∀ c ∈ s.trialParts, ∀ x,
              value (ρ.set s.bound.id x) c = value (ρ'.set s.bound.id x) c := by
            intro c hc x
            refine ih c (Shape.mem_refs_of_mem_trialParts hc) ?_
            intro v hv
            by_cases hbound : v = s.bound.id
            · simp [Valuation.set, hbound]
            · simp only [Valuation.set, if_neg hbound]
              exact h v (.trial hbound hc hv)
          have hguard : ∀ x, guardHolds (ρ.set s.bound.id x) x s.guard =
              guardHolds (ρ'.set s.bound.id x) x s.guard := fun x =>
            guardHolds_congr fun c hc => htrial c (List.mem_cons_of_mem _ hc) x
          have hbody : ∀ x, s.bodyAt ρ x = s.bodyAt ρ' x := htrial s.body List.mem_cons_self
          have hpast : ∀ x, s.isPast ρ x = s.isPast ρ' x := fun x => by
            rw [Solver.isPast, Solver.isPast, hguard, hbody]
          rw [value_solver, value_solver, hpass s.low (by simp [Shape.passParts]),
            hpass s.high (by simp [Shape.passParts]),
            hpass s.precision (by simp [Shape.passParts]), Solver.rootBetween_congr hpast hbody]

/-- In a scope, the value depends on the variables of the scope. -/
theorem Scoped.value_congr {e : Formula α} (he : e.Scoped S) {ρ ρ' : Valuation α}
    (h : ∀ v ∈ S, ρ v = ρ' v) : value ρ e = value ρ' e :=
  Formula.value_congr fun v hv => h v (he.mem_of_free hv)

end Formula

end FormulaGraph
