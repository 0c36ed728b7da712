import FormulaGraph.Proofs.MemoFreePasses

/-!
# Solvers put in the place of variables

The **fringe** of a formula is what one meets first on the way down, of variables and of
solvers: the formula is made of it by operations and tables.  The rules of construction take
operations apart and put others together, but what they build has no other fringe than what
they build it of.

So what becomes of a fringe can be traced when a solver is put in the place of a variable.
The variable is gone from it, and a solver that holds the variable has become another one.
A node that is its own image has therefore not been touched (`Trace.untouched`), be it simple
or not, and the substitution does what the plain recursion does
(`substitute_solver_afresh`).
-/

namespace FormulaGraph

variable {α : Type}

namespace Formula

/-- `f` is a variable or a solver that operations and tables lead to from `e`. -/
inductive OnFringe : Formula α → Formula α → Prop
  | var {id : NodeId} {name : String} : OnFringe (node id (.var name)) (node id (.var name))
  | solver {id : NodeId} {s : Solver α (Formula α)} :
      OnFringe (node id (.solver s)) (node id (.solver s))
  | child {f c e : Formula α} (hsolver : ∀ s, e.shape ≠ .solver s) (hc : c ∈ e.children)
      (hf : OnFringe f c) : OnFringe f e

theorem onFringe_var {f : Formula α} {id : NodeId} {name : String} :
    f.OnFringe (node id (.var name)) ↔ f = node id (.var name) := by
  refine ⟨fun h => ?_, fun h => h ▸ .var⟩
  cases h with
  | var => rfl
  | child _ hc _ => cases hc

theorem onFringe_solver {f : Formula α} {id : NodeId} {s : Solver α (Formula α)} :
    f.OnFringe (node id (.solver s)) ↔ f = node id (.solver s) := by
  refine ⟨fun h => ?_, fun h => h ▸ .solver⟩
  cases h with
  | solver => rfl
  | child hsolver _ _ => exact absurd rfl (hsolver s)

/-- The fringe of an operation or a table is made of those of its children. -/
theorem onFringe_node {f e : Formula α} (hvar : ∀ name, e.shape ≠ .var name)
    (hsolver : ∀ s, e.shape ≠ .solver s) : f.OnFringe e ↔ ∃ c ∈ e.children, f.OnFringe c := by
  refine ⟨fun h => ?_, fun ⟨c, hc, hf⟩ => .child hsolver hc hf⟩
  cases h with
  | var => exact absurd rfl (hvar _)
  | solver => exact absurd rfl (hsolver _)
  | child _ hc hf => exact ⟨_, hc, hf⟩

theorem onFringe_admitsOperations (P : Formula α → Prop) :
    AdmitsOperations fun d : Formula α => ∀ f, f.OnFringe d → P f := by
  refine admitsOperations_of_iff fun {id shape} hvar hsolver => ?_
  simp only [onFringe_node (e := node id shape) hvar hsolver, children_node]
  exact ⟨fun h c hc f hf => h f ⟨c, hc, hf⟩, fun h f ⟨c, hc, hf⟩ => h c hc f hf⟩

variable [Scalar α] {L L' L₀ : Ledger α} {r : Replacement α}

theorem OnFringe.known {f e : Formula α} (hf : f.OnFringe e) (he : e.KnownTo L) : f.KnownTo L := by
  induction hf with
  | var => exact he
  | solver => exact he
  | child _ hc _ ih => exact ih (he.child hc)

omit [Scalar α] in
/-- Where a variable is replaced, that shows on the fringe. -/
theorem exists_touched {e : Formula α} (h : e.isTouched r = true) :
    ∃ f : Formula α, f.OnFringe e ∧ f.isTouched r = true := by
  induction e using inductionOnRefs with
  | h id shape ih =>
      by_cases hsolver : ∀ s, shape ≠ .solver s
      · by_cases hvar : ∀ name, shape ≠ .var name
        · rw [isTouched_node (e := node id shape) hvar, shape_node, Shape.sites_eq_map hsolver] at h
          obtain ⟨c, hc, htouched⟩ : ∃ c ∈ shape.children, c.isTouched r = true := by
            simpa using h
          obtain ⟨f, hf, hftouched⟩ := ih c (Shape.mem_refs_of_mem_children hc) htouched
          exact ⟨f, .child hsolver hc hf, hftouched⟩
        · obtain ⟨name, rfl⟩ : ∃ name, shape = .var name := by simpa using hvar
          exact ⟨_, .var, h⟩
      · obtain ⟨s, rfl⟩ : ∃ s, shape = .solver s := by simpa using hsolver
        exact ⟨_, .solver, h⟩

/-! ## Traces -/

/-- Where something on the fringe of the image of `e` comes from: it is on the fringe of `e` and
not touched, a solver that stands for a variable there, or a solver built meanwhile. -/
inductive Traced (L₀ : Ledger α) (r : Replacement α) (e : Formula α) : Formula α → Prop
  | kept {f : Formula α} (hf : f.OnFringe e) (h : f.isTouched r = false) : Traced L₀ r e f
  | put {v id : NodeId} {name : String} {s : Solver α (Formula α)}
      (hv : (node v (.var name)).OnFringe e) (h : (node v (.var name)).isTouched r = true) :
      Traced L₀ r e (node id (.solver s))
  | new {id : NodeId} {s : Solver α (Formula α)} (h : ¬ (node id (.solver s)).KnownTo L₀) :
      Traced L₀ r e (node id (.solver s))

theorem Traced.of_child {e c f : Formula α} (hsolver : ∀ s, e.shape ≠ .solver s)
    (hc : c ∈ e.children) (h : Traced L₀ r c f) : Traced L₀ r e f := by
  cases h with
  | kept hf h => exact .kept (.child hsolver hc hf) h
  | put hv h => exact .put (.child hsolver hc hv) h
  | new h => exact .new h

/-- A known image the fringe of which can be traced. -/
structure Trace (L₀ : Ledger α) (r : Replacement α) (e : Formula α) (L : Ledger α)
    (d : Formula α) : Prop where
  known : d.KnownTo L
  fringe : ∀ f, f.OnFringe d → Traced L₀ r e f

/-- **What is its own image has not been touched.** -/
theorem Trace.untouched {e : Formula α} (h : Trace L₀ r e L e) (he : e.KnownTo L₀) :
    e.isTouched r = false := by
  by_contra htouched
  obtain ⟨f, hf, hftouched⟩ := exists_touched (Bool.not_eq_false _ ▸ htouched)
  cases h.fringe f hf with
  | kept _ huntouched =>
      rw [huntouched] at hftouched
      cases hftouched
  | new hnew => exact hnew (hf.known he)
  | put hv hvtouched =>
      -- The variable is still on the fringe, but nothing on it is traced to such a variable.
      cases h.fringe _ hv with
      | kept _ huntouched =>
          rw [huntouched] at hvtouched
          cases hvtouched

/-- The fringe of an operation or a table that is rebuilt. -/
theorem trace_rebuilt {e : Formula α} {ds : List (Formula α)} {shape : Shape α (Formula α)}
    (he : e.KnownTo L) (hsolver : ∀ s, e.shape ≠ .solver s)
    (hds : List.Forall₂ (fun c d => Trace L₀ r c L d) e.children ds)
    (hshape : e.shape.withChildren? ds = some shape) :
    Builds (replaceOver e ds) L (Trace L₀ r e) := by
  -- Whatever is on the fringe of an image is traced to the child and so to the node.
  have hmember : ∀ d ∈ ds, d.Member (fun d => ∀ f, f.OnFringe d → Traced L₀ r e f) L := by
    intro d hd
    obtain ⟨c, hc, hd⟩ := exists_of_forall₂ hds d hd
    exact ⟨hd.known, fun f hf => (hd.fringe f hf).of_child hsolver hc⟩
  refine (replaceOver_member (onFringe_admitsOperations _) he hmember hshape ?_).mono
    fun _ _ _ h => ⟨h.known, h.holds⟩
  intro id f hf
  obtain ⟨d, hd, hfd⟩ := (onFringe_node (not_var_of_withChildren hshape)
    (not_solver_of_withChildren hsolver hshape)).mp hf
  rw [children_node, (children_of_withChildren hshape).1] at hd
  exact (hmember d hd).holds f hfd

/-- The fringe of a solver that is rebuilt: it is the one there was, or a new one. -/
theorem trace_solver {id : NodeId} {s : Solver α (Formula α)} {body low high precision : Formula α}
    (hL : L₀.Extends L) (h : (node id (.solver s)).KnownTo L₀)
    (hbody : Trace L₀ (r.except s.bound.id) s.body L body) (hlow : Trace L₀ r s.low L low)
    (hhigh : Trace L₀ r s.high L high) (hprecision : Trace L₀ r s.precision L precision) :
    Builds (replaceOver (node id (.solver s)) [body, low, high, precision]) L
      (Trace L₀ r (node id (.solver s))) := by
  have he := h.mono hL
  have hparts : ∀ d ∈ [body, low, high, precision], d.KnownTo L := by
    simpa using ⟨hbody.known, hlow.known, hhigh.known, hprecision.known⟩
  have hshape : (Shape.solver s).withChildren? [body, low, high, precision] =
      some (.solver { s with body, low, high, precision }) := rfl
  refine replaceOver_builds he hparts hshape ?_ ?_
  · intro hself
    have hown : ∀ c ∈ (Shape.solver s).children, c.KnownTo L₀ := fun c hc => h.child hc
    obtain ⟨ownBody, bound, ownLow, ownHigh, ownPrecision, guard⟩ := s
    obtain ⟨rfl, rfl, rfl, rfl⟩ : ownBody = body ∧ ownLow = low ∧ ownHigh = high ∧
        ownPrecision = precision := by simpa using hself
    simp only [Shape.children, Solver.children, List.forall_mem_cons] at hown
    obtain ⟨hownBody, hownLow, hownHigh, hownPrecision, -⟩ := hown
    refine ⟨he, fun f hf => ?_⟩
    rw [onFringe_solver.mp hf]
    refine .kept .solver ?_
    simp [isTouched, hbody.untouched hownBody, hlow.untouched hownLow, hhigh.untouched hownHigh,
      hprecision.untouched hownPrecision]
  · have hrefs : ∀ c ∈ (Shape.solver { s with body, low, high, precision }).refs,
        c.KnownTo L := by
      intro c hc
      rcases (children_of_withChildren hshape).2 c hc with hc | hc
      · exact hparts c hc
      · exact he.ref hc
    have hnew : YieldsFrom L₀.next (ofShape (.solver { s with body, low, high, precision }))
        fun d => ∃ id', L₀.next ≤ id' ∧
          d = node id' (.solver { s with body, low, high, precision }) :=
      .new fun id' hid => ⟨id', hid, rfl⟩
    refine ((ofShape_known hrefs).and_yieldsFrom hL.next_le hnew).mono ?_
    rintro L' d - ⟨hknown, id', hid, rfl⟩
    refine ⟨hknown, fun f hf => ?_⟩
    rw [onFringe_solver.mp hf]
    exact .new fun hearlier => absurd hearlier.id_lt (Nat.not_lt.mpr hid)

/-- The replacement puts known solvers. -/
def PutsSolvers (L : Ledger α) (r : Replacement α) : Prop :=
  ∀ v, ∀ x ∈ r v, ∃ id s, x = pure (node id (.solver s)) ∧ (node id (.solver s)).KnownTo L

theorem PutsSolvers.except (h : PutsSolvers L r) (v : NodeId) : PutsSolvers L (r.except v) := by
  intro w x hx
  rw [Replacement.except] at hx
  split at hx
  · cases hx
  · exact h w x hx

theorem PutsSolvers.agrees (h : PutsSolvers L r) : r.Agrees r := by
  intro v
  cases hput : r v with
  | none => exact .none
  | some x =>
      obtain ⟨id, s, rfl, -⟩ := h v x hput
      exact .some (.pure rfl)

/-- The fringe can be traced through every step of the pass. -/
theorem replaces_trace (L₀ : Ledger α) : Replaces (α := α) (fun r => r) Replacement.except
    (fun r L e => L₀.Extends L ∧ PutsSolvers L₀ r ∧ e.KnownTo L₀)
    fun r e L d => Trace L₀ r e L d where
  except _ _ := rfl
  lasting _ _ _ _ hL h := ⟨h.1.trans hL, h.2⟩
  imageLasting _ _ _ _ _ hL h := ⟨h.known.mono hL, h.fringe⟩
  known h := h.2.2.mono h.1
  part h hc := ⟨h.1, h.2.1, h.2.2.ref (Shape.mem_refs_of_mem_passParts hc)⟩
  body h := ⟨h.1, h.2.1.except _, h.2.2.child List.mem_cons_self⟩
  const {r L id v} h := ⟨h.2.2.mono h.1, (onFringe_admitsOperations _).const id v⟩
  kept {r L id name} h hnone := by
    refine ⟨h.2.2.mono h.1, fun f hf => ?_⟩
    rw [onFringe_var.mp hf]
    exact .kept .var (by simp [isTouched, hnone])
  put {r L id name} h x hx := by
    obtain ⟨id', s, rfl, hknown⟩ := h.2.1 _ x hx
    refine .pure ⟨hknown.mono h.1, fun f hf => ?_⟩
    have hput : r ⟨id, name⟩ = some (pure (node id' (.solver s))) := hx
    rw [onFringe_solver.mp hf]
    exact .put .var (by simp [isTouched, hput])
  rebuilt h hsolver hds hshape := trace_rebuilt (h.2.2.mono h.1) hsolver hds hshape
  solver h hbody hlow hhigh hprecision := trace_solver h.1 h.2.2 hbody hlow hhigh hprecision

/-- **A solver substituted for a variable.**  The result unfolds to what the recursion makes of
the tree, whether or not the nodes of the formula are simple. -/
theorem substitute_solver_afresh {v id : NodeId} {s : Solver α (Formula α)} {e : Formula α}
    (hs : (node id (.solver s)).KnownTo L) (he : e.KnownTo L) :
    Builds (substitute [(v, node id (.solver s))] e) L fun L' d => d.KnownTo L' ∧
      Agree tree (replaceAfresh (.ofPairs [(v, node id (.solver s))]) e) (pure d) := by
  have hputs : PutsSolvers L (.ofPairs [(v, node id (.solver s))]) := by
    intro w x hx
    obtain ⟨p, hfound, rfl⟩ := Option.map_eq_some_iff.mp hx
    rw [List.mem_singleton.mp (List.mem_of_find?_eq_some hfound)]
    exact ⟨id, s, rfl, hs⟩
  have hreplaces := (replaces_trace L).afresh (fun h => h.known) (fun hH => hH.2.1.agrees) ?_
  · exact ((hreplaces.carries e ⟨.refl L, hputs, he⟩).answer).mono
      fun _ _ _ h => ⟨h.1.known, h.2.afresh⟩
  · intro r L' e hH hself _ htouched
    rw [hself.untouched hH.2.2] at htouched
    cases htouched

end Formula

end FormulaGraph
