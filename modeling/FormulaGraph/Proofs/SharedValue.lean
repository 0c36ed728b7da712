import FormulaGraph.Proofs.WholeNumbers
import FormulaGraph.Proofs.Merging
import FormulaGraph.Proofs.Generations
import FormulaGraph.Point

/-!
# Sharing and the value of a formula

Nodes with one signature are made one, so sharing keeps values exactly where
signatures tell values apart (`keepsValues_iff`).  Variables show in a signature by
their names alone, though their identity counts for the value, while tables and guards
show with their identity.  In plain families of solver-free formulas, then, sharing
keeps what is evaluated **exactly if no two variables share a name**.
-/

namespace FormulaGraph

variable {α : Type} [Scalar α] {A : Formula α → Prop} {L L' : Ledger α}

namespace Formula

/-! ## Nodes over other children -/

/-- Over children with the same values, a node has the value it had. -/
theorem value_of_withChildren {shape shape' : Shape α (Formula α)} {ds : List (Formula α)}
    (hfree : ∀ s, shape ≠ .solver s)
    (hds : List.Forall₂ (fun c d => ∀ ρ : Valuation α, d.value ρ = c.value ρ) shape.children ds)
    (h : shape.withChildren? ds = some shape') (ρ : Valuation α) (id id' : NodeId) :
    value ρ (node id' shape') = value ρ (node id shape) := by
  cases shape with
  | unary op a =>
      rcases hds with _ | ⟨ha, _ | _⟩
      cases h
      rw [value, value, ha]
  | binary op a b =>
      rcases hds with _ | ⟨ha, _ | ⟨hb, _ | _⟩⟩
      cases h
      rw [value, value, ha, hb]
  | assoc op args =>
      cases h
      have hvalues : ds.map (value ρ) = args.map (value ρ) := by
        clear hfree
        rw [Shape.children] at hds
        induction hds with
        | nil => rfl
        | cons hhead _ ih => rw [List.map_cons, List.map_cons, hhead ρ, ih]
      rw [value, value, values_eq_map, values_eq_map, hvalues]
  | conditional op c a b =>
      rcases hds with _ | ⟨hc, _ | ⟨ha, _ | ⟨hb, _ | _⟩⟩⟩
      cases h
      rw [value, value, hc, ha, hb]
  | tabulated mark t a =>
      rcases hds with _ | ⟨ha, _ | _⟩
      cases h
      rw [value, value, ha]
  | const v => cases h
  | var name => cases h
  | solver s => exact absurd rfl (hfree s)

theorem shareOver_builds (hA : AdmitsRebuilding A) {e : Formula α} {ds : List (Formula α)}
    (he : e.Member A L) (hds : ∀ d ∈ ds, d.Member A L) :
    Builds (shareOver e ds) L fun L' d => d.Member A L' := by
  rw [shareOver]
  split
  · exact .pure he
  · cases hshape : e.shape.withChildren? ds with
    | none => exact .pure he
    | some shape =>
        obtain ⟨hchildren, hrefs⟩ := children_of_withChildren hshape
        refine new_builds (hA.withChildren he.holds (fun d hd => (hds d hd).holds) hshape) ?_
        intro r hr
        rcases hrefs r hr with h | h
        · exact (hds r h).known
        · exact he.known.ref h

theorem shareOver_yields {e : Formula α} {ds : List (Formula α)}
    (hfree : ∀ s, e.shape ≠ .solver s)
    (hds : List.Forall₂ (fun c d => ∀ ρ : Valuation α, d.value ρ = c.value ρ) e.children ds) :
    Yields (shareOver e ds) fun d => ∀ ρ : Valuation α, d.value ρ = e.value ρ := by
  obtain ⟨id, shape⟩ := e
  rw [shareOver]
  split
  · exact .pure fun _ => rfl
  · cases hshape : (node id shape).shape.withChildren? ds with
    | none => exact .pure fun _ => rfl
    | some shape' =>
        exact .new fun id' ρ => value_of_withChildren hfree hds hshape ρ id id'

/-! ## What stands for a node -/

/-- The formula is a known one in which all nodes satisfy `A`, and has the value of `e`
under every assignment. -/
structure StandsFor (A : Formula α → Prop) (e : Formula α) (L : Ledger α)
    (d : Formula α) : Prop where
  member : d.Member A L
  value_eq : ∀ ρ : Valuation α, d.value ρ = e.value ρ

end Formula

open Formula
open Representatives (Sound Reached)

variable [ScalarText α] {M : Formula α → Prop} {table : Representatives α}

/-- Whatever the signatures are, what the table keeps is known. -/
theorem merges_known : Merges M fun _ L d => d.KnownTo L where
  lasting _ _ _ _ hL h := h.mono hL
  self _ hknown := hknown
  rebuilt _ hknown _ hds :=
    (Formula.shareOver_builds trivial_admitsRebuilding (Formula.member_trivial hknown)
      (forall_of_forall₂ hds fun _ _ h => Formula.member_trivial h)).mono fun _ _ _ h => h.known
  signature _ _ _ h := h

theorem merges_standsFor (hA : AdmitsRebuilding A) (hM : ∀ e, M e → A e)
    (htell : SignaturesTell M) : Merges M (StandsFor A) where
  lasting _ _ _ _ hL h := ⟨h.member.mono hL, h.value_eq⟩
  self he hknown := ⟨⟨hknown, hM _ he⟩, fun _ => rfl⟩
  rebuilt he hknown hfree hds := by
    have hmember := Formula.shareOver_builds hA ⟨hknown, hM _ he⟩
      (forall_of_forall₂ hds fun _ _ h => h.member)
    have hvalue := Formula.shareOver_yields hfree (hds.imp fun _ _ h => h.value_eq)
    exact (hmember.and_yields hvalue).mono fun _ _ _ h => ⟨h.1, h.2⟩
  signature hd he hsame h := ⟨h.member, fun ρ => (h.value_eq ρ).trans (htell _ _ hd he hsame ρ)⟩

/-! ## Keeping values -/

/-- The node that a formula becomes when it is shared through the table. -/
def sharedForm (L : Ledger α) (table : Representatives α) (e : Formula α) : Formula α :=
  ((e.shareWith table).run L.next).1.1

/-- Whatever was shared before through the same table, sharing a node of the family keeps
its value under every assignment. -/
def KeepsValues (M : Formula α → Prop) : Prop :=
  ∀ (L : Ledger α) (table : Representatives α), table.Reached M L →
    ∀ e, M e → e.KnownTo L → ∀ ρ : Valuation α, (sharedForm L table e).value ρ = e.value ρ

/-- Whatever was shared before through the same table, sharing a node of the family keeps
what it evaluates to, in every store that evaluations and assignments lead to. -/
def KeepsEvaluations (M : Formula α → Prop) : Prop :=
  ∀ (L : Ledger α) (table : Representatives α), table.Reached M L →
    ∀ e, M e → e.KnownTo L → ∀ s : Store α, s.Reachable →
      ((sharedForm L table e).evaluate.run s).1 = (e.evaluate.run s).1

/-- A node whose signature is in the table becomes what stands for it there. -/
theorem sharedForm_of_kept {e d : Formula α} (h : table[e.signature]? = some d)
    (L : Ledger α) : sharedForm L table e = d := by
  obtain ⟨id, shape⟩ := e
  rw [sharedForm, shareWith, shareNode, represent_run_kept h]
  rfl

/-- A shared node stands for its signature from then on. -/
theorem shared_kept (table : Representatives α) (L : Ledger α) (e : Formula α) :
    ((e.shareWith table).run L.next).1.2[e.signature]? = some (sharedForm L table e) := by
  obtain ⟨id, shape⟩ := e
  rw [sharedForm, shareWith, shareNode]
  cases hfound : table[(node id shape).signature]? with
  | some d =>
      rw [represent_run_kept hfound]
      exact hfound
  | none =>
      rw [represent_run_new hfound]
      exact Std.HashMap.getElem?_insert_self

/-- After a node is shared, the table is one that nodes were shared through. -/
theorem Representatives.Reached.exists_share (hM : Family M) (h : table.Reached M L)
    {e : Formula α} (he : M e) (hknown : e.KnownTo L) :
    ∃ L', L.Extends L' ∧ L'.next = ((e.shareWith table).run L.next).2 ∧
      Reached M L' ((e.shareWith table).run L.next).1.2 := by
  have hkept := h.sound hM merges_known fun _ hd => hd
  obtain ⟨L', hL, hnext, hsound, _⟩ := shareNode_carries hM merges_known e he hknown table hkept
  refine ⟨L', hL, hnext, .share h he hknown hL ?_⟩
  intro key d hd
  obtain ⟨_, _, _, hd'⟩ := hsound key d hd
  exact hd'

/-- Two nodes shared one after another become one if they have one signature. -/
theorem exists_shared_alike (hM : Family M) {d e : Formula α} (hd : M d) (he : M e)
    (hsame : d.signature = e.signature) :
    ∃ (L₁ L₂ : Ledger α) (table : Representatives α), d.KnownTo L₁ ∧ e.KnownTo L₂ ∧
      table.Reached M L₂ ∧ sharedForm L₂ table e = sharedForm L₁ ∅ d := by
  obtain ⟨L, hdL, heL⟩ := hM.together hd he
  obtain ⟨L', hL, _, hreached⟩ := (Reached.empty L).exists_share hM hd hdL
  refine ⟨L, L', _, hdL, heL.mono hL, hreached, ?_⟩
  exact sharedForm_of_kept (hsame ▸ shared_kept ∅ L d) L'

/-- The shared form stands for its node. -/
theorem sharedForm_standsFor (hM : Family M) (hA : AdmitsRebuilding A)
    (hall : ∀ e, M e → A e) (htell : SignaturesTell M) (h : table.Reached M L)
    {e : Formula α} (he : M e) (hknown : e.KnownTo L) :
    ∃ L', StandsFor A e L' (sharedForm L table e) := by
  have hmerges := merges_standsFor hA hall htell
  have hsound := h.sound hM hmerges fun hd hknown => ⟨⟨hknown, hd.member.holds⟩, hd.value_eq⟩
  obtain ⟨L', _, _, _, hstands⟩ := shareNode_carries hM hmerges e he hknown table hsound
  exact ⟨L', hstands⟩

/-- **Sharing keeps values exactly where signatures tell values apart.** -/
theorem keepsValues_iff (hM : Family M) : KeepsValues M ↔ SignaturesTell M := by
  refine ⟨?_, ?_⟩
  · intro h d e hd he hsame ρ
    obtain ⟨L₁, L₂, table, hdL, heL, hreached, halike⟩ := exists_shared_alike hM hd he hsame
    rw [← h L₁ ∅ (.empty L₁) d hd hdL ρ, ← h L₂ table hreached e he heL ρ, halike]
  · intro htell L table hreached e he hknown ρ
    obtain ⟨_, hstands⟩ := sharedForm_standsFor hM trivial_admitsRebuilding
      (fun _ _ => trivial) htell hreached he hknown
    exact hstands.value_eq ρ

theorem keepsEvaluations_of_signaturesTell (hM : Family M) (hfree : ∀ e, M e → e.SolverFree)
    (htell : SignaturesTell M) : KeepsEvaluations M := by
  intro L table hreached e he hknown s hs
  obtain ⟨L', hstands⟩ := sharedForm_standsFor hM solverFree_admitsRebuilding hfree htell
    hreached he hknown
  rw [Formula.evaluate_run hstands.member.holds hstands.member.known.listed hs,
    Formula.evaluate_run (hfree e he) hknown.listed hs, hstands.value_eq]

/-- The coordinates of a point are shared through one table, and keep their values if
every node of the family does. -/
theorem point_share_values (hM : Family M) (hkeeps : KeepsValues M) {p : Point3 (Formula α)}
    (hp : ∀ e ∈ p.toList, M e ∧ e.KnownTo L) (ρ : Valuation α) :
    (p.share.run L.next).1.map (value ρ) = p.map (value ρ) := by
  have hx := hp p.x (by simp [Point3.toList])
  have hy := hp p.y (by simp [Point3.toList])
  have hz := hp p.z (by simp [Point3.toList])
  obtain ⟨L₁, hL₁, hnext₁, hreached₁⟩ := (Reached.empty L).exists_share hM hx.1 hx.2
  have hyL := hy.2.mono hL₁
  obtain ⟨L₂, hL₂, hnext₂, hreached₂⟩ := hreached₁.exists_share hM hy.1 hyL
  have hvalueX := hkeeps L ∅ (.empty L) p.x hx.1 hx.2 ρ
  have hvalueY := hkeeps L₁ _ hreached₁ p.y hy.1 hyL ρ
  have hvalueZ := hkeeps L₂ _ hreached₂ p.z hz.1 ((hz.2.mono hL₁).mono hL₂) ρ
  rw [sharedForm] at hvalueX hvalueY hvalueZ
  rw [hnext₂] at hvalueZ
  rw [hnext₁] at hvalueY hvalueZ
  rw [Point3.map, Point3.map, ← hvalueX, ← hvalueY, ← hvalueZ]
  rfl

/-! ## Solvers between shared nodes

A solver leaves another value in its variable, so what is evaluated after it in the same
pass differs from what was stored before.  Nodes of one value under every assignment may
therefore differ in an evaluation, and then sharing them changes its answer.
-/

/-- A square, a solver and once more the square, of the variable that the solver
sets. -/
def squaresAroundSolver (root second : NodeId) : Formula Int :=
  let x := node 2 (.var "x")
  let five := node 4 (.const 5)
  node root (.assoc .add [
    node 5 (.unary .square x),
    node 6 (.solver ⟨node 3 (.const (-1)), ⟨2, "x"⟩, five, five, five, none⟩),
    node second (.unary .square x)])

/-- The solver leaves `x` at zero, which the second square sees only if it is not the
first one. -/
theorem squaresAroundSolver_evaluate {root second : NodeId} (h : second ≠ 6) :
    ((squaresAroundSolver root second).evaluate.run ((Store.empty : Store Int).write 2 1)).1 =
      if second = 5 then 2 else 1 := by
  let s₀ : Store Int := { (Store.empty : Store Int).write 2 1 with generation := 1 }
  let s₁ := s₀.fill 5 1 1
  let s₂ : Store Int := { s₁.write 2 5 with generation := 2 }
  let s₃ := (s₂.write 2 0).fill 6 1 0
  have hempty : ∀ id, s₀.slot id = Slot.empty := by
    intro id
    simp [s₀, Store.slot, Store.write, Store.empty]
  have hfirst : ((node 5 (.unary .square (node 2 (.var "x")))).evaluateIn 1).run s₀ = (1, s₁) := by
    have hx : s₀.read 2 = 1 := by simp [s₀, Store.read, Store.write]
    rw [square_run, hempty, hx]
    rfl
  have hsolver : ((node 6 (.solver ⟨node 3 (.const (-1)), ⟨2, "x"⟩, node 4 (.const 5),
      node 4 (.const 5), node 4 (.const 5), none⟩)).evaluateIn 1).run s₁ = (0, s₃) := by
    have hslot : (s₁.slot 6).holds 1 = false := by
      rw [Store.slot_fill, if_neg (by decide), hempty]
      rfl
    simp only [evaluateIn, guardHoldsIn, throughSlot_run, hslot, pure_bind, StateT.run_bind,
      Bool.false_eq_true, if_false]
    rw [BracketSearch.run_past_low (α := Int) (t := s₂) rfl]
    rfl
  have hsecond : ∃ s₄, ((node second (.unary .square (node 2 (.var "x")))).evaluateIn 1).run s₃ =
      (if second = 5 then 1 else 0, s₄) := by
    have hx : s₃.read 2 = 0 := by simp [s₃, Store.read_write, Valuation.set]
    have hslot : s₃.slot second = if second = 5 then ⟨1, 1, 1⟩ else Slot.empty := by
      have hkept : s₃.slot second = s₁.slot second := by
        rw [Store.slot_fill, if_neg (Ne.symm h)]
        rfl
      rw [hkept, Store.slot_fill, hempty, hempty]
      simp only [eq_comm (a := second)]
      rfl
    rw [square_run, hslot, hx]
    by_cases hsame : second = 5
    · exact ⟨_, by simp [hsame, Slot.holds]; rfl⟩
    · exact ⟨_, by simp [hsame, Slot.holds, Slot.empty, UnaryOp.apply]; rfl⟩
  obtain ⟨s₄, hsecond⟩ := hsecond
  have hroot : (s₀.slot root).holds 1 = false := by
    rw [hempty]
    rfl
  change (((squaresAroundSolver root second).evaluateIn 1).run s₀).1 = _
  rw [squaresAroundSolver, evaluateIn, throughSlot_run, hroot]
  · rw [StateT.run_bind, evaluateAllIn_cons_run hfirst
      (evaluateAllIn_cons_run hsolver (evaluateAllIn_cons_run hsecond rfl))]
    show AssocOp.add.apply [1, 0, if second = 5 then 1 else 0] = _
    by_cases hsame : second = 5
    · rw [if_pos hsame, if_pos hsame]
      rfl
    · rw [if_neg hsame, if_neg hsame]
      rfl
  · simp

/-- Sharing makes the two squares one. -/
theorem squaresAroundSolver_share :
    ((squaresAroundSolver 8 7).share.run 9).1 = squaresAroundSolver 9 5 := by
  let x : Formula Int := node 2 (.var "x")
  let five : Formula Int := node 4 (.const 5)
  let a : Formula Int := node 5 (.unary .square x)
  let b : Formula Int := node 7 (.unary .square x)
  let s : Formula Int := node 6 (.solver ⟨node 3 (.const (-1)), ⟨2, "x"⟩, five, five, five, none⟩)
  let table := ((∅ : Representatives Int).insert x.signature x).insert a.signature a
  have hax : x.signature ≠ s.signature := by decide
  have has : a.signature ≠ s.signature := by decide
  have hab : b.signature = a.signature := by decide
  have ha : (shareNode a).run ∅ = pure (a, table) := by
    have hx : (shareNode x).run ∅ = pure (x, (∅ : Representatives Int).insert x.signature x) :=
      represent_run_new (by simp) _
    rw [shareNode, represent_run_new (by simp)]
    simp [shareShape, hx, x]
    rfl
  have hs : (shareNode s).run table = pure (s, table.insert s.signature s) := by
    have hnew : table[s.signature]? = none := by simp [table, hax, has]
    exact represent_run_new hnew _
  have hb : (shareNode b).run (table.insert s.signature s) =
      pure (a, table.insert s.signature s) := by
    refine represent_run_kept ?_ _
    show (table.insert s.signature s)[b.signature]? = some a
    rw [hab, Std.HashMap.getElem?_insert, if_neg (by simpa using has.symm)]
    exact Std.HashMap.getElem?_insert_self
  let e : Formula Int := node 8 (.assoc .add [a, s, b])
  have hparts : (shareNodes [a, s, b]).run ∅ = pure ([a, s, a], table.insert s.signature s) :=
    shareNodes_cons_run ha (shareNodes_cons_run hs (shareNodes_cons_run hb rfl))
  have hfind : (shareShape e e.shape).run ∅ =
      shareOver e [a, s, a] >>= fun d => pure (d, table.insert s.signature s) := by
    show (shareShape e (.assoc .add [a, s, b])).run ∅ = _
    rw [shareShape, StateT.run_bind, hparts, pure_bind, StateT.run_monadLift]
    rfl
  have hnew : (∅ : Representatives Int)[e.signature]? = none := by simp
  show (((represent e.signature (shareShape e e.shape)).run ∅ >>= fun done =>
    pure done.1).run 9).1 = _
  rw [represent_run_new hnew, hfind]
  rfl

/-- With solvers, sharing can change what is evaluated although it keeps every value. -/
theorem sharing_beside_solver :
    let e := squaresAroundSolver 8 7
    let s := (Store.empty : Store Int).write 2 1
    (∀ ρ, (e.share.run 9).1.value ρ = e.value ρ) ∧
      (e.evaluate.run s).1 = 1 ∧ ((e.share.run 9).1.evaluate.run s).1 = 2 := by
  intro e s
  rw [squaresAroundSolver_share]
  refine ⟨fun ρ => rfl, ?_, ?_⟩
  · exact squaresAroundSolver_evaluate (by decide)
  · exact squaresAroundSolver_evaluate (by decide)

/-! ## Variables of one name -/

omit [ScalarText α] in
theorem Family.within (hM : Family M) (hfree : ∀ e, M e → e.SolverFree) {d e : Formula α}
    (he : M e) (hd : d.Within e) : M d := by
  induction hd with
  | refl => exact he
  | child hc _ ih => exact ih (hM.child he (hfree _ he).here hc)

omit [ScalarText α] in
/-- Without solvers, only leaves mention variables. -/
theorem Family.leaf (hM : Family M) (hfree : ∀ e, M e → e.SolverFree) {e : Formula α}
    {v : Variable} (he : M e) (hv : e.Mentions v) : M v.formula := by
  obtain ⟨d, hd, rfl | ⟨s, hs, _⟩⟩ := hv
  · exact hM.within hfree he hd
  · exact absurd hs (((hfree e he).within hd).here s)

/-- Two variables of one name become one when they are shared, so they must be one. -/
theorem namesApart_of_keepsEvaluations [Nontrivial α] (hM : Family M)
    (hfree : ∀ e, M e → e.SolverFree) (h : KeepsEvaluations M) : NamesApart M := by
  intro d e v w hd he hv hw hname
  by_contra hne
  have hx := hM.leaf hfree hd hv
  have hy := hM.leaf hfree he hw
  have hsame : (v.formula : Formula α).signature = (w.formula : Formula α).signature := by
    rw [← Formula.spelling_eq_iff, Variable.formula, Variable.formula, Formula.spelling_var,
      Formula.spelling_var, hname]
  obtain ⟨L₁, L₂, table, hxL, hyL, hreached, halike⟩ := exists_shared_alike hM hx hy hsame
  obtain ⟨a, b, hab⟩ := exists_pair_ne α
  let s := ((Store.empty : Store α).write v.id a).write w.id b
  have hs : s.Reachable := (Store.Reachable.empty.write _ _).write _ _
  have hevaluate : ((v.formula : Formula α).evaluate.run s).1 =
      ((w.formula : Formula α).evaluate.run s).1 := by
    rw [← h L₁ ∅ (.empty L₁) _ hx hxL s hs, ← h L₂ table hreached _ hy hyL s hs, halike]
  rw [evaluate_run (hfree _ hx) hxL.listed hs, evaluate_run (hfree _ hy) hyL.listed hs,
    Variable.formula, Variable.formula, value, value] at hevaluate
  apply hab
  simpa [s, Store.read_write, Valuation.set, hne] using hevaluate

/-- **What sharing keeps.**  For any family of nodes, sharing them one after another
through one table keeps their values under every assignment exactly if nodes of one
signature have one value, and then, without solvers, it keeps what they evaluate to.
In a plain family that is so if no two variables share a name; and in a plain family
without solvers, sharing keeps what is evaluated exactly if no two variables do. -/
theorem sharing_keeps_values [ReadableText α] [NeutralElements α] [Nontrivial α]
    (hM : Family M) :
    (KeepsValues M ↔ SignaturesTell M) ∧
    ((∀ e, M e → e.SolverFree) → SignaturesTell M → KeepsEvaluations M) ∧
    ((∀ e, M e → e.Plain) → MarksApart M → NamesApart M → SignaturesTell M) ∧
    ((∀ e, M e → e.SolverFree) → (∀ e, M e → e.Plain) → MarksApart M →
      (KeepsEvaluations M ↔ NamesApart M)) := by
  refine ⟨keepsValues_iff hM, keepsEvaluations_of_signaturesTell hM,
    signaturesTell_of_namesApart, ?_⟩
  intro hfree hplain hmarks
  refine ⟨namesApart_of_keepsEvaluations hM hfree, ?_⟩
  intro hnames
  exact keepsEvaluations_of_signaturesTell hM hfree
    (signaturesTell_of_namesApart hplain hmarks hnames)

/-- Over whole numbers, in a graph in which two nodes are the square of one variable,
sharing keeps what is evaluated. -/
theorem sharing_keeps_sum_of_squares :
    let x : Formula Int := node 2 (.var "x")
    let e : Formula Int :=
      node 5 (.assoc .add [node 3 (.unary .square x), node 4 (.unary .square x)])
    KeepsEvaluations fun d => ∃ r ∈ [e], d.Met r := by
  intro x e
  let a : Formula Int := node 3 (.unary .square x)
  let b : Formula Int := node 4 (.unary .square x)
  let L₁ := (Ledger.initial : Ledger Int).add (.var "x")
  let L₂ := (L₁.add (.unary .square x)).add (.unary .square x)
  have hx : x.KnownTo L₁ := add_known (by simp [Shape.refs, Shape.children])
  have ha : a.KnownTo (L₁.add (.unary .square x)) :=
    add_known (by simpa [Shape.refs, Shape.children] using hx)
  have hb : b.KnownTo L₂ :=
    add_known (by simpa [Shape.refs, Shape.children] using hx.mono (L₁.extends_add _))
  have he : e.KnownTo (L₂.add (.assoc .add [a, b])) :=
    add_known (by simpa [Shape.refs, Shape.children] using ⟨ha.mono (Ledger.extends_add _ _), hb⟩)
  have hall : ∀ {A : NodeId → Shape Int (Formula Int) → Prop}, A 2 (.var "x") →
      A 3 (.unary .square x) → A 4 (.unary .square x) → A 5 (.assoc .add [a, b]) →
      ∀ d : Formula Int, (∃ r ∈ [e], d.Met r) → d.Everywhere A := by
    intro A h2 h3 h4 h5 d hd
    obtain ⟨r, hr, hmet⟩ := hd
    rw [List.mem_singleton.mp hr] at hmet
    have hx' : x.Everywhere A := .node h2 (by simp [Shape.children])
    have ha' : a.Everywhere A := .node h3 (by simpa [Shape.children] using hx')
    have hb' : b.Everywhere A := .node h4 (by simpa [Shape.children] using hx')
    have he' : e.Everywhere A := .node h5 (by simpa [Shape.children] using ⟨ha', hb'⟩)
    exact he'.within hmet.within
  have hname : IsName "x" := by
    refine ⟨⟨?_, ?_, ?_⟩, ?_, ?_, ?_, ?_, ?_⟩ <;> simp [isWordLetter]
  have hplain : ∀ d : Formula Int, (∃ r ∈ [e], d.Met r) → d.Plain := by
    refine hall ?_ ?_ ?_ ?_ <;> refine ⟨?_, ?_, ?_, ?_, ?_⟩ <;>
      simp [Shape.operands, NoBareMinus, hname, x, a, b]
  have hfree : ∀ d : Formula Int, (∃ r ∈ [e], d.Met r) → d.SolverFree :=
    hall (by simp) (by simp) (by simp) (by simp)
  have hmarks : MarksApart fun d : Formula Int => ∃ r ∈ [e], d.Met r :=
    .of_everywhere (hall (by simp) (by simp) (by simp) (by simp))
  have hnames : NamesApart fun d : Formula Int => ∃ r ∈ [e], d.Met r :=
    have hvs : ∀ v ∈ [(⟨2, "x"⟩ : Variable)], ∀ w ∈ [(⟨2, "x"⟩ : Variable)],
        v.name = w.name → v.id = w.id := by
      simp
    .of_everywhere hvs (hall (by simp) (by simp) (by simp) (by simp))
  exact ((sharing_keeps_values (.ofRoots (by simpa using he))).2.2.2 hfree hplain hmarks).mpr hnames

/-- Two variables named alike are made one, whatever their values: `x + x`, which is 3 when
one is 1 and the other 2, is 2 when it has been shared. -/
theorem sharing_merges_variables :
    let x : Formula Int := node 2 (.var "x")
    let y : Formula Int := node 3 (.var "x")
    let e : Formula Int := node 4 (.assoc .add [x, y])
    let s := ((Store.empty : Store Int).write 2 1).write 3 2
    (e.evaluate.run s).1 = 3 ∧ ((e.share.run 5).1.evaluate.run s).1 = 2 := by
  intro x y e s
  have hx : (shareNode x).run ∅ = pure (x, (∅ : Representatives Int).insert x.signature x) :=
    represent_run_new (by simp) _
  have hy : (shareNode y).run ((∅ : Representatives Int).insert x.signature x) =
      pure (x, (∅ : Representatives Int).insert x.signature x) :=
    represent_run_kept (show _ = some x from Std.HashMap.getElem?_insert_self) _
  have hshared : (e.share.run 5).1 = node 5 (.assoc .add [x, x]) := by
    have hnew : (∅ : Representatives Int)[e.signature]? = none := by simp
    rw [share, shareWith, shareNode, represent_run_new hnew]
    simp [shareShape, shareNodes, hx, hy]
    rfl
  let L₁ := (Ledger.initial : Ledger Int).add (.var "x")
  let L₂ := L₁.add (.var "x")
  let L₃ := L₂.add (.assoc .add [x, y])
  have hxL : x.KnownTo L₁ := add_known (by simp [Shape.refs, Shape.children])
  have hyL : y.KnownTo L₂ := add_known (by simp [Shape.refs, Shape.children])
  have heL : e.KnownTo L₃ :=
    add_known (by simpa [Shape.refs, Shape.children] using ⟨hxL.mono (L₁.extends_add _), hyL⟩)
  have hsharedL : (node 5 (.assoc .add [x, x])).KnownTo (L₃.add (.assoc .add [x, x])) :=
    add_known (by
      simpa [Shape.refs, Shape.children] using
        (hxL.mono (L₁.extends_add _)).mono (L₂.extends_add _))
  have hfree : ∀ (id : NodeId) (z : Formula Int), z = x ∨ z = y →
      (node id (.assoc .add [x, z])).SolverFree := by
    intro id z hz
    refine .node (by simp) ?_
    have hleaf : ∀ v : NodeId, (node v (.var "x") : Formula Int).SolverFree := fun v =>
      .node (by simp) (by simp [Shape.children])
    rcases hz with rfl | rfl
    · simpa [Shape.children] using hleaf 2
    · simpa [Shape.children] using ⟨hleaf 2, hleaf 3⟩
  have hs : s.Reachable := (Store.Reachable.empty.write 2 1).write 3 2
  have hread : s.read 2 = 1 ∧ s.read 3 = 2 := by
    simp [s, Store.read_write, Valuation.set]
  rw [hshared, evaluate_run (hfree 4 y (.inr rfl)) heL.listed hs,
    evaluate_run (hfree 5 x (.inl rfl)) hsharedL.listed hs]
  simp only [value, values, x, y, hread]
  decide

end FormulaGraph
