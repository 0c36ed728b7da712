import FormulaGraph.Formula.Replacement
import FormulaGraph.Proofs.Passes

/-!
# The pass that replaces variables

A node is replaced over its replaced children, and a variable by what is put there.
The body of a solver is replaced in a pass of its own, by a replacement that leaves the
bound variable alone and with images of its own, so nothing that was put there is found
again outside.  What such a pass does depends on a **context** that changes on the way
into a body.  A relation between nodes and images in their contexts holds of the pass
as soon as it holds of its steps (`Replaces.carries`).
-/

namespace FormulaGraph

/-- The kinds of nodes that the pass tells apart. -/
inductive Shape.Kind {α ε : Type} : Shape α ε → Prop
  | var (name : String) : Kind (.var name)
  | const (v : α) : Kind (.const v)
  | solver (s : Solver α ε) : Kind (.solver s)
  | compound {shape : Shape α ε} (hvar : ∀ name, shape ≠ .var name)
      (hconst : ∀ v, shape ≠ .const v) (hsolver : ∀ s, shape ≠ .solver s) : Kind shape

theorem Shape.kind {α ε : Type} (shape : Shape α ε) : shape.Kind := by
  cases shape with
  | var name => exact .var name
  | const v => exact .const v
  | solver s => exact .solver s
  | _ => exact .compound (by simp) (by simp) (by simp)

variable {α : Type} [Scalar α] {L L' : Ledger α}

namespace Formula

theorem replaceNodes_eq_mapM (r : Replacement α) (es : List (Formula α)) :
    replaceNodes r es = es.mapM (replaceNode r) := by
  induction es with
  | nil => rw [replaceNodes, List.mapM_nil]
  | cons e es ih => rw [replaceNodes, List.mapM_cons, ih]

/-- A node that is neither a variable nor a solver is replaced over its children. -/
theorem replaceShape_eq (r : Replacement α) (e : Formula α) {shape : Shape α (Formula α)}
    (hvar : ∀ name, shape ≠ .var name) (hconst : ∀ v, shape ≠ .const v)
    (hsolver : ∀ s, shape ≠ .solver s) :
    replaceShape r e shape =
      (do replaceOver e (← shape.children.mapM (replaceNode r)) : Pass α (Formula α)) := by
  cases shape with
  | assoc op args => simp only [replaceShape, replaceNodes_eq_mapM, Shape.children]
  | const v => exact absurd rfl (hconst v)
  | var name => exact absurd rfl (hvar name)
  | solver s => exact absurd rfl (hsolver s)
  | _ => simp [replaceShape, Shape.children]

/-- A solver is replaced over its children, the body apart from the others. -/
theorem replaceShape_solver (r : Replacement α) (e : Formula α)
    (s : Solver α (Formula α)) :
    replaceShape r e (.solver s) = (do
      let body ← liftM ((replaceNode (r.except s.bound.id) s.body).run ∅)
      let low ← replaceNode r s.low
      let high ← replaceNode r s.high
      let precision ← replaceNode r s.precision
      replaceOver e [body.1, low, high, precision] : Pass α (Formula α)) := by
  obtain ⟨body, bound, low, high, precision, guard⟩ := s
  simp [replaceShape]

/-- Over other children, a node is itself if they are its own, and otherwise the simple
node for its shape over them. -/
theorem replaceOver_builds {e : Formula α} {shape : Shape α (Formula α)} {ds : List (Formula α)}
    {P : Ledger α → Formula α → Prop} (he : e.KnownTo L) (hds : ∀ d ∈ ds, d.KnownTo L)
    (hshape : e.shape.withChildren? ds = some shape) (hself : e.shape = shape → P L e)
    (hnew : Builds (ofShape shape) L P) : Builds (replaceOver e ds) L P := by
  rw [replaceOver]
  split
  · next hsame =>
      rw [← eq_of_sameAll (fun c hc => he.child hc) hds hsame] at hshape
      exact .pure (hself (eq_of_withChildren_children hshape).symm)
  · rw [rebuild, hshape]
    exact hnew

/-- Over members of a property that operations pass on, a node is rebuilt as a member, if nodes of
the new shape are.  What they and the simple node of this shape satisfy besides, it satisfies. -/
theorem replaceOver_satisfies {A P : Formula α → Prop} (hA : AdmitsOperations A) {e : Formula α}
    {shape : Shape α (Formula α)} {ds : List (Formula α)} (he : e.KnownTo L)
    (hds : ∀ d ∈ ds, d.Member A L) (hshape : e.shape.withChildren? ds = some shape)
    (hnode : ∀ id, A (node id shape) ∧ P (node id shape)) (hsimple : Yields (ofShape shape) P) :
    Builds (replaceOver e ds) L fun L' d => d.Member A L' ∧ P d := by
  obtain ⟨hchildren, hrefs⟩ := children_of_withChildren hshape
  refine replaceOver_builds he (fun d hd => (hds d hd).known) hshape ?_ ?_
  · intro hself
    obtain ⟨id, eshape⟩ := e
    obtain rfl : eshape = shape := hself
    exact ⟨⟨he, (hnode id).1⟩, (hnode id).2⟩
  · have hknown : ∀ r ∈ shape.refs, r.KnownTo L := by
      intro r hr
      rcases hrefs r hr with hr | hr
      · exact (hds r hr).known
      · exact he.ref hr
    exact (ofShape_builds hA (fun d hd => hds d (hchildren ▸ hd))
      (new_builds (fun id => (hnode id).1) hknown)).and_yields hsimple

theorem replaceOver_member {A : Formula α → Prop} (hA : AdmitsOperations A) {e : Formula α}
    {shape : Shape α (Formula α)} {ds : List (Formula α)} (he : e.KnownTo L)
    (hds : ∀ d ∈ ds, d.Member A L) (hshape : e.shape.withChildren? ds = some shape)
    (hnode : ∀ id, A (node id shape)) :
    Builds (replaceOver e ds) L fun L' d => d.Member A L' :=
  (replaceOver_satisfies (P := fun _ => True) hA he hds hshape (fun id => ⟨hnode id, trivial⟩)
    fun _ => trivial).mono fun _ _ _ h => h.1

theorem replaceOver_known {e : Formula α} {shape : Shape α (Formula α)} {ds : List (Formula α)}
    (he : e.KnownTo L) (hds : ∀ d ∈ ds, d.KnownTo L)
    (hshape : e.shape.withChildren? ds = some shape) :
    Builds (replaceOver e ds) L fun L' d => d.KnownTo L' := by
  refine replaceOver_builds he hds hshape (fun _ => he) (ofShape_known ?_)
  intro r hr
  rcases (children_of_withChildren hshape).2 r hr with h | h
  · exact hds r h
  · exact he.ref h

/-- A solver over other parts is a solver again. -/
theorem replaceOver_solver_builds {id : NodeId} {s : Solver α (Formula α)}
    {body low high precision : Formula α} {P : Ledger α → Formula α → Prop}
    (h : (node id (.solver s)).KnownTo L) (hds : ∀ d ∈ [body, low, high, precision], d.KnownTo L)
    (hP : ∀ L' id', L.Extends L' →
      (node id' (.solver { s with body, low, high, precision })).KnownTo L' →
      P L' (node id' (.solver { s with body, low, high, precision }))) :
    Builds (replaceOver (node id (.solver s)) [body, low, high, precision]) L P := by
  have hshape : (Shape.solver s).withChildren? [body, low, high, precision] =
      some (.solver { s with body, low, high, precision }) := rfl
  refine replaceOver_builds h hds hshape ?_ ?_
  · intro hself
    have hown := hP L id (.refl L)
    rw [← hself] at hown
    exact hown h
  · have hrefs : ∀ r ∈ (Shape.solver { s with body, low, high, precision }).refs,
        r.KnownTo L := by
      intro r hr
      rcases (children_of_withChildren hshape).2 r hr with hr | hr
      · exact hds r hr
      · exact h.ref hr
    have hnew : Yields (ofShape (.solver { s with body, low, high, precision })) fun e =>
        ∃ id', e = node id' (.solver { s with body, low, high, precision }) :=
      .new fun id' => ⟨id', rfl⟩
    refine ((Builds.new hrefs).and_yields hnew).mono ?_
    rintro L' e hL ⟨hknown, id', rfl⟩
    exact hP L' id' hL hknown

/-! ## The pass, from its steps -/

/-- The images of the parts of a solver, its body replaced in another context. -/
theorem replaceSolver_carries {r : Replacement α} {e : Formula α} {s : Solver α (Formula α)}
    {R R' : Formula α → Ledger α → Formula α → Prop} {P : Ledger α → Formula α → Prop}
    (hR : ∀ e, Lasting (R e)) (hR' : ∀ e, Lasting (R' e))
    (hbody : Carries (Images.Sound R') (replaceNode (r.except s.bound.id) s.body) L (R' s.body))
    (hbounds : ∀ c ∈ (Shape.solver s).passParts, ∀ L', L.Extends L' →
      Carries (Images.Sound R) (replaceNode r c) L' (R c))
    (hover : ∀ {L' body low high precision}, L.Extends L' → R' s.body L' body →
      R s.low L' low → R s.high L' high → R s.precision L' precision →
      Builds (replaceOver e [body, low, high, precision]) L' P) :
    Carries (Images.Sound R) (replaceShape r e (.solver s)) L P := by
  rw [replaceShape_solver]
  refine .bind (.lift (Images.sound_lasting hR) (hbody ∅ Images.sound_empty)) ?_
  intro L₁ body hL₁ hdone
  refine .bind (hbounds s.low (by simp [Shape.passParts]) L₁ hL₁) ?_
  intro L₂ low hL₂ hlow
  refine .bind (hbounds s.high (by simp [Shape.passParts]) L₂ (hL₁.trans hL₂)) ?_
  intro L₃ high hL₃ hhigh
  refine .bind (hbounds s.precision (by simp [Shape.passParts]) L₃
    ((hL₁.trans hL₂).trans hL₃)) ?_
  intro L₄ precision hL₄ hprecision
  refine .lift (Images.sound_lasting hR) (hover (((hL₁.trans hL₂).trans hL₃).trans hL₄) ?_ ?_ ?_
    hprecision)
  · exact hR' _ ((hL₂.trans hL₃).trans hL₄) hdone.2
  · exact hR _ (hL₃.trans hL₄) hlow
  · exact hR _ hL₄ hhigh

/-- What the steps of a pass have to do, in every context, to lead from nodes with `H` to
images in the relation `R`. -/
structure Replaces {κ : Type} (r : κ → Replacement α) (under : κ → NodeId → κ)
    (H : κ → Ledger α → Formula α → Prop)
    (R : κ → Formula α → Ledger α → Formula α → Prop) : Prop where
  except : ∀ k v, r (under k v) = (r k).except v
  lasting : ∀ k, Lasting (H k)
  imageLasting : ∀ k e, Lasting (R k e)
  known : ∀ {k L e}, H k L e → e.KnownTo L
  part : ∀ {k L e c}, H k L e → c ∈ e.shape.passParts → H k L c
  body : ∀ {k L id s}, H k L (node id (.solver s)) → H (under k s.bound.id) L s.body
  const : ∀ {k L id v}, H k L (node id (.const v)) → R k (node id (.const v)) L (node id (.const v))
  kept : ∀ {k L id name}, H k L (node id (.var name)) → r k ⟨id, name⟩ = none →
    R k (node id (.var name)) L (node id (.var name))
  put : ∀ {k L id name}, H k L (node id (.var name)) → ∀ x ∈ r k ⟨id, name⟩,
    Builds x L (R k (node id (.var name)))
  rebuilt : ∀ {k L e ds shape}, H k L e → (∀ s, e.shape ≠ .solver s) →
    List.Forall₂ (fun c d => R k c L d) e.children ds → e.shape.withChildren? ds = some shape →
    Builds (replaceOver e ds) L (R k e)
  solver : ∀ {k L id s body low high precision}, H k L (node id (.solver s)) →
    R (under k s.bound.id) s.body L body → R k s.low L low → R k s.high L high →
    R k s.precision L precision →
    Builds (replaceOver (node id (.solver s)) [body, low, high, precision]) L
      (R k (node id (.solver s)))

section

variable {κ : Type} {r : κ → Replacement α} {under : κ → NodeId → κ}
  {H : κ → Ledger α → Formula α → Prop} {R : κ → Formula α → Ledger α → Formula α → Prop}

/-- **The pass, from its steps.** -/
theorem Replaces.carries (h : Replaces r under H R) (e : Formula α) {k : κ} {L : Ledger α}
    (he : H k L e) : Carries (Images.Sound (R k)) (replaceNode (r k) e) L (R k e) := by
  have hlasting := fun k => Images.sound_lasting (h.imageLasting k)
  induction e using inductionOnRefs generalizing k L with
  | h id shape ih =>
      have hpart : ∀ c ∈ shape.passParts, ∀ L', H k L' c →
          Carries (Images.Sound (R k)) (replaceNode (r k) c) L' (R k c) := fun c hc _ hmember =>
        ih c (Shape.mem_refs_of_mem_passParts hc) hmember
      rw [replaceNode]
      refine once_carries (e := node id shape) (h.known he) ?_
      cases shape.kind with
      | var name =>
          rw [replaceShape]
          cases hput : r k ⟨id, name⟩ with
          | some put =>
              simp only [id_node, hput]
              exact .lift (hlasting k) (h.put he put hput)
          | none =>
              simp only [id_node, hput]
              exact .pure (h.kept he hput)
      | const v => exact .pure (h.const he)
      | solver s =>
          have hbody := ih s.body (Shape.mem_refs_of_mem_trialParts List.mem_cons_self) (h.body he)
          rw [h.except] at hbody
          refine replaceSolver_carries (h.imageLasting k) (h.imageLasting _) hbody ?_ ?_
          · intro c hc L' hL
            exact hpart c hc L' (h.lasting k hL (h.part he hc))
          · intro L' body low high precision hL
            exact h.solver (h.lasting k hL he)
      | compound hvar hconst hfree =>
          rw [replaceShape_eq _ _ hvar hconst hfree]
          rw [Shape.passParts_eq_children hfree] at hpart
          have hchild : ∀ c ∈ shape.children, H k L c := fun c hc =>
            h.part he (by rwa [shape_node, Shape.passParts_eq_children hfree])
          refine .bind (.mapM (h.lasting k) (h.imageLasting k)
            (fun c hc L' hmember => hpart c hc L' hmember) hchild) ?_
          intro L' ds hL hds
          obtain ⟨shape', hshape⟩ := exists_withChildren hvar hconst hds.length_eq.symm
          exact .lift (hlasting k) (h.rebuilt (h.lasting k hL he) hfree hds hshape)

end

/-! ## Replacing variables keeps nodes known -/

/-- The replacement puts known formulas, now and later. -/
def PutsKnown (L : Ledger α) (r : Replacement α) : Prop :=
  ∀ L', L.Extends L' → ∀ v, ∀ put ∈ r v, Builds put L' fun L'' d => d.KnownTo L''

theorem ofPairs_putsKnown {pairs : List (NodeId × Formula α)}
    (h : ∀ p ∈ pairs, p.2.KnownTo L) : PutsKnown L (.ofPairs pairs) := by
  intro L' hL v put hput
  obtain ⟨p, hfound, rfl⟩ := Option.map_eq_some_iff.mp hput
  exact .pure ((h p (List.mem_of_find?_eq_some hfound)).mono hL)

theorem ofValues_putsKnown (values : NodeId → α) (excluded : List NodeId) :
    PutsKnown L (.ofValues values excluded) := by
  intro L' _ v put hput
  rw [Replacement.ofValues] at hput
  split at hput
  · cases hput
  · rw [← Option.some.inj hput]
    exact (constant_builds trivial_admitsOperations _).mono fun _ _ _ h => h.known

theorem replaces_known : Replaces (α := α) (fun r => r) Replacement.except
    (fun r L e => PutsKnown L r ∧ e.KnownTo L) fun _ _ L d => d.KnownTo L where
  except _ _ := rfl
  lasting _ _ _ _ hL h := ⟨fun L'' hL' => h.1 L'' (hL.trans hL'), h.2.mono hL⟩
  imageLasting _ _ _ _ _ hL h := h.mono hL
  known h := h.2
  part h hc := ⟨h.1, h.2.ref (Shape.mem_refs_of_mem_passParts hc)⟩
  body {r L id s} h := by
    refine ⟨?_, h.2.ref (Shape.mem_refs_of_mem_trialParts List.mem_cons_self)⟩
    intro L' hL v put hput
    rw [Replacement.except] at hput
    split at hput
    · cases hput
    · exact h.1 L' hL v put hput
  const h := h.2
  kept h _ := h.2
  put {_ L _ _} h put hput := h.1 L (.refl L) _ put hput
  rebuilt {r L e ds shape} h _ hds hshape :=
    replaceOver_known h.2 (forall_of_forall₂ hds fun _ _ h => h) hshape
  solver h hbody hlow hhigh hprecision :=
    replaceOver_known h.2 (by simpa using ⟨hbody, hlow, hhigh, hprecision⟩) rfl

/-- What is put together from known formulas by substitution is known. -/
theorem substitute_known {pairs : List (NodeId × Formula α)} {e : Formula α}
    (hpairs : ∀ p ∈ pairs, p.2.KnownTo L) (he : e.KnownTo L) :
    Builds (substitute pairs e) L fun L' d => d.KnownTo L' :=
  (replaces_known.carries (k := Replacement.ofPairs pairs) e
    ⟨ofPairs_putsKnown hpairs, he⟩).answer

/-- A known formula stays one when it is frozen. -/
theorem freeze_known (values : NodeId → α) (excluded : List NodeId) {e : Formula α}
    (he : e.KnownTo L) : Builds (freeze values excluded e) L fun L' d => d.KnownTo L' :=
  (replaces_known.carries (k := Replacement.ofValues values excluded) e
    ⟨ofValues_putsKnown values excluded, he⟩).answer

end Formula

end FormulaGraph
