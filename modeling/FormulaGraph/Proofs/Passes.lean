import FormulaGraph.Formula.Simplification
import FormulaGraph.Proofs.Building

/-!
# Passes that keep their results

A pass goes through a graph from the leaves up and keeps the image of every node
under the number of that node.  Suppose a relation `R` between nodes and images
is never lost when further nodes are built.  Then a kept image can be trusted: the
number it is found under belongs to one known node, the one it was computed for
(`once_carries`).  What remains to be shown of a pass is what its step makes of
images of the children.
-/

namespace FormulaGraph

variable {α β γ : Type} [Scalar α]

/-- Every image kept is that of a known node. -/
def Images.Sound (R : Formula α → Ledger α → Formula α → Prop) (L : Ledger α)
    (images : Images α) : Prop :=
  ∀ (id : NodeId) (d : Formula α), images[id]? = some d → ∃ e, e.KnownTo L ∧ e.id = id ∧ R e L d

variable {R : Formula α → Ledger α → Formula α → Prop} {L L' : Ledger α}
  {P : Ledger α → β → Prop}

theorem Images.sound_empty : Images.Sound R L (∅ : Images α) := by
  intro id d h
  simp at h

theorem Images.sound_lasting (hR : ∀ e, Lasting (R e)) : Lasting (Images.Sound R) := by
  intro L L' images hL h id d hd
  obtain ⟨e, hknown, hid, hrel⟩ := h id d hd
  exact ⟨e, hknown.mono hL, hid, hR e hL hrel⟩

theorem Images.Sound.insert {images : Images α} (h : images.Sound R L) {e d : Formula α}
    (he : e.KnownTo L) (hd : R e L d) : Images.Sound R L (images.insert e.id d) := by
  intro id d' hd'
  rw [Std.HashMap.getElem?_insert] at hd'
  by_cases hid : e.id = id
  · rw [if_pos (beq_iff_eq.mpr hid)] at hd'
    rw [← Option.some.inj hd']
    exact ⟨e, he, hid, hd⟩
  · rw [if_neg (by simpa using hid)] at hd'
    exact h id d' hd'

/-- The answer of a pass begun with no images. -/
theorem Carries.answer {x : Pass α β} (hx : Carries (Images.Sound R) x L P) :
    Builds (do return (← x.run ∅).1) L P := by
  refine (hx ∅ Images.sound_empty).bind ?_
  intro L' answer _ hboth
  obtain ⟨b, images⟩ := answer
  obtain ⟨_, hb⟩ := hboth
  exact .pure hb

/-- Every image is one of some node. -/
theorem exists_of_forall₂ {β γ : Type} {R : β → γ → Prop} {es : List β} {ds : List γ}
    (h : List.Forall₂ R es ds) : ∀ d ∈ ds, ∃ e ∈ es, R e d := by
  induction h with
  | nil => simp
  | cons hhead _ ih =>
      intro d hd
      rcases List.mem_cons.mp hd with rfl | hd
      · exact ⟨_, List.mem_cons_self, hhead⟩
      · obtain ⟨e, he, hR⟩ := ih d hd
        exact ⟨e, List.mem_cons_of_mem _ he, hR⟩

/-- What holds of all images. -/
theorem forall_of_forall₂ {β γ : Type} {R : β → γ → Prop} {P : γ → Prop} {es : List β}
    {ds : List γ} (h : List.Forall₂ R es ds) (hR : ∀ e d, R e d → P d) : ∀ d ∈ ds, P d := by
  intro d hd
  obtain ⟨e, _, hed⟩ := exists_of_forall₂ h d hd
  exact hR e d hed

namespace Formula

omit [Scalar α] in
/-- What is kept is not computed again. -/
theorem once_found {id : NodeId} {images : Images α} {d : Formula α} (h : images[id]? = some d)
    (compute : Pass α (Formula α)) : (once id compute).run images = pure (d, images) := by
  simp [once, StateT.run_bind, h]

omit [Scalar α] in
/-- What is not kept is computed and kept. -/
theorem once_missing {id : NodeId} {images : Images α} (h : images[id]? = none)
    (compute : Pass α (Formula α)) :
    (once id compute).run images = compute.run images >>= fun done =>
      pure (done.1, done.2.insert id done.1) := by
  simp [once, StateT.run_bind, h]

/-- An image kept for a number is one of the node that bears it. -/
theorem once_carries {e : Formula α} (he : e.KnownTo L) {compute : Pass α (Formula α)}
    (hx : Carries (Images.Sound R) compute L (R e)) :
    Carries (Images.Sound R) (once e.id compute) L (R e) := by
  intro images himages
  cases hfound : images[e.id]? with
  | some d =>
      obtain ⟨e', he', hid, hd⟩ := himages _ d hfound
      rw [once_found hfound, ← he'.eq_of_id_eq he hid]
      exact .pure ⟨himages, hd⟩
  | none =>
      rw [once_missing hfound]
      refine (hx images himages).bind ?_
      intro L' answer hL hboth
      obtain ⟨d, images'⟩ := answer
      obtain ⟨himages', hd⟩ := hboth
      exact .pure ⟨himages'.insert (he.mono hL) hd, hd⟩

/-- Begun with no images, the one step decides the answer, whatever is said of the images of
the nodes within. -/
theorem once_answer {id : NodeId} {compute : Pass α (Formula α)}
    {P : Ledger α → Formula α → Prop} (hx : Carries (Images.Sound R) compute L P) :
    Builds (do return (← (once id compute).run ∅).1) L P := by
  rw [once_missing (by simp), bind_assoc]
  refine (hx ∅ Images.sound_empty).bind ?_
  intro L' answer _ hboth
  exact .pure hboth.2

/-! ## Nodes over other children -/

variable {A : Formula α → Prop}

/-- The property passes from a node and other children to the node rebuilt over them. -/
structure AdmitsRebuilding (A : Formula α → Prop) : Prop extends AdmitsOperations A where
  withChildren : ∀ {e : Formula α} {shape : Shape α (Formula α)} {es : List (Formula α)},
    A e → (∀ d ∈ es, A d) → e.shape.withChildren? es = some shape → ∀ id, A (node id shape)

omit [Scalar α] in
theorem trivial_admitsRebuilding : AdmitsRebuilding fun _ : Formula α => True where
  toAdmitsOperations := trivial_admitsOperations
  withChildren _ _ _ _ := trivial

omit [Scalar α] in
/-- Over other children a node refers to these, and to nothing else it has not
referred to before. -/
theorem children_of_withChildren {shape shape' : Shape α (Formula α)} {es : List (Formula α)}
    (h : shape.withChildren? es = some shape') :
    shape'.children = es ∧ ∀ r ∈ shape'.refs, r ∈ es ∨ r ∈ shape.refs := by
  unfold Shape.withChildren? at h
  split at h <;> cases h
  · exact ⟨rfl, fun r hr => .inl hr⟩
  · exact ⟨rfl, fun r hr => .inl hr⟩
  · exact ⟨rfl, fun r hr => .inl hr⟩
  · exact ⟨rfl, fun r hr => .inl hr⟩
  · refine ⟨rfl, ?_⟩
    intro r hr
    rcases List.mem_cons.mp hr with hr | hr
    · exact .inl (List.mem_singleton.mpr hr)
    · exact .inr (List.mem_cons_of_mem _ hr)
  · refine ⟨rfl, ?_⟩
    intro r hr
    simp only [Shape.refs, Solver.refs, Solver.children, List.cons_append, List.nil_append,
      List.mem_cons, List.not_mem_nil, or_false] at hr ⊢
    tauto

omit [Scalar α] in
/-- Over other children, only a solver is a solver. -/
theorem not_solver_of_withChildren {shape shape' : Shape α (Formula α)} {es : List (Formula α)}
    (hfree : ∀ s, shape ≠ .solver s) (h : shape.withChildren? es = some shape') :
    ∀ s, shape' ≠ .solver s := by
  rintro s rfl
  unfold Shape.withChildren? at h
  split at h <;> cases h
  exact hfree _ rfl

omit [Scalar α] in
/-- Over other children, no node is a variable. -/
theorem not_var_of_withChildren {shape shape' : Shape α (Formula α)} {es : List (Formula α)}
    (h : shape.withChildren? es = some shape') : ∀ name, shape' ≠ .var name := by
  rintro name rfl
  unfold Shape.withChildren? at h
  split at h <;> cases h

omit [Scalar α] in
/-- Rebuilding a node leads from solver-free nodes to solver-free nodes. -/
theorem solverFree_admitsRebuilding : AdmitsRebuilding (SolverFree (α := α)) where
  toAdmitsOperations := by
    refine everywhere_admitsOperations (by simp) ?_
    rintro id shape hshape s rfl
    exact hshape
  withChildren := by
    intro e shape es he hes h id
    refine .node (not_solver_of_withChildren he.here h) ?_
    rw [(children_of_withChildren h).1]
    exact hes

omit [Scalar α] in
theorem eq_of_withChildren_children {shape shape' : Shape α (Formula α)}
    (h : shape.withChildren? shape.children = some shape') : shape' = shape := by
  cases shape <;> simp_all [Shape.withChildren?, Shape.children, Solver.children]

omit [Scalar α] in
/-- Any node but a leaf can be put over as many other children. -/
theorem exists_withChildren {shape : Shape α (Formula α)} {ds : List (Formula α)}
    (hvar : ∀ name, shape ≠ .var name) (hconst : ∀ v, shape ≠ .const v)
    (h : ds.length = shape.children.length) : ∃ shape', shape.withChildren? ds = some shape' := by
  cases shape with
  | const v => exact absurd rfl (hconst v)
  | var name => exact absurd rfl (hvar name)
  | assoc op args => exact ⟨_, rfl⟩
  | unary op a =>
      obtain ⟨a', rfl⟩ := List.length_eq_one_iff.mp h
      exact ⟨_, rfl⟩
  | tabulated mark t a =>
      obtain ⟨a', rfl⟩ := List.length_eq_one_iff.mp h
      exact ⟨_, rfl⟩
  | binary op a b =>
      obtain ⟨a', b', rfl⟩ := List.length_eq_two.mp h
      exact ⟨_, rfl⟩
  | conditional op c a b =>
      obtain ⟨c', a', b', rfl⟩ := List.length_eq_three.mp h
      exact ⟨_, rfl⟩
  | solver s =>
      match ds, h with
      | [body, low, high, precision], _ => exact ⟨_, rfl⟩

/-- Known formulas with the same numbers are the same. -/
theorem eq_of_sameAll {es ds : List (Formula α)} (hes : ∀ e ∈ es, e.KnownTo L)
    (hds : ∀ d ∈ ds, d.KnownTo L) (h : sameAll es ds = true) : es = ds := by
  induction es generalizing ds with
  | nil =>
      cases ds with
      | nil => rfl
      | cons d ds => cases h
  | cons e es ih =>
      cases ds with
      | nil => cases h
      | cons d ds =>
          obtain ⟨hhead, htail⟩ := Bool.and_eq_true_iff.mp h
          have hid : e.id = d.id := beq_iff_eq.mp hhead
          rw [(hes e List.mem_cons_self).eq_of_id_eq (hds d List.mem_cons_self) hid,
            ih (fun e' h' => hes e' (List.mem_cons_of_mem e h'))
              (fun d' h' => hds d' (List.mem_cons_of_mem d h')) htail]

omit [Scalar α] in
theorem sameAll_self (es : List (Formula α)) : sameAll es es = true := by
  induction es with
  | nil => rfl
  | cons e es ih => simp [sameAll, same, ih]

theorem rebuild_builds (hA : AdmitsRebuilding A) {e : Formula α} {es : List (Formula α)}
    (he : e.Member A L) (hes : ∀ d ∈ es, d.Member A L) :
    Builds (rebuild e es) L (fun L' d => d.Member A L') := by
  rw [rebuild]
  cases hshape : e.shape.withChildren? es with
  | none => exact .pure he
  | some shape =>
      obtain ⟨hchildren, hrefs⟩ := children_of_withChildren hshape
      have hmember : ∀ c ∈ shape.children, c.Member A L := by
        rw [hchildren]
        exact hes
      have hknown : ∀ r ∈ shape.refs, r.KnownTo L := by
        intro r hr
        rcases hrefs r hr with h | h
        · exact (hes r h).known
        · exact he.known.ref h
      have hrebuilt := hA.withChildren he.holds (fun d hd => (hes d hd).holds) hshape
      exact ofShape_builds hA.toAdmitsOperations hmember (new_builds hrebuilt hknown)

/-! ## The pass that simplifies -/

/-- Over simplified children, a node is itself if they are its own and no rule applies, and
otherwise the simple node for its shape over them. -/
theorem simplifyOver_builds_of {e : Formula α} {shape : Shape α (Formula α)}
    {ds : List (Formula α)} {P : Ledger α → Formula α → Prop} (he : e.KnownTo L)
    (hds : ∀ d ∈ ds, d.KnownTo L) (hshape : e.shape.withChildren? ds = some shape)
    (hself : e.shape = shape → rootRule shape = none → P L e)
    (hnew : Builds (ofShape shape) L P) : Builds (simplifyOver e ds) L P := by
  rw [simplifyOver]
  split
  · next hsame =>
      rw [← eq_of_sameAll (fun c hc => he.child hc) hds hsame] at hshape
      obtain rfl := eq_of_withChildren_children hshape
      cases hrule : rootRule e.shape with
      | none => exact .pure (hself rfl hrule)
      | some r => rwa [ofShape, hrule] at hnew
  · rwa [rebuild, hshape]

section Simplification

variable {H : Ledger α → Formula α → Prop} {R : Formula α → Ledger α → Formula α → Prop}

/-- A node with children is simplified over its simplified children. -/
theorem simplifyShape_eq (e : Formula α) {shape : Shape α (Formula α)}
    (h : shape.children ≠ []) :
    simplifyShape e shape =
      (do simplifyOver e (← simplifyNodes shape.children) : Pass α (Formula α)) := by
  cases shape with
  | assoc op args =>
      cases args with
      | nil => exact absurd rfl h
      | cons a args => simp only [simplifyShape, Shape.children]
  | solver s =>
      obtain ⟨body, bound, low, high, precision, guard⟩ := s
      simp [simplifyShape, Shape.children, Solver.children, simplifyNodes]
  | const v => exact absurd rfl h
  | var name => exact absurd rfl h
  | _ => simp [simplifyShape, Shape.children, simplifyNodes]

theorem simplifyShape_leaf (e : Formula α) {shape : Shape α (Formula α)}
    (h : shape.children = []) : simplifyShape e shape = pure e := by
  cases shape with
  | assoc op args =>
      have hargs : args = [] := h
      rw [hargs, simplifyShape]
  | const v => rfl
  | var name => rfl
  | _ => cases h

theorem simplifyNodes_eq_mapM (es : List (Formula α)) :
    simplifyNodes es = es.mapM simplifyNode := by
  induction es with
  | nil => rw [simplifyNodes, List.mapM_nil]
  | cons e es ih => rw [simplifyNodes, List.mapM_cons, ih]

/-- **The pass, from its step.**  A relation that holds between every leaf and itself, and
that the step extends from the children to the node, holds between every node of the pass
and its image. -/
theorem simplifyNode_carries (hlasting : Lasting H) (hknown : ∀ {L e}, H L e → e.KnownTo L)
    (hchild : ∀ {L} {e c : Formula α}, H L e → c ∈ e.children → H L c) (hR : ∀ e, Lasting (R e))
    (hself : ∀ {L} {e : Formula α}, H L e → e.children = [] → R e L e)
    (hover : ∀ {L} {e : Formula α} {ds : List (Formula α)}, H L e → e.children ≠ [] →
      List.Forall₂ (fun e d => R e L d) e.children ds →
      Builds (simplifyOver e ds) L (R e))
    (e : Formula α) {L : Ledger α} (he : H L e) :
    Carries (Images.Sound R) (simplifyNode e) L (R e) := by
  induction e using inductionOnRefs generalizing L with
  | h id shape ih =>
      rw [simplifyNode]
      refine once_carries (e := node id shape) (hknown he) ?_
      by_cases hleaf : shape.children = []
      · rw [simplifyShape_leaf _ hleaf]
        exact .pure (hself he hleaf)
      · rw [simplifyShape_eq _ hleaf]
        rw [simplifyNodes_eq_mapM]
        refine .bind (.mapM hlasting hR
          (fun c hc _ => ih c (Shape.mem_refs_of_mem_children hc)) fun c hc => hchild he hc) ?_
        intro L' ds hL hds
        exact .lift (Images.sound_lasting hR) (hover (hlasting hL he) hleaf hds)

end Simplification

end Formula

end FormulaGraph
