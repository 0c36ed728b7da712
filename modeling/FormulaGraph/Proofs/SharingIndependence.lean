import FormulaGraph.Proofs.MemoFreeDerivatives
import FormulaGraph.Proofs.SharedValue

/-!
# Results do not depend on what is shared

Two graphs may unfold to one tree and share different parts, and they may come from benches
with different histories: other formulas built in between, other passes, other parts shared,
other derivatives asked for, remembered and forgotten.  Simplifying them, putting formulas or
values in the place of variables and taking derivatives gives results that unfold to one tree
again, and are displayed alike (`same_results`).

For simplification and for derivatives this holds without condition.  Substitution and
freezing leave a node as it is where no child has changed, and rebuild it elsewhere, so the
formulas they are applied to have to be simplified to themselves; the formulas put in need
not be.
-/

namespace FormulaGraph

open Formula

variable {α : Type} [Scalar α]

/-- Numbers apart, the formulas are the same: they unfold to one tree, and are displayed
alike. -/
structure Formula.LooksLike [ScalarText α] (d e : Formula α) : Prop where
  tree : d.tree = e.tree
  display : d.display = e.display

/-- What the two computations are known to give unfolds to one tree. -/
theorem Formula.LooksLike.of_agree [ScalarText α] {x y : Fresh (Formula α)} {d e : Formula α}
    (hd : Agree Formula.tree x (pure d)) (he : Agree Formula.tree y (pure e))
    (h : Agree Formula.tree x y) : d.LooksLike e := by
  have htree : d.tree = e.tree := (hd.symm.trans (h.trans he)) 0 0
  exact ⟨htree, display_eq_of_tree_eq htree⟩

namespace Workbench

/-! ## Benches with a history -/

/-- The formula simplified now. -/
def simplified (w : Workbench α) (e : Formula α) : Formula α := (e.simplify.run w.next).1

/-- Whole passes over what is at hand. -/
inductive OffersPass (w : Workbench α) : Fresh (Formula α) → Prop
  | simplify {e : Formula α} (he : e ∈ w.atHand) : OffersPass w e.simplify
  | substitute {e : Formula α} {pairs : List (NodeId × Formula α)} (he : e ∈ w.atHand)
      (hpairs : ∀ p ∈ pairs, p.2 ∈ w.atHand) : OffersPass w (e.substitute pairs)
  | freeze {e : Formula α} (he : e ∈ w.atHand) (values : NodeId → α) (excluded : List NodeId) :
      OffersPass w (e.freeze values excluded)

/-- Puts at hand what equal parts of several formulas become when they are shared, also
between the formulas. -/
def placeShared [ScalarText α] (w : Workbench α) (es : List (Formula α)) : Workbench α :=
  let ((ds, _), next) := ((shareNodes es).run ∅).run w.next
  { w with atHand := ds ++ w.atHand, next }

/-- Workbenches that come about by work and by whole passes, in any order. -/
inductive Used [ScalarText α] : Workbench α → Prop
  | start : Used start
  | work {w : Workbench α} (hw : Used w) {a : Work α} (ha : w.Admits a) : Used (w.perform a)
  | pass {w : Workbench α} (hw : Used w) {x : Fresh (Formula α)} (hx : w.OffersPass x) :
      Used (w.place x)
  | share {w : Workbench α} (hw : Used w) {es : List (Formula α)}
      (hes : ∀ e ∈ es, e ∈ w.atHand) : Used (w.placeShared es)

variable {w w' : Workbench α} {L : Ledger α} {e e' : Formula α}
  {V : NodeId → Formula α → Formula α → Prop}

/-- A pass that is offered is accounted for. -/
theorem AccountedBy.pass (h : w.AccountedBy V L) {x : Fresh (Formula α)} (hx : w.OffersPass x) :
    ∃ L', (w.place x).AccountedBy V L' := by
  refine h.place ?_
  cases hx with
  | simplify he => exact (simplify_afresh (h.known _ he)).mono fun _ _ _ hd => hd.known
  | substitute he hpairs =>
      exact substitute_known (fun p hp => h.known _ (hpairs p hp)) (h.known _ he)
  | freeze he values excluded => exact freeze_known values excluded (h.known _ he)

/-- Sharing is accounted for. -/
theorem AccountedBy.placeShared [ScalarText α] (h : w.AccountedBy V L) {es : List (Formula α)}
    (hes : ∀ e ∈ es, e ∈ w.atHand) : ∃ L', (w.placeShared es).AccountedBy V L' := by
  have hknown : ∀ e ∈ es, e.KnownTo L := fun e he => h.known e (hes e he)
  obtain ⟨L', hL, hnext, _, hds⟩ := shareNodes_carries (.ofRoots hknown) merges_known
    (fun e he => ⟨e, he, .refl e⟩) hknown ∅ Representatives.sound_empty
  rw [h.next_eq] at hnext hds
  refine ⟨L', hnext, ?_, recollection_lasting hL h.sound⟩
  intro d hd
  rcases List.mem_append.mp hd with hd | hd
  · exact forall_of_forall₂ hds (fun _ _ hd => hd) d hd
  · exact (h.known d hd).mono hL

/-- Every bench in use has a ledger. -/
theorem Used.accounted [ScalarText α] (hV : HandedOn V) (hw : w.Used) : ∃ L, w.AccountedBy V L := by
  induction hw with
  | start => exact ⟨_, start_accounted⟩
  | work _ ha ih =>
      obtain ⟨L, hL⟩ := ih
      exact hL.perform hV ha
  | pass _ hx ih =>
      obtain ⟨L, hL⟩ := ih
      exact hL.pass hx
  | share _ hes ih =>
      obtain ⟨L, hL⟩ := ih
      exact hL.placeShared hes

/-- A node is built as it stands. -/
theorem Used.node [ScalarText α] (hw : w.Used) {shape : Shape α (Formula α)}
    (h : ∀ r ∈ shape.refs, r ∈ w.atHand) :
    Used ⟨.node w.next shape :: w.atHand, w.next + 1, w.recollection⟩ :=
  .work hw (a := .node shape) h

/-! ## What is done at a bench, against the recursion -/

/-- What is simplified is what plain recursion makes of it, apart from identities. -/
theorem AccountedBy.simplified_afresh (h : w.AccountedBy V L) (he : e ∈ w.atHand) :
    Agree tree (simplifyAfresh e) (pure (w.simplified e)) := by
  obtain ⟨_, _, _, hd⟩ := simplify_afresh (h.known e he)
  rw [h.next_eq] at hd
  exact hd.afresh

/-- Only simple formulas are simplified to themselves. -/
theorem AccountedBy.simplified_eq_iff (h : w.AccountedBy V L) (he : e ∈ w.atHand) :
    w.simplified e = e ↔ e.AllSimple := by
  rw [simplified, ← h.next_eq]
  exact simplify_eq_iff (h.known e he)

/-- What is substituted is what plain recursion makes of it. -/
theorem AccountedBy.substituted_afresh (h : w.AccountedBy V L) (he : e ∈ w.atHand)
    (hfixed : w.simplified e = e) {pairs : List (NodeId × Formula α)}
    (hpairs : ∀ p ∈ pairs, p.2 ∈ w.atHand) :
    Agree tree (replaceAfresh (.ofPairs pairs) e) (pure (w.substituted pairs e)) := by
  have hputs := ofPairs_putsKnown fun p hp => h.known _ (hpairs p hp)
  obtain ⟨_, _, _, hd⟩ := replace_afresh hputs (Replacement.ofPairs_agrees (.refl pairs))
    (h.known e he) ((h.simplified_eq_iff he).mp hfixed)
  rw [h.next_eq] at hd
  exact hd

/-- What is frozen is what plain recursion makes of it. -/
theorem AccountedBy.frozen_afresh (h : w.AccountedBy V L) (he : e ∈ w.atHand)
    (hfixed : w.simplified e = e) (values : NodeId → α) (excluded : List NodeId) :
    Agree tree (replaceAfresh (.ofValues values excluded) e)
      (pure (w.frozen values excluded e)) := by
  obtain ⟨_, _, _, hd⟩ := replace_afresh (ofValues_putsKnown values excluded)
    (Replacement.ofValues_agrees values excluded) (h.known e he)
    ((h.simplified_eq_iff he).mp hfixed)
  rw [h.next_eq] at hd
  exact hd

/-- What is remembered for a node unfolds to what the recursion makes of the tree. -/
theorem AccountedBy.remembered_afresh (h : w.AccountedBy RecursesTo L) (he : e ∈ w.atHand)
    {x : NodeId} {d : Formula α} (hd : d ∈ (Recollection.remembered? e.id x w.recollection).1) :
    Agree tree (derivativeAfresh x e) (pure d) := by
  obtain ⟨e', he', hid, hderivative⟩ := (h.sound.remembered e.id x).2 d hd
  rw [← he'.eq_of_id_eq (h.known e he) hid]
  exact hderivative.handedOn

/-- What is differentiated is what plain recursion makes of it, whatever was remembered before.
-/
theorem AccountedBy.derivative_afresh (h : w.AccountedBy RecursesTo L) (he : e ∈ w.atHand)
    (x : NodeId) : Agree tree (derivativeAfresh x e) (pure (w.derivative e x)) := by
  obtain ⟨_, _, hderivative⟩ := h.isDerivative memoFree_handedOn he x
  exact hderivative.handedOn

/-- What is done with two formulas at two benches gives results that look alike. -/
structure SameResults [ScalarText α] (w w' : Workbench α) (e e' : Formula α) : Prop where
  simplified : (w.simplified e).LooksLike (w'.simplified e')
  /-- If both are simplified to themselves, so do the results of substituting formulas that
  unfold to the same trees. -/
  substituted : w.simplified e = e → w'.simplified e' = e' →
    ∀ {pairs pairs' : List (NodeId × Formula α)}, (∀ p ∈ pairs, p.2 ∈ w.atHand) →
      (∀ p ∈ pairs', p.2 ∈ w'.atHand) →
      Replacement.PairsAlike pairs pairs' →
      (w.substituted pairs e).LooksLike (w'.substituted pairs' e')
  frozen : w.simplified e = e → w'.simplified e' = e' → ∀ values excluded,
    (w.frozen values excluded e).LooksLike (w'.frozen values excluded e')
  derivative : ∀ x, (w.derivative e x).LooksLike (w'.derivative e' x)

/-- **Results do not depend on what is shared, nor on what was done before.**  From graphs
that unfold to one tree, at benches with whatever histories, come results that look alike.
The derivative, be it remembered or built now, unfolds to what the recursion that remembers
nothing makes of the tree. -/
theorem same_results [ScalarText α] (hw : w.Used) (hw' : w'.Used) (he : e ∈ w.atHand)
    (he' : e' ∈ w'.atHand) (h : e.tree = e'.tree) :
    w.SameResults w' e e' ∧ ∀ x n,
      (w.derivative e x).tree = ((derivativeAfresh x e.tree).run n).1.tree ∧
      ∀ d ∈ (Recollection.remembered? e.id x w.recollection).1,
        d.tree = ((derivativeAfresh x e.tree).run n).1.tree := by
  obtain ⟨L, hL⟩ := hw.accounted memoFree_handedOn
  obtain ⟨L', hL'⟩ := hw'.accounted memoFree_handedOn
  refine ⟨⟨?_, ?_, ?_, ?_⟩, fun x n => ⟨?_, fun d hd => ?_⟩⟩
  · exact .of_agree (hL.simplified_afresh he) (hL'.simplified_afresh he')
      (.of_image tree simplifyAfresh_agrees_tree h)
  · intro hfixed hfixed' pairs pairs' hpairs hpairs' hsame
    exact .of_agree (hL.substituted_afresh he hfixed hpairs)
      (hL'.substituted_afresh he' hfixed' hpairs')
      (replaceAfresh_agrees (Replacement.ofPairs_agrees hsame) h)
  · intro hfixed hfixed' values excluded
    exact .of_agree (hL.frozen_afresh he hfixed values excluded)
      (hL'.frozen_afresh he' hfixed' values excluded)
      (replaceAfresh_agrees (Replacement.ofValues_agrees values excluded) h)
  · intro x
    exact .of_agree (hL.derivative_afresh he x) (hL'.derivative_afresh he' x)
      (.of_image tree (derivativeAfresh_agrees_tree x) h)
  · exact ((hL.derivative_afresh he x).symm.trans (derivativeAfresh_agrees_tree x e)) 0 n
  · exact ((hL.remembered_afresh he hd).symm.trans (derivativeAfresh_agrees_tree x e)) 0 n

/-- The product of the sine of `x` with itself, its sine shared, and the product of two nodes
that are the sine of `x` each, at a bench where the derivative of the first has been taken
before. -/
theorem same_results_of_squares :
    let x : Formula Int := node 2 (.var "x")
    let s : Formula Int := node 3 (.unary .sin x)
    let e : Formula Int := node 4 (.assoc .multiply [s, s])
    let s' : Formula Int := node 5 (.unary .sin x)
    let e' : Formula Int := node 6 (.assoc .multiply [s, s'])
    let w : Workbench Int := ⟨[e', s', e, s, x, zero, one], 7, .empty⟩
    let w' := w.perform (.derivative e 2)
    w.Used ∧ w'.Used ∧ e.tree = e'.tree ∧ w.simplified e = e ∧ w'.simplified e' = e' ∧
      w.SameResults w' e e' ∧
      (w.substituted [(2, s)] e).LooksLike (w'.substituted [(2, s')] e') ∧
      (w.derivative e 2).LooksLike (w'.derivative e' 2) := by
  intro x s e s' e' w w'
  have hw : w.Used := by
    have hx : Used (⟨[x, zero, one], 3, .empty⟩ : Workbench Int) :=
      .node .start (by simp [Shape.refs, Shape.children])
    have hs : Used ⟨[s, x, zero, one], 4, .empty⟩ :=
      hx.node (by simp [Shape.refs, Shape.children])
    have he : Used ⟨[e, s, x, zero, one], 5, .empty⟩ :=
      hs.node (by simp [Shape.refs, Shape.children])
    have hs' : Used ⟨[s', e, s, x, zero, one], 6, .empty⟩ :=
      he.node (by simp [Shape.refs, Shape.children])
    exact hs'.node (by simp [Shape.refs, Shape.children])
  have he : e ∈ w.atHand := by simp [w]
  have he' : e' ∈ w'.atHand := List.mem_cons_of_mem _ (by simp [w])
  have hw' : w'.Used := .work hw (a := .derivative e 2) he
  have hx : x.AllSimple := .node (.inl rfl) (by simp [Shape.children])
  have hs : s.AllSimple := .node (.inr rfl) (by simpa [Shape.children] using hx)
  have hs' : s'.AllSimple := .node (.inr rfl) (by simpa [Shape.children] using hx)
  obtain ⟨L, hL⟩ := hw.accounted memoFree_handedOn
  obtain ⟨L', hL'⟩ := hw'.accounted memoFree_handedOn
  have hfixed : w.simplified e = e :=
    (hL.simplified_eq_iff he).mpr (.node (.inr rfl) (by simpa [Shape.children] using hs))
  have hfixed' : w'.simplified e' = e' :=
    (hL'.simplified_eq_iff he').mpr (.node (.inr rfl) (by simpa [Shape.children] using ⟨hs, hs'⟩))
  have hresults := (same_results hw hw' he he' rfl).1
  refine ⟨hw, hw', rfl, hfixed, hfixed', hresults, ?_, hresults.derivative 2⟩
  refine hresults.substituted hfixed hfixed' (by simp [w]) ?_ (.single 2 rfl)
  intro p hp
  rw [List.mem_singleton.mp hp]
  exact List.mem_cons_of_mem _ (by simp [w])

end Workbench

end FormulaGraph
