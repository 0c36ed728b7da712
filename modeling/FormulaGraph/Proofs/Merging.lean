import FormulaGraph.Formula.Sharing
import FormulaGraph.Proofs.Passes

/-!
# Merging nodes by their signatures

Sharing goes through a family of nodes: from a node to its children, and no further
than to a solver.  For each signature it meets, the table keeps the node that stands
for it.

Suppose that a relation `R` between nodes and what stands for them is never lost, holds
of a node and itself, passes from the children to the node over them, and **depends on
the node's signature only**.  Then whatever the table has in store for a node is in the
relation to it, and so is the shared form (`shareNode_carries`), whichever roots were
shared through the table before.
-/

namespace FormulaGraph

variable {α : Type} [Scalar α]

/-- A family of nodes that sharing does not leave, and of which any two can be in
one graph. -/
structure Family (M : Formula α → Prop) : Prop where
  child : ∀ {c e : Formula α}, M e → (∀ s, e.shape ≠ .solver s) → c ∈ e.children → M c
  together : ∀ {d e : Formula α}, M d → M e → ∃ L : Ledger α, d.KnownTo L ∧ e.KnownTo L

/-- `d.Met e`: going on from child to child, but not beyond a solver, leads from `e`
to `d`. -/
inductive Formula.Met : Formula α → Formula α → Prop
  | refl (e : Formula α) : Met e e
  | child {d c e : Formula α} (hfree : ∀ s, e.shape ≠ .solver s) (hc : c ∈ e.children)
      (hd : Met d c) : Met d e

omit [Scalar α] in
/-- What is met is within the formula. -/
theorem Formula.Met.within {d e : Formula α} (h : d.Met e) : d.Within e := by
  induction h with
  | refl => exact .refl _
  | child _ hc _ ih => exact .child hc ih

omit [Scalar α] in
/-- From a node that is met its children are met, unless it is a solver. -/
theorem Formula.Met.next {c d e : Formula α} (h : d.Met e) (hfree : ∀ s, d.shape ≠ .solver s)
    (hc : c ∈ d.children) : c.Met e := by
  induction h with
  | refl => exact .child hfree hc (.refl c)
  | child hfree' hc' _ ih => exact .child hfree' hc' ih

/-- What is met from the roots of a graph is a family. -/
theorem Family.ofRoots {L : Ledger α} {es : List (Formula α)} (hes : ∀ e ∈ es, e.KnownTo L) :
    Family fun d => ∃ e ∈ es, d.Met e where
  child := by
    intro c d hmet hfree hc
    obtain ⟨e, he, hd⟩ := hmet
    exact ⟨e, he, hd.next hfree hc⟩
  together := by
    intro d d' hmet hmet'
    obtain ⟨e, he, hd⟩ := hmet
    obtain ⟨e', he', hd'⟩ := hmet'
    exact ⟨L, (hes e he).within hd.within, (hes e' he').within hd'.within⟩

variable [ScalarText α] {M : Formula α → Prop} {R : Formula α → Ledger α → Formula α → Prop}
  {L L' : Ledger α}

/-- Whatever the table keeps stands for a node of the family with that signature. -/
def Representatives.Sound (M : Formula α → Prop)
    (R : Formula α → Ledger α → Formula α → Prop) (L : Ledger α) (table : Representatives α) :
    Prop :=
  ∀ (key : String) (d : Formula α), table[key]? = some d → ∃ e, M e ∧ e.signature = key ∧ R e L d

namespace Representatives

/-- An empty table is sound. -/
theorem sound_empty : Sound M R L (∅ : Representatives α) := by
  intro key d h
  simp at h

/-- A sound table stays sound while more is built. -/
theorem sound_lasting (hR : ∀ e, Lasting (R e)) : Lasting (Sound M R) := by
  intro L L' table hL h key d hd
  obtain ⟨e, he, hkey, hrel⟩ := h key d hd
  exact ⟨e, he, hkey, hR e hL hrel⟩

/-- A representative that stands for its node may be entered. -/
theorem Sound.insert {table : Representatives α} (h : table.Sound M R L) {e d : Formula α}
    (he : M e) (hd : R e L d) : Sound M R L (table.insert e.signature d) := by
  intro key d' hd'
  rw [Std.HashMap.getElem?_insert] at hd'
  by_cases hkey : e.signature = key
  · rw [if_pos (beq_iff_eq.mpr hkey)] at hd'
    rw [← Option.some.inj hd']
    exact ⟨e, he, hkey, hd⟩
  · rw [if_neg (by simpa using hkey)] at hd'
    exact h key d' hd'

end Representatives

open Representatives (Sound sound_lasting)

/-- What is to be shown of a relation between nodes and what stands for them. -/
structure Merges (M : Formula α → Prop) (R : Formula α → Ledger α → Formula α → Prop) :
    Prop where
  lasting : ∀ e, Lasting (R e)
  self : ∀ {L : Ledger α} {e : Formula α}, M e → e.KnownTo L → R e L e
  rebuilt : ∀ {L : Ledger α} {e : Formula α} {ds : List (Formula α)}, M e → e.KnownTo L →
    (∀ s, e.shape ≠ .solver s) → List.Forall₂ (fun c d => R c L d) e.children ds →
    Builds (Formula.shareOver e ds) L (R e)
  signature : ∀ {L : Ledger α} {d e c : Formula α}, M d → M e → d.signature = e.signature →
    R d L c → R e L c

namespace Formula

/-- Several formulas are shared one after another. -/
theorem shareNodes_eq_mapM (es : List (Formula α)) : shareNodes es = es.mapM shareNode := by
  induction es with
  | nil => rw [shareNodes, List.mapM_nil]
  | cons e es ih => rw [shareNodes, List.mapM_cons, ih]

/-- A node that is not a solver is shared over its children; a leaf has none. -/
theorem shareShape_eq (e : Formula α) (hsolver : ∀ s, e.shape ≠ .solver s) :
    shareShape e e.shape =
      (do shareOver e (← e.children.mapM shareNode) : Sharing α (Formula α)) := by
  obtain ⟨id, shape⟩ := e
  cases shape with
  | assoc op args =>
      simp only [shape_node, children_node, shareShape, shareNodes_eq_mapM, Shape.children]
  | solver s => exact absurd rfl (hsolver s)
  | const v => simp [shareShape, Shape.children, shareOver, sameAll]
  | var name => simp [shareShape, Shape.children, shareOver, sameAll]
  | _ => simp [shareShape, Shape.children]

omit [Scalar α] [ScalarText α] in
/-- If the table has a representative, it is answered. -/
theorem represent_run_kept {key : String} {table : Representatives α} {d : Formula α}
    (h : table[key]? = some d) (find : Sharing α (Formula α)) :
    (represent key find).run table = pure (d, table) := by
  simp [represent, StateT.run_bind, h]

omit [Scalar α] [ScalarText α] in
/-- If the table has no representative, one is found and entered. -/
theorem represent_run_new {key : String} {table : Representatives α}
    (h : table[key]? = none) (find : Sharing α (Formula α)) :
    (represent key find).run table = find.run table >>= fun done =>
      pure (done.1, done.2.insert key done.1) := by
  simp [represent, StateT.run_bind, h]

/-- The table is handed from one formula to the next. -/
theorem shareNodes_cons_run {e d : Formula α} {es ds : List (Formula α)}
    {table table' table'' : Representatives α}
    (h : (shareNode e).run table = pure (d, table'))
    (hs : (shareNodes es).run table' = pure (ds, table'')) :
    (shareNodes (e :: es)).run table = pure (d :: ds, table'') := by
  simp [shareNodes, StateT.run_bind, h, hs]

/-- What the table has for a signature, or what is found for it, is in the relation to
the node. -/
theorem represent_carries (h : Merges M R) {e : Formula α} (he : M e)
    {find : Sharing α (Formula α)} (hfind : Carries (Sound M R) find L (R e)) :
    Carries (Sound M R) (represent e.signature find) L (R e) := by
  intro table htable
  cases hfound : table[e.signature]? with
  | some d =>
      obtain ⟨d', hd', hkey, hrel⟩ := htable _ d hfound
      rw [represent_run_kept hfound]
      exact .pure ⟨htable, h.signature hd' he hkey hrel⟩
  | none =>
      rw [represent_run_new hfound]
      refine (hfind table htable).bind ?_
      intro L' answer _ hboth
      obtain ⟨d, table'⟩ := answer
      obtain ⟨htable', hd⟩ := hboth
      exact .pure ⟨htable'.insert he hd, hd⟩

/-- The shared form of a node of the family is in the relation to it. -/
theorem shareNode_carries (hM : Family M) (h : Merges M R) (e : Formula α) {L : Ledger α}
    (he : M e) (hknown : e.KnownTo L) : Carries (Sound M R) (shareNode e) L (R e) := by
  induction e using inductionOnRefs generalizing L with
  | h id shape ih =>
      rw [shareNode]
      refine represent_carries h he ?_
      by_cases hsolver : ∃ s, shape = .solver s
      · obtain ⟨s, rfl⟩ := hsolver
        exact .pure (h.self he hknown)
      · have hfree : ∀ s, (node id shape).shape ≠ .solver s := fun s hs => hsolver ⟨s, hs⟩
        rw [show shareShape (node id shape) shape = _ from shareShape_eq _ hfree]
        refine .bind (Carries.mapM (K := fun L (c : Formula α) => c.KnownTo L) (R := R)
          (fun _ _ _ hL hc => hc.mono hL) h.lasting
          (fun c hc L hcL => ih c (Shape.mem_refs_of_mem_children hc) (hM.child he hfree hc) hcL)
          fun c hc => hknown.child hc) ?_
        intro L' ds hL hds
        exact .lift (sound_lasting h.lasting) (h.rebuilt he (hknown.mono hL) hfree hds)

/-- The representatives of several nodes, shared through one table, stand for them. -/
theorem shareNodes_carries (hM : Family M) (h : Merges M R) {es : List (Formula α)}
    (hes : ∀ e ∈ es, M e) (hknown : ∀ e ∈ es, e.KnownTo L) :
    Carries (Sound M R) (shareNodes es) L
      fun L' ds => List.Forall₂ (fun e d => R e L' d) es ds := by
  rw [shareNodes_eq_mapM]
  exact .mapM (K := fun L (e : Formula α) => e.KnownTo L) (fun _ _ _ hL he => he.mono hL)
    h.lasting (fun e he _ he' => shareNode_carries hM h e (hes e he) he') hknown

end Formula

/-! ## Tables kept from one root to the next -/

/-- The tables that come about by sharing nodes of the family one after another,
beginning with none.  Between two of them other nodes may be built. -/
inductive Representatives.Reached (M : Formula α → Prop) :
    Ledger α → Representatives α → Prop
  | empty (L : Ledger α) : Reached M L ∅
  | build {L L' : Ledger α} {table : Representatives α} (h : Reached M L table)
      (hL : L.Extends L') : Reached M L' table
  /-- The ledger afterwards accounts for what the table keeps. -/
  | share {L L' : Ledger α} {table : Representatives α} (h : Reached M L table)
      {e : Formula α} (he : M e) (hknown : e.KnownTo L) (hL : L.Extends L')
      (hkept : ∀ (key : String) (d : Formula α),
        ((e.shareWith table).run L.next).1.2[key]? = some d → d.KnownTo L') :
      Reached M L' ((e.shareWith table).run L.next).1.2

open Representatives in
/-- A relation that only further nodes could break holds of whatever a table has that was
kept from root to root. -/
theorem Representatives.Reached.sound (hM : Family M) (hR : Merges M R)
    (hmove : ∀ {e d : Formula α} {L L' : Ledger α}, R e L d → d.KnownTo L' → R e L' d)
    {table : Representatives α} (h : table.Reached M L) : table.Sound M R L := by
  induction h with
  | empty L => exact sound_empty
  | build _ hL ih => exact sound_lasting hR.lasting hL ih
  | share _ he hknown _ hkept ih =>
      obtain ⟨_, _, _, hsound, _⟩ := Formula.shareNode_carries hM hR _ he hknown _ ih
      intro key d hd
      obtain ⟨e', he', hkey, hrel⟩ := hsound key d hd
      exact ⟨e', he', hkey, hmove hrel (hkept key d hd)⟩

end FormulaGraph
