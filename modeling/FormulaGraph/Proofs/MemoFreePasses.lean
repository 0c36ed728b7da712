import FormulaGraph.Proofs.Replacing
import FormulaGraph.Proofs.Settling
import FormulaGraph.Proofs.Unfolding

/-!
# Passes without memory

A pass keeps the image of every node for the next time it comes by, and it leaves a node as
it is if its children are still the same nodes.  Beside each pass there is here the plain
recursion over the tree, which keeps nothing and compares no numbers: it goes through shared
parts again and again, and builds every node afresh.

What a pass makes of a graph unfolds to what the recursion makes of its tree.  The pass that
simplifies does so without condition.  The pass that replaces variables rebuilds a node
exactly if a variable is replaced under it (`isTouched`), unless the images of all children
happen to be these children again.  Then a node that is simple is harmless, since rebuilding
it would give the same, while another one would be simplified by it.
-/

namespace FormulaGraph

variable {α : Type} [Scalar α] {L L' : Ledger α}

namespace Formula

/-! ## Simplifying -/

mutual

/-- The formula simplified by recursion over its tree. -/
def simplifyAfresh : Formula α → Fresh (Formula α)
  | node id shape => do
    if shape.children.isEmpty then return node id shape
    else (node id shape).rebuild (← simplifyPartsAfresh shape)

/-- The children of a shape simplified by recursion. -/
def simplifyPartsAfresh : Shape α (Formula α) → Fresh (List (Formula α))
  | .const _ | .var _ => pure []
  | .unary _ a => do return [← simplifyAfresh a]
  | .binary _ a b => do return [← simplifyAfresh a, ← simplifyAfresh b]
  | .assoc _ args => simplifyAllAfresh args
  | .conditional _ c a b => do
    return [← simplifyAfresh c, ← simplifyAfresh a, ← simplifyAfresh b]
  | .tabulated _ _ a => do return [← simplifyAfresh a]
  | .solver ⟨body, _, low, high, precision, _⟩ => do
    return [← simplifyAfresh body, ← simplifyAfresh low, ← simplifyAfresh high,
      ← simplifyAfresh precision]

/-- Several formulas are simplified without a memory, one after another. -/
def simplifyAllAfresh : List (Formula α) → Fresh (List (Formula α))
  | [] => pure []
  | e :: es => do return (← simplifyAfresh e) :: (← simplifyAllAfresh es)

end

/-- Several formulas are simplified one by one. -/
theorem simplifyAllAfresh_eq_mapM (es : List (Formula α)) :
    simplifyAllAfresh es = es.mapM simplifyAfresh := by
  induction es with
  | nil => rw [simplifyAllAfresh, List.mapM_nil]
  | cons e es ih => rw [simplifyAllAfresh, List.mapM_cons, ih]

/-- The parts of a node are its children. -/
theorem simplifyPartsAfresh_eq_mapM (shape : Shape α (Formula α)) :
    simplifyPartsAfresh shape = shape.children.mapM simplifyAfresh := by
  cases shape with
  | assoc op args => rw [simplifyPartsAfresh, simplifyAllAfresh_eq_mapM, Shape.children]
  | solver s =>
      obtain ⟨body, bound, low, high, precision, guard⟩ := s
      simp [simplifyPartsAfresh, Shape.children, Solver.children]
  | _ => simp [simplifyPartsAfresh, Shape.children]

/-- A leaf is simplified to itself. -/
theorem simplifyAfresh_leaf {e : Formula α} (h : e.children = []) :
    simplifyAfresh e = pure e := by
  obtain ⟨id, shape⟩ := e
  rw [children_node] at h
  rw [simplifyAfresh, h]
  rfl

/-- Any other node is rebuilt from its simplified children. -/
theorem simplifyAfresh_node {e : Formula α} (h : e.children ≠ []) :
    simplifyAfresh e = e.children.mapM simplifyAfresh >>= e.rebuild := by
  obtain ⟨id, shape⟩ := e
  have hne : shape.children.isEmpty = false := by simpa using h
  rw [simplifyAfresh, hne, simplifyPartsAfresh_eq_mapM]
  rfl

/-- The recursion goes over the tree. -/
theorem simplifyAfresh_agrees_tree (e : Formula α) :
    Agree tree (simplifyAfresh e) (simplifyAfresh e.tree) := by
  induction e using inductionOnRefs with
  | h id shape ih =>
      have hchildren : (node id shape).tree.children = (node id shape).children.map tree := by
        rw [children, shape_tree, Shape.children_tree]
        rfl
      by_cases hleaf : (node id shape).children = []
      · rw [simplifyAfresh_leaf hleaf, simplifyAfresh_leaf (by simp [hchildren, hleaf])]
        exact .pure (tree_tree _).symm
      · rw [simplifyAfresh_node hleaf, simplifyAfresh_node (by simpa [hchildren] using hleaf),
          hchildren]
        refine .bind (.mapM (forall₂_map_tree fun c hc => ?_)) fun ds ds' hds =>
          rebuild_agrees (tree_tree _).symm hds
        exact ih c (Shape.mem_refs_of_mem_children hc)

/-- A known formula that unfolds to what the recursion makes of the other one. -/
structure SimplifiesAfresh (e : Formula α) (L : Ledger α) (d : Formula α) : Prop where
  known : d.KnownTo L
  afresh : Agree tree (simplifyAfresh e) (pure d)

/-- The step of the pass does what the step of the recursion does. -/
theorem simplifyOver_afresh {e : Formula α} {ds : List (Formula α)} (he : e.KnownTo L)
    (hne : e.children ≠ []) (hds : List.Forall₂ (fun c d => SimplifiesAfresh c L d) e.children ds) :
    Builds (simplifyOver e ds) L (SimplifiesAfresh e) := by
  have hvar : ∀ name, e.shape ≠ .var name := fun name h => hne (by rw [children, h]; rfl)
  have hconst : ∀ v, e.shape ≠ .const v := fun v h => hne (by rw [children, h]; rfl)
  obtain ⟨shape, hshape⟩ := exists_withChildren hvar hconst hds.length_eq.symm
  have hknown : ∀ d ∈ ds, d.KnownTo L := forall_of_forall₂ hds fun _ _ h => h.known
  have hafresh : Agree tree (simplifyAfresh e) (ofShape shape) := by
    have himages : Agree (List.map tree) (e.children.mapM simplifyAfresh) (pure ds) :=
      .mapM_pure (hds.imp fun _ _ h => h.afresh)
    have hrebuild : rebuild e ds = ofShape shape := by rw [rebuild, hshape]
    have hstep : Agree tree (simplifyAfresh e) (pure ds >>= e.rebuild) := by
      rw [simplifyAfresh_node hne]
      exact .bind himages fun _ _ h => rebuild_agrees rfl h
    rwa [pure_bind, hrebuild] at hstep
  refine simplifyOver_builds_of he hknown hshape ?_ ?_
  · intro hself hrule
    rw [ofShape, hrule, Option.getD_none, ← hself] at hafresh
    exact ⟨he, hafresh.trans (new_agrees_node hvar)⟩
  · refine ((ofShape_known ?_).and_yields fun n => hafresh.answer n).mono fun _ _ _ h => ⟨h.1, h.2⟩
    intro r hr
    rcases (children_of_withChildren hshape).2 r hr with h | h
    · exact hknown r h
    · exact he.ref h

/-- **What is simplified unfolds to what the recursion makes of the tree.** -/
theorem simplify_afresh {e : Formula α} (he : e.KnownTo L) :
    Builds (simplify e) L (SimplifiesAfresh e) := by
  have hlasting : ∀ e : Formula α, Lasting (SimplifiesAfresh e) :=
    fun _ _ _ _ hL h => ⟨h.known.mono hL, h.afresh⟩
  have hpass : Carries (Images.Sound SimplifiesAfresh) (simplifyNode e) L (SimplifiesAfresh e) :=
    simplifyNode_carries (H := fun L e => e.KnownTo L) (fun _ _ _ hL h => h.mono hL) (fun h => h)
      (fun h hc => h.child hc) hlasting
      (fun h hleaf => ⟨h, by rw [simplifyAfresh_leaf hleaf]; exact .pure rfl⟩)
      simplifyOver_afresh e he
  exact hpass.answer

/-! ## Replacing variables -/

mutual

/-- Whether a variable is replaced somewhere in the formula. -/
def isTouched (r : Replacement α) : Formula α → Bool
  | node _ (.const _) => false
  | node id (.var name) => (r ⟨id, name⟩).isSome
  | node _ (.unary _ a) => isTouched r a
  | node _ (.binary _ a b) => isTouched r a || isTouched r b
  | node _ (.assoc _ args) => anyTouched r args
  | node _ (.conditional _ c a b) => isTouched r c || isTouched r a || isTouched r b
  | node _ (.tabulated _ _ a) => isTouched r a
  | node _ (.solver ⟨body, bound, low, high, precision, _⟩) =>
    isTouched (r.except bound.id) body || isTouched r low || isTouched r high ||
      isTouched r precision

/-- Whether one of the formulas is touched. -/
def anyTouched (r : Replacement α) : List (Formula α) → Bool
  | [] => false
  | e :: es => isTouched r e || anyTouched r es

end

mutual

/-- The formula with its variables replaced by recursion over its tree.  A node is rebuilt if
a variable is replaced under it. -/
def replaceAfresh (r : Replacement α) : Formula α → Fresh (Formula α)
  | node id (.var name) => (r ⟨id, name⟩).getD (pure (node id (.var name)))
  | node id shape => do
    if (node id shape).isTouched r then (node id shape).rebuild (← replacePartsAfresh r shape)
    else return node id shape

/-- The children of a shape with their variables replaced by recursion. -/
def replacePartsAfresh (r : Replacement α) : Shape α (Formula α) → Fresh (List (Formula α))
  | .const _ | .var _ => pure []
  | .unary _ a => do return [← replaceAfresh r a]
  | .binary _ a b => do return [← replaceAfresh r a, ← replaceAfresh r b]
  | .assoc _ args => replaceAllAfresh r args
  | .conditional _ c a b => do
    return [← replaceAfresh r c, ← replaceAfresh r a, ← replaceAfresh r b]
  | .tabulated _ _ a => do return [← replaceAfresh r a]
  | .solver ⟨body, bound, low, high, precision, _⟩ => do
    return [← replaceAfresh (r.except bound.id) body, ← replaceAfresh r low,
      ← replaceAfresh r high, ← replaceAfresh r precision]

/-- Several formulas are rewritten without a memory, one after another. -/
def replaceAllAfresh (r : Replacement α) : List (Formula α) → Fresh (List (Formula α))
  | [] => pure []
  | e :: es => do return (← replaceAfresh r e) :: (← replaceAllAfresh r es)

end

end Formula

/-- The children of a shape, each with the replacement that applies there. -/
def Shape.sites (r : Replacement α) : Shape α (Formula α) → List (Replacement α × Formula α)
  | .solver s => [(r.except s.bound.id, s.body), (r, s.low), (r, s.high), (r, s.precision)]
  | shape => shape.children.map fun c => (r, c)

omit [Scalar α] in
/-- Outside a solver the replacement is the same for all children. -/
theorem Shape.sites_eq_map {r : Replacement α} {shape : Shape α (Formula α)}
    (h : ∀ s, shape ≠ .solver s) : shape.sites r = shape.children.map fun c => (r, c) := by
  cases shape with
  | solver s => exact absurd rfl (h s)
  | _ => rfl

omit [Scalar α] in
/-- The sites of a replacement are the children. -/
theorem Shape.map_snd_sites (r : Replacement α) (shape : Shape α (Formula α)) :
    (shape.sites r).map Prod.snd = shape.children := by
  by_cases h : ∀ s, shape ≠ .solver s
  · simp [sites_eq_map h]
  · obtain ⟨s, rfl⟩ : ∃ s, shape = .solver s := by simpa using h
    rfl

namespace Formula

section Afresh

variable {r r' : Replacement α}

omit [Scalar α] in
/-- Of several formulas one is touched. -/
theorem anyTouched_eq_any (es : List (Formula α)) : anyTouched r es = es.any (isTouched r) := by
  induction es with
  | nil => rfl
  | cons e es ih => rw [anyTouched, ih, List.any_cons]

omit [Scalar α] in
/-- A node other than a variable is touched where one of its children is. -/
theorem isTouched_node {e : Formula α} (hvar : ∀ name, e.shape ≠ .var name) :
    e.isTouched r = (e.shape.sites r).any fun p => p.2.isTouched p.1 := by
  obtain ⟨id, shape⟩ := e
  cases shape with
  | var name => exact absurd rfl (hvar name)
  | assoc op args =>
      simp [isTouched, anyTouched_eq_any, Shape.sites, Shape.children, Function.comp_def]
  | solver s => simp [isTouched, Shape.sites, Bool.or_assoc]
  | _ => simp [isTouched, Shape.sites, Shape.children, Bool.or_assoc]

/-- Several formulas are replaced one by one. -/
theorem replaceAllAfresh_eq_mapM (es : List (Formula α)) :
    replaceAllAfresh r es = es.mapM (replaceAfresh r) := by
  induction es with
  | nil => rw [replaceAllAfresh, List.mapM_nil]
  | cons e es ih => rw [replaceAllAfresh, List.mapM_cons, ih]

/-- The parts of a node are replaced site by site. -/
theorem replacePartsAfresh_eq_mapM (shape : Shape α (Formula α)) :
    replacePartsAfresh r shape = (shape.sites r).mapM fun p => replaceAfresh p.1 p.2 := by
  cases shape with
  | assoc op args =>
      simp [replacePartsAfresh, replaceAllAfresh_eq_mapM, Shape.sites, Shape.children,
        Function.comp_def]
  | solver s => simp [replacePartsAfresh, Shape.sites]
  | _ => simp [replacePartsAfresh, Shape.sites, Shape.children]

/-- An untouched formula is handed back as it is. -/
theorem replaceAfresh_untouched {e : Formula α} (h : e.isTouched r = false) :
    replaceAfresh r e = pure e := by
  obtain ⟨id, shape⟩ := e
  cases shape with
  | var name =>
      have hnone : r ⟨id, name⟩ = none := by simpa [isTouched] using h
      rw [replaceAfresh, hnone, Option.getD_none]
  | _ =>
      rw [replaceAfresh, h]
      · rfl
      · simp

/-- Any other node is rebuilt from what its sites are replaced by. -/
theorem replaceAfresh_touched {e : Formula α} (hvar : ∀ name, e.shape ≠ .var name)
    (h : e.isTouched r = true) :
    replaceAfresh r e =
      (e.shape.sites r).mapM (fun p => replaceAfresh p.1 p.2) >>= e.rebuild := by
  obtain ⟨id, shape⟩ := e
  rw [replaceAfresh, h, replacePartsAfresh_eq_mapM]
  · rfl
  · exact hvar

end Afresh

end Formula

/-- For every variable, both replacements leave it, or put what unfolds to one tree. -/
def Replacement.Agrees (r r' : Replacement α) : Prop :=
  ∀ v, Option.Rel (Agree Formula.tree) (r v) (r' v)

namespace Replacement.Agrees

variable {r r' : Replacement α}

omit [Scalar α] in
/-- What agrees with a replacement agrees with itself. -/
theorem right (h : r.Agrees r') : r'.Agrees r' := by
  intro v
  have hv := h v
  revert hv
  generalize r v = x, r' v = y
  rintro (hxy | -)
  · exact .some (hxy.symm.trans hxy)
  · exact .none

omit [Scalar α] in
/-- Replacements that agree do so below a binder. -/
theorem except (h : r.Agrees r') (v : NodeId) : (r.except v).Agrees (r'.except v) := by
  intro w
  rw [Replacement.except, Replacement.except]
  split
  · exact .none
  · exact h w

omit [Scalar α] in
/-- Replacements that agree replace the same variables. -/
theorem isSome_eq (h : r.Agrees r') (v : Variable) : (r v).isSome = (r' v).isSome := by
  have hv := h v
  revert hv
  generalize r v = x, r' v = y
  rintro (- | -) <;> rfl

omit [Scalar α] in
/-- The sites in a tree. -/
theorem sites_tree (h : r.Agrees r') (shape : Shape α (Formula α)) :
    List.Forall₂ (fun p p' => p.2 ∈ shape.refs ∧ p.1.Agrees p'.1 ∧ p'.2 = p.2.tree)
      (shape.sites r) (shape.tree.sites r') := by
  by_cases hsolver : ∀ s, shape ≠ .solver s
  · have hsolver' : ∀ s, shape.tree ≠ .solver s := by
      cases shape <;> simp_all [Shape.tree]
    rw [Shape.sites_eq_map hsolver, Shape.sites_eq_map hsolver', Shape.children_tree,
      List.map_map, List.forall₂_map_left_iff, List.forall₂_map_right_iff, List.forall₂_same]
    exact fun c hc => ⟨Shape.mem_refs_of_mem_children hc, h, rfl⟩
  · obtain ⟨s, rfl⟩ : ∃ s, shape = .solver s := by simpa using hsolver
    have hrefs : ∀ c ∈ s.children, c ∈ (Shape.solver s).refs := fun c hc =>
      Shape.mem_refs_of_mem_children hc
    simp only [Solver.children, List.forall_mem_cons] at hrefs
    obtain ⟨hbody, hlow, hhigh, hprecision, -⟩ := hrefs
    exact .cons ⟨hbody, h.except _, rfl⟩ (.cons ⟨hlow, h, rfl⟩ (.cons ⟨hhigh, h, rfl⟩
      (.cons ⟨hprecision, h, rfl⟩ .nil)))

end Replacement.Agrees

namespace Formula

section Afresh

variable {r r' : Replacement α}

/-- Related lists are searched with one answer. -/
theorem any_eq_of_forall₂ {β γ : Type} {p : β → Bool} {q : γ → Bool} {bs : List β} {cs : List γ}
    (h : List.Forall₂ (fun b c => p b = q c) bs cs) : bs.any p = cs.any q := by
  induction h with
  | nil => rfl
  | cons hhead _ ih => rw [List.any_cons, List.any_cons, hhead, ih]

omit [Scalar α] in
/-- A formula is touched if the tree it unfolds to is. -/
theorem isTouched_tree (h : r.Agrees r') (e : Formula α) :
    e.tree.isTouched r' = e.isTouched r := by
  induction e using inductionOnRefs generalizing r r' with
  | h id shape ih =>
      by_cases hvar : ∀ name, shape ≠ .var name
      · have hsites := h.sites_tree shape
        rw [tree_node hvar, isTouched_node (e := node id shape) hvar,
          isTouched_node (e := node 0 shape.tree) (Shape.tree_ne_var hvar), shape_node, shape_node]
        refine (any_eq_of_forall₂ (hsites.imp ?_)).symm
        rintro p p' ⟨hp, hagrees, hp'⟩
        rw [hp']
        exact (ih p.2 hp hagrees).symm
      · obtain ⟨name, rfl⟩ : ∃ name, shape = .var name := by simpa using hvar
        exact (h.isSome_eq ⟨id, name⟩).symm

/-- The recursion goes over the tree. -/
theorem replaceAfresh_agrees_tree (h : r.Agrees r') (e : Formula α) :
    Agree tree (replaceAfresh r e) (replaceAfresh r' e.tree) := by
  induction e using inductionOnRefs generalizing r r' with
  | h id shape ih =>
      by_cases hvar : ∀ name, shape ≠ .var name
      · have htree := isTouched_tree h (node id shape)
        cases htouched : (node id shape).isTouched r with
        | false =>
            rw [replaceAfresh_untouched htouched, replaceAfresh_untouched (htree.trans htouched)]
            exact .pure (tree_tree _).symm
        | true =>
            rw [replaceAfresh_touched (e := node id shape) hvar htouched,
              replaceAfresh_touched (by simpa using Shape.tree_ne_var hvar)
                (htree.trans htouched), shape_tree]
            refine .bind (.mapM ((h.sites_tree shape).imp ?_)) fun ds ds' hds =>
              rebuild_agrees (tree_tree _).symm hds
            rintro p p' ⟨hp, hagrees, hp'⟩
            rw [hp']
            exact ih p.2 hp hagrees
      · obtain ⟨name, rfl⟩ : ∃ name, shape = .var name := by simpa using hvar
        have hput := h ⟨id, name⟩
        rw [tree_var, replaceAfresh, replaceAfresh]
        revert hput
        generalize r ⟨id, name⟩ = x, r' ⟨id, name⟩ = y
        rintro (hxy | -)
        · exact hxy
        · exact .pure rfl

/-- Replacing depends on trees only. -/
theorem replaceAfresh_agrees (hr : r.Agrees r') {e e' : Formula α} (h : e.tree = e'.tree) :
    Agree tree (replaceAfresh r e) (replaceAfresh r' e') :=
  (replaceAfresh_agrees_tree hr e).trans (h ▸ (replaceAfresh_agrees_tree hr.right e').symm)

/-! ### The pass against the recursion -/

/-- The formula unfolds to what the recursion makes of the other one, and is that one where no
variable is replaced. -/
structure ReplacesAfresh (r : Replacement α) (e d : Formula α) : Prop where
  untouched : e.isTouched r = false → d = e
  afresh : Agree tree (replaceAfresh r e) (pure d)

/-- An untouched formula is its own answer. -/
theorem replacesAfresh_self {e : Formula α} (h : e.isTouched r = false) :
    ReplacesAfresh r e e := by
  refine ⟨fun _ => rfl, ?_⟩
  rw [replaceAfresh_untouched h]
  exact .pure rfl

/-- A step of the pass does what a step of the recursion does, if a node that is touched and
stays as it is might as well have been rebuilt. -/
theorem replaceOver_afresh {e : Formula α} {ds : List (Formula α)} {shape : Shape α (Formula α)}
    (he : e.KnownTo L) (hds : ∀ d ∈ ds, d.KnownTo L) (hvar : ∀ name, e.shape ≠ .var name)
    (hshape : e.shape.withChildren? ds = some shape)
    (himages : List.Forall₂ (fun p d => ReplacesAfresh p.1 p.2 d) (e.shape.sites r) ds)
    (hkept : e.isTouched r = true → ds = e.children → Agree tree (ofShape e.shape) (pure e)) :
    Yields (replaceOver e ds) (ReplacesAfresh r e) := by
  intro n
  rw [replaceOver]
  cases htouched : e.isTouched r with
  | false =>
      have huntouched : ∀ p ∈ e.shape.sites r, p.2.isTouched p.1 = false := by
        rw [isTouched_node hvar] at htouched
        simpa using htouched
      have hchildren : ds = e.children := by
        have hsites : List.Forall₂ (fun p d => p.2 = d) (e.shape.sites r) ds :=
          ((List.forall₂_and_left _ _).mpr ⟨huntouched, himages⟩).imp fun p d h =>
            (h.2.untouched h.1).symm
        rw [children, ← Shape.map_snd_sites r, eq_comm, ← List.forall₂_eq_eq_eq]
        exact List.forall₂_map_left_iff.mpr hsites
      rw [hchildren, if_pos (sameAll_self _)]
      exact replacesAfresh_self htouched
  | true =>
      have hstep : Agree tree (replaceAfresh r e) (ofShape shape) := by
        have hrebuild : rebuild e ds = ofShape shape := by rw [rebuild, hshape]
        have hbind : Agree tree (replaceAfresh r e) (pure ds >>= e.rebuild) := by
          rw [replaceAfresh_touched hvar htouched]
          exact .bind (.mapM_pure (himages.imp fun _ _ h => h.afresh)) fun _ _ h =>
            rebuild_agrees rfl h
        rwa [pure_bind, hrebuild] at hbind
      refine ⟨fun h => absurd htouched (by simp [h]), ?_⟩
      split
      · next hsame =>
          have hchildren := (eq_of_sameAll (fun c hc => he.child hc) hds hsame).symm
          rw [hchildren] at hshape
          rw [eq_of_withChildren_children hshape] at hstep
          exact hstep.trans (hkept htouched hchildren)
      · rw [rebuild, hshape]
        exact hstep.answer n

end Afresh

section Pass

variable {κ : Type} {r : κ → Replacement α} {under : κ → NodeId → κ}
  {H : κ → Ledger α → Formula α → Prop} {R : κ → Formula α → Ledger α → Formula α → Prop}

/-- What else is known of the nodes on the way. -/
theorem Replaces.restrict (h : Replaces r under H R) {G : κ → Formula α → Prop}
    (hpart : ∀ {k e c}, G k e → c ∈ e.shape.passParts → G k c)
    (hbody : ∀ {k id s}, G k (node id (.solver s)) → G (under k s.bound.id) s.body) :
    Replaces r under (fun k L e => H k L e ∧ G k e) R where
  except := h.except
  lasting k _ _ _ hL hH := ⟨h.lasting k hL hH.1, hH.2⟩
  imageLasting := h.imageLasting
  known hH := h.known hH.1
  part hH hc := ⟨h.part hH.1 hc, hpart hH.2 hc⟩
  body hH := ⟨h.body hH.1, hbody hH.2⟩
  const hH := h.const hH.1
  kept hH := h.kept hH.1
  put hH := h.put hH.1
  rebuilt hH := h.rebuilt hH.1
  solver hH := h.solver hH.1

/-- A node that stays as it is over its own children is its own image. -/
theorem Replaces.self (h : Replaces r under H R) {k : κ} {e : Formula α} (hH : H k L e)
    (hbuilds : Builds (replaceOver e e.children) L (R k e)) : ∃ L', H k L' e ∧ R k e L' e := by
  obtain ⟨L', hL, -, himage⟩ := hbuilds
  rw [replaceOver, if_pos (sameAll_self _)] at himage
  exact ⟨L', h.lasting k hL hH, himage⟩

/-- **The pass does what the recursion does**, if every node that is touched and stays as it
is might as well be rebuilt. -/
theorem Replaces.afresh (h : Replaces r under H R) (hknown : ∀ {k e L d}, R k e L d → d.KnownTo L)
    (hput : ∀ {k L e}, H k L e → (r k).Agrees (r k))
    (hkept : ∀ {k L e}, H k L e → R k e L e → (∀ name, e.shape ≠ .var name) →
      e.isTouched (r k) = true → Agree tree (ofShape e.shape) (pure e)) :
    Replaces r under H fun k e L d => R k e L d ∧ ReplacesAfresh (r k) e d where
  except := h.except
  lasting := h.lasting
  imageLasting k e _ _ _ hL hd := ⟨h.imageLasting k e hL hd.1, hd.2⟩
  known := h.known
  part := h.part
  body := h.body
  const hH := ⟨h.const hH, replacesAfresh_self rfl⟩
  kept hH hnone := ⟨h.kept hH hnone, replacesAfresh_self (by simp [isTouched, hnone])⟩
  put {k L id name} hH x hx := by
    have hfound : r k ⟨id, name⟩ = some x := hx
    have hself := hput hH ⟨id, name⟩
    rw [hfound] at hself
    refine (h.put hH x hx).and_yields fun n => ⟨fun hnone => ?_, ?_⟩
    · simp [isTouched, hfound] at hnone
    · rw [replaceAfresh, hfound, Option.getD_some]
      cases hself with
      | some hself => exact hself.answer n
  rebuilt {k L e ds shape} hH hfree hds hshape := by
    have hvar : ∀ name, e.shape ≠ .var name := by
      intro name hname
      rw [hname] at hshape
      cases hshape
    have hbuilds := h.rebuilt hH hfree (hds.imp fun _ _ h => h.1) hshape
    refine hbuilds.and_yields (replaceOver_afresh (h.known hH)
      (forall_of_forall₂ hds fun _ _ h => hknown h.1) hvar hshape ?_ ?_)
    · rw [Shape.sites_eq_map hfree]
      exact List.forall₂_map_left_iff.mpr (hds.imp fun _ _ h => h.2)
    · rintro htouched rfl
      obtain ⟨L', hH', himage⟩ := h.self hH hbuilds
      exact hkept hH' himage hvar htouched
  solver {k L id s body low high precision} hH hbody hlow hhigh hprecision := by
    have hbuilds := h.solver hH hbody.1 hlow.1 hhigh.1 hprecision.1
    have hvar : ∀ name, (node id (.solver s)).shape ≠ .var name := by simp
    refine hbuilds.and_yields (replaceOver_afresh (h.known hH) ?_ hvar rfl ?_ ?_)
    · simpa using ⟨hknown hbody.1, hknown hlow.1, hknown hhigh.1, hknown hprecision.1⟩
    · have hbody' := hbody.2
      rw [h.except] at hbody'
      exact .cons hbody' (.cons hlow.2 (.cons hhigh.2 (.cons hprecision.2 .nil)))
    · intro htouched hchildren
      rw [hchildren] at hbuilds
      obtain ⟨L', hH', himage⟩ := h.self hH hbuilds
      exact hkept hH' himage hvar htouched

end Pass

/-- A simple node rebuilt over its own children. -/
theorem ofShape_agrees_self {e : Formula α} (hsimple : e.shape.IsSimple)
    (hchildren : e.children ≠ []) : Agree tree (ofShape e.shape) (pure e) := by
  have hvar : ∀ name, e.shape ≠ .var name := fun name h => hchildren (by rw [children, h]; rfl)
  rw [ofShape, hsimple.resolve_left hchildren, Option.getD_none]
  exact new_agrees_node hvar

/-- **Variables replaced in a formula whose nodes are all simple.**  It unfolds to what the
recursion makes of the tree, whatever the replacements look like. -/
theorem replace_afresh {r : Replacement α} {e : Formula α} (hputs : PutsKnown L r)
    (hr : r.Agrees r) (he : e.KnownTo L) (hsimple : e.AllSimple) :
    Builds (replace r e) L fun _ d => Agree tree (replaceAfresh r e) (pure d) := by
  have hreplaces := (replaces_known.restrict (α := α)
    (G := fun (r : Replacement α) e => r.Agrees r ∧ e.AllSimple)
    (fun hG hc => ⟨hG.1, hG.2.child (Shape.mem_children_of_mem_passParts hc)⟩)
    fun hG => ⟨hG.1.except _, hG.2.child List.mem_cons_self⟩).afresh
    (fun h => h) (fun hH => hH.2.1) ?_
  · exact ((hreplaces.carries (k := r) e ⟨⟨hputs, he⟩, hr, hsimple⟩).answer).mono
      fun _ _ _ h => h.2.afresh
  · intro k L e hH _ hvar htouched
    refine ofShape_agrees_self hH.2.2.here fun hchildren => ?_
    have hsites := Shape.map_snd_sites k e.shape
    rw [show e.shape.children = [] from hchildren, List.map_eq_nil_iff] at hsites
    rw [isTouched_node hvar, hsites] at htouched
    cases htouched

end Formula

namespace Replacement

/-- Pairs of the same variables beside formulas that unfold to the same trees. -/
def PairsAlike (pairs pairs' : List (NodeId × Formula α)) : Prop :=
  List.Forall₂ (fun p p' => p.1 = p'.1 ∧ p.2.tree = p'.2.tree) pairs pairs'

omit [Scalar α] in
/-- Pairs are like themselves. -/
theorem PairsAlike.refl (pairs : List (NodeId × Formula α)) : PairsAlike pairs pairs :=
  List.forall₂_same.mpr fun _ _ => ⟨rfl, rfl⟩

omit [Scalar α] in
/-- A single pair may have any formula of the same tree. -/
theorem PairsAlike.single (v : NodeId) {e e' : Formula α} (h : e.tree = e'.tree) :
    PairsAlike [(v, e)] [(v, e')] :=
  .cons ⟨rfl, h⟩ .nil

omit [Scalar α] in
/-- Substitutions of formulas of one tree agree. -/
theorem ofPairs_agrees {pairs pairs' : List (NodeId × Formula α)} (h : PairsAlike pairs pairs') :
    (ofPairs pairs).Agrees (ofPairs pairs') := by
  intro v
  rw [ofPairs, ofPairs]
  induction h with
  | nil => exact .none
  | @cons p p' ps ps' hp _ ih =>
      rw [List.find?_cons, List.find?_cons, ← hp.1]
      split
      · exact .some (.pure hp.2)
      · exact ih

omit [Scalar α] in
/-- Freezing at the same values agrees with itself. -/
theorem ofValues_agrees (values : NodeId → α) (excluded : List NodeId) :
    (ofValues values excluded).Agrees (ofValues values excluded) := by
  intro v
  rw [ofValues]
  split
  · exact .none
  · exact .some (Formula.constant_agrees _)

end Replacement

end FormulaGraph
