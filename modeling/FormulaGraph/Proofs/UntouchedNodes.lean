import FormulaGraph.Proofs.Replacing
import FormulaGraph.Proofs.WholeNumbers

/-!
# Nodes that no replacement touches

A formula is **exposed** to a variable that occurs in it other than in the body of a solver
that binds it.  A replacement that leaves all of these variables, or puts each of them in its
own place, leaves the formula **untouched**.  Then the pass does nothing: it is the
computation that returns the formula, no number is drawn and no node rebuilt, be it simple or
not (`replaceNode_handsBack`).

The same holds of an untouched node in a pass that does change the graph around it.  Two things
are kept up while such a pass goes on, whatever it does elsewhere: the image of an untouched
node is the node, and the parts of a node that has an image have images too.  So in the end
every untouched node that the pass has come to is its own image (`image_untouched`).
-/

namespace FormulaGraph

variable {α : Type}

namespace Formula

/-- The variable occurs in the formula other than in the body of a solver that binds it.  No
replacement goes into a guard. -/
inductive Exposed (v : NodeId) : Formula α → Prop
  | var (name : String) : Exposed v (node v (.var name))
  | part {id : NodeId} {shape : Shape α (Formula α)} {c : Formula α}
      (hc : c ∈ shape.passParts) (hv : Exposed v c) : Exposed v (node id shape)
  | body {id : NodeId} {s : Solver α (Formula α)} (hne : v ≠ s.bound.id)
      (hv : Exposed v s.body) : Exposed v (node id (.solver s))

/-- The variables the formula is exposed to are left, or put in their own place. -/
inductive Untouched : Replacement α → Formula α → Prop
  | node {r : Replacement α} {id : NodeId} {shape : Shape α (Formula α)}
      (var : ∀ name, shape = .var name → ∀ put ∈ r ⟨id, name⟩, put = pure (node id shape))
      (part : ∀ c ∈ shape.passParts, Untouched r c)
      (body : ∀ s, shape = .solver s → Untouched (r.except s.bound.id) s.body) :
      Untouched r (node id shape)

/-- `d.InPass e`: a pass over `e` comes to `d`.  The body of a solver has a pass of its own. -/
inductive InPass : Formula α → Formula α → Prop
  | refl (e : Formula α) : InPass e e
  | part {d c e : Formula α} (hc : c ∈ e.shape.passParts) (hd : InPass d c) : InPass d e

/-- The passes made when `r` is applied to `e`, each with its replacement: the one over `e`, and
one over the body of every solver that one of them comes to. -/
inductive MakesPass (r : Replacement α) (e : Formula α) : Replacement α → Formula α → Prop
  | self : MakesPass r e r e
  | body {r' : Replacement α} {c : Formula α} {id : NodeId} {s : Solver α (Formula α)}
      (hc : MakesPass r e r' c) (hs : (node id (.solver s)).InPass c) :
      MakesPass r e (r'.except s.bound.id) s.body

/-- A variable is exposed at a node if it is the node, or is exposed in a part of the pass, or
in the body of a solver that does not bind it. -/
theorem exposed_node {v id : NodeId} {shape : Shape α (Formula α)} :
    (node id shape).Exposed v ↔ (id = v ∧ ∃ name, shape = .var name) ∨
      (∃ c ∈ shape.passParts, c.Exposed v) ∨
      ∃ s, shape = .solver s ∧ v ≠ s.bound.id ∧ s.body.Exposed v := by
  refine ⟨?_, ?_⟩
  · intro h
    cases h with
    | var name => exact .inl ⟨rfl, name, rfl⟩
    | part hc hv => exact .inr (.inl ⟨_, hc, hv⟩)
    | body hne hv => exact .inr (.inr ⟨_, rfl, hne, hv⟩)
  · rintro (⟨rfl, name, rfl⟩ | ⟨c, hc, hv⟩ | ⟨s, rfl, hne, hv⟩)
    · exact .var name
    · exact .part hc hv
    · exact .body hne hv

variable {D : Directory α} {r : Replacement α}

/-- What a pass comes to in an untouched formula is untouched. -/
theorem Untouched.part {c e : Formula α} (h : e.Untouched r) (hc : c ∈ e.shape.passParts) :
    c.Untouched r := by
  cases h with
  | node _ part _ => exact part c hc

/-- The body of an untouched solver is untouched by what is replaced below the binder. -/
theorem Untouched.body {id : NodeId} {s : Solver α (Formula α)}
    (h : (Formula.node id (.solver s)).Untouched r) : s.body.Untouched (r.except s.bound.id) := by
  cases h with
  | node _ _ body => exact body s rfl

/-- An untouched variable is put for itself, if anything is. -/
theorem Untouched.put {id : NodeId} {name : String} (h : (Formula.node id (.var name)).Untouched r)
    {put : Fresh (Formula α)} (hput : r ⟨id, name⟩ = some put) :
    put = pure (Formula.node id (.var name)) := by
  cases h with
  | node var _ _ => exact var name rfl put hput

/-- What is in the pass of a listed formula is listed. -/
theorem InPass.listed {d e : Formula α} (hd : d.InPass e) (he : e.ListedIn D) :
    d.ListedIn D := by
  induction hd with
  | refl => exact he
  | part hc _ ih => exact ih (he.ref (Shape.mem_refs_of_mem_passParts hc))

/-- What is made in its pass is listed too. -/
theorem MakesPass.listed {r' : Replacement α} {c e : Formula α} (h : MakesPass r e r' c)
    (he : e.ListedIn D) : c.ListedIn D := by
  induction h with
  | self => exact he
  | body _ hs ih =>
      exact (hs.listed ih).ref (Shape.mem_refs_of_mem_trialParts List.mem_cons_self)

/-- A formula is untouched where the replacement puts nothing else in the place of the variables
it is exposed to. -/
theorem untouched_of_exposed {e : Formula α} (he : e.ListedIn D)
    (h : ∀ v, e.Exposed v → ∀ name, ∀ put ∈ r ⟨v, name⟩, put = pure (D v)) : e.Untouched r := by
  induction e using inductionOnRefs generalizing r with
  | h id shape ih =>
      refine .node ?_ ?_ ?_
      · rintro name rfl put hput
        rw [h id (.var name) name put hput]
        exact congrArg pure he.entry
      · intro c hc
        have href := Shape.mem_refs_of_mem_passParts hc
        exact ih c href (he.ref href) fun v hv => h v (.part hc hv)
      · rintro s rfl
        have href : s.body ∈ (Shape.solver s).refs :=
          Shape.mem_refs_of_mem_trialParts List.mem_cons_self
        refine ih s.body href (he.ref href) ?_
        intro v hv name put hput
        rw [Replacement.except] at hput
        split at hput
        · cases hput
        · next hne => exact h v (.body hne hv) name put hput

end Formula

/-! ## A pass with nothing to do -/

/-- The images of untouched nodes are these nodes. -/
def Images.Faithful (D : Formula.Directory α) (r : Replacement α) (images : Images α) : Prop :=
  ∀ (id : NodeId) (d : Formula α), images[id]? = some d → (D id).Untouched r → d = D id

/-- From faithful images on, the pass returns the answer and nothing else happens, save that
faithful images are kept. -/
def HandsBack {β : Type} (D : Formula.Directory α) (r : Replacement α) (x : Pass α β) (b : β) :
    Prop :=
  ∀ images : Images α, images.Faithful D r →
    ∃ images' : Images α, images'.Faithful D r ∧ x.run images = pure (b, images')

section

variable {β γ : Type} {D : Formula.Directory α} {r : Replacement α}

/-- No images are wrong where there are none. -/
theorem Images.faithful_empty : (∅ : Images α).Faithful D r := by
  intro id d h
  simp at h

/-- Handing back a result makes no images. -/
theorem HandsBack.pure (b : β) : HandsBack D r (Pure.pure b : Pass α β) b :=
  fun images h => ⟨images, h, rfl⟩

/-- Steps that hand back what they were given may be put one after another. -/
theorem HandsBack.bind {x : Pass α β} {f : β → Pass α γ} {b : β} {c : γ} (hx : HandsBack D r x b)
    (hf : HandsBack D r (f b) c) : HandsBack D r (x >>= f) c := by
  intro images h
  obtain ⟨images₁, h₁, hrun₁⟩ := hx images h
  obtain ⟨images₂, h₂, hrun₂⟩ := hf images₁ h₁
  refine ⟨images₂, h₂, ?_⟩
  rw [StateT.run_bind, hrun₁, pure_bind, hrun₂]

/-- A computation without effect, in between. -/
theorem HandsBack.lift (b : β) : HandsBack D r (liftM (Pure.pure b : Fresh β) : Pass α β) b :=
  fun images h => ⟨images, h, rfl⟩

/-- A list is handed back if each element is. -/
theorem HandsBack.mapM {f : β → Pass α β} {bs : List β} (h : ∀ b ∈ bs, HandsBack D r (f b) b) :
    HandsBack D r (bs.mapM f) bs := by
  induction bs with
  | nil =>
      rw [List.mapM_nil]
      exact .pure []
  | cons b bs ih =>
      rw [List.mapM_cons]
      exact (h b List.mem_cons_self).bind
        ((ih fun c hc => h c (List.mem_cons_of_mem b hc)).bind (.pure _))

/-- A listed node is returned, whether there is an image of it or not. -/
theorem HandsBack.once {e : Formula α} (he : e.ListedIn D) (huntouched : e.Untouched r)
    {compute : Pass α (Formula α)} (h : HandsBack D r compute e) :
    HandsBack D r (Formula.once e.id compute) e := by
  intro images himages
  cases hfound : images[e.id]? with
  | some d =>
      have hd : d = e := by
        have hown := himages e.id d hfound
        rw [he.entry] at hown
        exact hown huntouched
      refine ⟨images, himages, ?_⟩
      rw [Formula.once_found hfound, hd]
  | none =>
      obtain ⟨images', himages', hrun⟩ := h images himages
      refine ⟨images'.insert e.id e, ?_, ?_⟩
      · intro id d hd hid
        rw [Std.HashMap.getElem?_insert] at hd
        split at hd
        · next hsame => rw [← beq_iff_eq.mp hsame, he.entry, ← Option.some.inj hd]
        · exact himages' id d hd hid
      · rw [Formula.once_missing hfound, hrun, pure_bind]

end

namespace Formula

variable [Scalar α] {D : Directory α} {r : Replacement α}

/-- Over its own children a node is handed back as it is. -/
theorem replaceOver_children (e : Formula α) : replaceOver e e.children = pure e := by
  rw [replaceOver, if_pos (sameAll_self _)]

/-- **A pass over an untouched formula returns it and does nothing else.** -/
theorem replaceNode_handsBack {e : Formula α} (he : e.ListedIn D) (h : e.Untouched r) :
    HandsBack D r (replaceNode r e) e := by
  induction e using inductionOnRefs generalizing r with
  | h id shape ih =>
      have hpart : ∀ c ∈ shape.passParts, HandsBack D r (replaceNode r c) c := by
        intro c hc
        have href := Shape.mem_refs_of_mem_passParts hc
        exact ih c href (he.ref href) (h.part hc)
      have hover : HandsBack D r
          (liftM (replaceOver (node id shape) shape.children) : Pass α (Formula α))
          (node id shape) := by
        rw [← children_node id shape, replaceOver_children]
        exact .lift _
      rw [replaceNode]
      refine .once (e := node id shape) he h ?_
      cases shape.kind with
      | var name =>
          rw [replaceShape]
          cases hput : r ⟨id, name⟩ with
          | some put =>
              simp only [id_node, hput, h.put hput]
              exact .lift _
          | none =>
              simp only [id_node, hput]
              exact .pure _
      | const v => exact .pure _
      | solver s =>
          have href : s.body ∈ (Shape.solver s).refs :=
            Shape.mem_refs_of_mem_trialParts List.mem_cons_self
          obtain ⟨images, -, hbody⟩ := ih s.body href (he.ref href) h.body ∅ Images.faithful_empty
          rw [replaceShape_solver, hbody]
          exact (HandsBack.lift _).bind ((hpart s.low (by simp [Shape.passParts])).bind
            ((hpart s.high (by simp [Shape.passParts])).bind
              ((hpart s.precision (by simp [Shape.passParts])).bind hover)))
      | compound hvar hconst hfree =>
          rw [replaceShape_eq _ _ hvar hconst hfree]
          rw [Shape.passParts_eq_children hfree] at hpart
          exact (HandsBack.mapM hpart).bind hover

/-- An untouched formula is replaced by itself, and nothing is built. -/
theorem Untouched.replace {e : Formula α} (he : e.ListedIn D) (h : e.Untouched r) :
    e.replace r = pure e := by
  obtain ⟨images, -, hrun⟩ := replaceNode_handsBack he h ∅ Images.faithful_empty
  rw [Formula.replace, hrun, pure_bind]

end Formula

/-! ## Untouched nodes of any pass -/

/-- The parts of a node that has an image have images. -/
def Images.Closed (D : Formula.Directory α) (images : Images α) : Prop :=
  ∀ id, id ∈ images → ∀ c ∈ (D id).shape.passParts, c.id ∈ images

/-- The later images are faithful and closed if the earlier ones are, and no fewer. -/
structure Images.Grown (D : Formula.Directory α) (r : Replacement α) (images images' : Images α) :
    Prop where
  faithful : images.Faithful D r → images'.Faithful D r
  closed : images.Closed D → images'.Closed D
  kept : ∀ id, id ∈ images → id ∈ images'

/-- The computation lets the images grow, and gives images to the listed nodes. -/
def Covers {β : Type} (D : Formula.Directory α) (r : Replacement α) (x : Pass α β)
    (es : List (Formula α)) : Prop :=
  ∀ images : Images α, Yields (x.run images) fun done =>
    images.Grown D r done.2 ∧ ∀ e ∈ es, e.id ∈ done.2

section

variable {β γ : Type} {D : Formula.Directory α} {r : Replacement α}

/-- Images need not grow. -/
theorem Images.Grown.refl (images : Images α) : images.Grown D r images :=
  ⟨fun h => h, fun h => h, fun _ h => h⟩

/-- Images that grow twice have grown. -/
theorem Images.Grown.trans {images images' images'' : Images α} (h : images.Grown D r images')
    (h' : images'.Grown D r images'') : images.Grown D r images'' :=
  ⟨fun hf => h'.faithful (h.faithful hf), fun hc => h'.closed (h.closed hc),
    fun id hid => h'.kept id (h.kept id hid)⟩

/-- Handing back a result covers nothing. -/
theorem Covers.pure (b : β) : Covers D r (Pure.pure b : Pass α β) [] :=
  fun images => Yields.pure ⟨.refl images, by simp⟩

/-- What is covered by two steps is covered by both together. -/
theorem Covers.bind {x : Pass α β} {f : β → Pass α γ} {es fs : List (Formula α)}
    (hx : Covers D r x es) (hf : ∀ b, Covers D r (f b) fs) : Covers D r (x >>= f) (es ++ fs) := by
  intro images
  rw [StateT.run_bind]
  refine (hx images).bind ?_
  rintro ⟨b, images₁⟩ ⟨hgrown₁, hes⟩
  refine (hf b images₁).mono ?_
  rintro ⟨c, images₂⟩ ⟨hgrown₂, hfs⟩
  refine ⟨hgrown₁.trans hgrown₂, ?_⟩
  intro e he
  rcases List.mem_append.mp he with he | he
  · exact hgrown₂.kept _ (hes e he)
  · exact hfs e he

/-- Building nodes covers nothing. -/
theorem Covers.lift (x : Fresh β) : Covers D r (liftM x : Pass α β) [] := by
  intro images n
  exact ⟨.refl images, by simp⟩

/-- Going through a list covers the list, if each step covers its element. -/
theorem Covers.mapM {f : Formula α → Pass α (Formula α)} {es : List (Formula α)}
    (h : ∀ e ∈ es, Covers D r (f e) [e]) : Covers D r (es.mapM f) es := by
  induction es with
  | nil =>
      rw [List.mapM_nil]
      exact .pure []
  | cons e es ih =>
      have htail := ih fun c hc => h c (List.mem_cons_of_mem e hc)
      rw [List.mapM_cons, ← List.append_nil (e :: es)]
      exact (h e List.mem_cons_self).bind fun _ => htail.bind fun _ => .pure _

/-- A node gets its image after its parts have got theirs. -/
theorem Covers.once {e : Formula α} (he : e.ListedIn D) {compute : Pass α (Formula α)}
    (hx : Covers D r compute e.shape.passParts)
    (hself : e.Untouched r → HandsBack D r (Formula.once e.id compute) e) :
    Covers D r (Formula.once e.id compute) [e] := by
  intro images
  cases hfound : images[e.id]? with
  | some d =>
      rw [Formula.once_found hfound]
      have hmem : e.id ∈ images := by
        rw [Std.HashMap.mem_iff_isSome_getElem?, hfound]
        rfl
      exact .pure ⟨.refl images, by simpa using hmem⟩
  | none =>
      have hfaithful : images.Faithful D r →
          Yields ((Formula.once e.id compute).run images) fun done => done.2.Faithful D r := by
        intro himages
        by_cases huntouched : e.Untouched r
        · obtain ⟨images', himages', hrun⟩ := hself huntouched images himages
          rw [hrun]
          exact .pure himages'
        · rw [Formula.once_missing hfound]
          refine (hx images).bind ?_
          rintro ⟨d, images'⟩ ⟨hgrown, -⟩
          refine .pure ?_
          intro id d' hd' hid
          rw [Std.HashMap.getElem?_insert] at hd'
          split at hd'
          · next hsame =>
              rw [← beq_iff_eq.mp hsame, he.entry] at hid
              exact absurd hid huntouched
          · exact hgrown.faithful himages id d' hd' hid
      have hrest : Yields ((Formula.once e.id compute).run images) fun done =>
          (images.Closed D → done.2.Closed D) ∧ (∀ id, id ∈ images → id ∈ done.2) ∧
            e.id ∈ done.2 := by
        rw [Formula.once_missing hfound]
        refine (hx images).bind ?_
        rintro ⟨d, images'⟩ ⟨hgrown, hparts⟩
        refine .pure ⟨?_, ?_, by simp⟩
        · intro hclosed id hid c hc
          rw [Std.HashMap.mem_insert] at hid ⊢
          rcases hid with hsame | hid
          · rw [← beq_iff_eq.mp hsame, he.entry] at hc
            exact .inr (hparts c hc)
          · exact .inr (hgrown.closed hclosed id hid c hc)
        · intro id hid
          exact Std.HashMap.mem_insert.mpr (.inr (hgrown.kept id hid))
      intro n
      obtain ⟨hclosed, hkept, hmem⟩ := hrest n
      exact ⟨⟨fun h => hfaithful h n, hclosed, hkept⟩, by simpa using hmem⟩

end

namespace Formula

variable [Scalar α] {D : Directory α} {r : Replacement α}

/-- **What a pass keeps up**: in every state, over every listed formula. -/
theorem replaceNode_covers {e : Formula α} (he : e.ListedIn D) :
    Covers D r (replaceNode r e) [e] := by
  induction e using inductionOnRefs with
  | h id shape ih =>
      have hpart : ∀ c ∈ shape.passParts, Covers D r (replaceNode r c) [c] := by
        intro c hc
        have href := Shape.mem_refs_of_mem_passParts hc
        exact ih c href (he.ref href)
      have hself : (node id shape).Untouched r → HandsBack D r (replaceNode r (node id shape))
          (node id shape) := replaceNode_handsBack he
      rw [replaceNode] at hself ⊢
      refine .once (e := node id shape) he ?_ hself
      cases shape.kind with
      | var name =>
          rw [replaceShape]
          split
          · exact .lift _
          · exact .pure _
      | const v => exact .pure _
      | solver s =>
          rw [replaceShape_solver]
          exact (Covers.lift _).bind fun _ => (hpart s.low (by simp [Shape.passParts])).bind
            fun _ => (hpart s.high (by simp [Shape.passParts])).bind
              fun _ => (hpart s.precision (by simp [Shape.passParts])).bind fun _ => .lift _
      | compound hvar hconst hfree =>
          rw [replaceShape_eq _ _ hvar hconst hfree]
          rw [Shape.passParts_eq_children hfree] at hpart
          have hcovers := (Covers.mapM hpart).bind fun ds =>
            Covers.lift (replaceOver (node id shape) ds)
          rw [List.append_nil] at hcovers
          rwa [shape_node, Shape.passParts_eq_children hfree]

/-- **An untouched node that a pass comes to is its own image.** -/
theorem image_untouched {d e : Formula α} (he : e.ListedIn D) (hd : d.InPass e)
    (h : d.Untouched r) (n : NodeId) :
    (((replaceNode r e).run ∅).run n).1.2[d.id]? = some d := by
  obtain ⟨hgrown, hroot⟩ := replaceNode_covers (r := r) he ∅ n
  have hclosed := hgrown.closed (by intro id hid; simp at hid)
  have hmem : d.id ∈ (((replaceNode r e).run ∅).run n).1.2 := by
    have hfrom : ∀ {c : Formula α}, d.InPass c → c.ListedIn D →
        c.id ∈ (((replaceNode r e).run ∅).run n).1.2 →
        d.id ∈ (((replaceNode r e).run ∅).run n).1.2 := by
      intro c hc
      induction hc with
      | refl => exact fun _ h => h
      | part hpart _ ih =>
          intro hlisted hmem
          refine ih (hlisted.ref (Shape.mem_refs_of_mem_passParts hpart)) ?_
          exact hclosed _ hmem _ (by rwa [hlisted.entry])
    exact hfrom hd he (hroot e List.mem_cons_self)
  obtain ⟨d', hd'⟩ := Option.isSome_iff_exists.mp (Std.HashMap.mem_iff_isSome_getElem?.mp hmem)
  have hown := hgrown.faithful Images.faithful_empty d.id d' hd'
  rw [(hd.listed he).entry] at hown
  rw [hd', hown h]

/-! ## Substitution and freezing -/

/-- **A replacement with nothing to do returns the very formula.**  Substitution does so if
every listed variable the formula is exposed to is first paired with its own node, and freezing
if all variables the formula is exposed to are excluded: nothing is built.  In any replacement,
in the pass over the formula and in those over the bodies of its solvers, a node that is
untouched is its own image. -/
theorem replace_untouched {e : Formula α} (he : e.ListedIn D) :
    (∀ pairs : List (NodeId × Formula α), (∀ p ∈ pairs, p.2.ListedIn D) →
      (∀ v ∈ pairs.map Prod.fst, e.Exposed v →
        ∃ p, pairs.find? (fun p => p.1 == v) = some p ∧ p.2.id = v) →
      e.substitute pairs = pure e) ∧
    (∀ (values : NodeId → α) (excluded : List NodeId), (∀ v, e.Exposed v → v ∈ excluded) →
      e.freeze values excluded = pure e) ∧
    ∀ (r r' : Replacement α) (c d : Formula α), MakesPass r e r' c → d.InPass c →
      d.Untouched r' → ∀ n, (((replaceNode r' c).run ∅).run n).1.2[d.id]? = some d := by
  refine ⟨?_, ?_, ?_⟩
  · intro pairs hlisted hpairs
    refine (untouched_of_exposed he ?_).replace he
    intro v hv name put hput
    obtain ⟨p, hfound, rfl⟩ := Option.map_eq_some_iff.mp hput
    have hmem : v ∈ pairs.map Prod.fst := by
      have hkey : p.1 = v := by simpa using List.find?_some hfound
      exact List.mem_map.mpr ⟨p, List.mem_of_find?_eq_some hfound, hkey⟩
    obtain ⟨q, hfound', hid⟩ := hpairs v hmem hv
    obtain rfl : q = p := Option.some.inj (hfound'.symm.trans hfound)
    rw [← hid, (hlisted q (List.mem_of_find?_eq_some hfound)).entry]
  · intro values excluded hexcluded
    refine (untouched_of_exposed he ?_).replace he
    intro v hv name put hput
    rw [Replacement.ofValues, if_pos (by simpa using hexcluded v hv)] at hput
    cases hput
  · intro r r' c d hpass hd h n
    exact image_untouched (hpass.listed he) hd h n

/-- A solver for `t` under two negations, its body a sum of a single difference: nothing of it
is simple.  Putting zero in the place of `t` leaves it as it is, and so does freezing with `x`
excluded.  When one is put in the place of `x`, the solver is built anew, `t` in it is not. -/
theorem replace_negated_solver :
    let t : Formula Int := node 2 (.var "t")
    let x : Formula Int := node 3 (.var "x")
    let difference : Formula Int := node 4 (.binary .subtract x t)
    let body : Formula Int := node 5 (.assoc .add [difference])
    let search : Solver Int (Formula Int) :=
      { body, bound := ⟨2, "t"⟩, low := zero, high := one, precision := one, guard := none }
    let root : Formula Int := node 6 (.solver search)
    let negated : Formula Int := node 7 (.unary .negate root)
    let e : Formula Int := node 8 (.unary .negate negated)
    let D : Directory Int := fun id =>
      match id with
      | 0 => zero
      | 1 => one
      | 2 => t
      | 3 => x
      | 4 => difference
      | 5 => body
      | 6 => root
      | 7 => negated
      | _ => e
    let r : Replacement Int := .ofPairs [(3, one)]
    e.ListedIn D ∧ ¬ e.Exposed 2 ∧ e.substitute [(2, zero)] = pure e ∧
      e.freeze (fun _ => 5) [3] = pure e ∧ MakesPass r e (r.except 2) body ∧
      (((replaceNode (r.except 2) body).run ∅).run 9).1.2[(2 : NodeId)]? = some t ∧
      ((e.replace r).run 9).1.id = 10 := by
  intro t x difference body search root negated e D r
  have hlisted : e.ListedIn D := by
    simp [listedIn_node, D, e, negated, root, search, body, difference, x, t, zero, one, Shape.refs,
      Shape.children, Solver.refs, Solver.children, Variable.formula]
  have hexposed : ∀ v, e.Exposed v → v = 3 := by
    intro v hv
    simp [e, negated, root, search, body, difference, x, t, zero, one, exposed_node,
      Shape.passParts, Shape.children] at hv
    obtain ⟨hne, hv | hv⟩ := hv
    · exact hv.symm
    · exact absurd hv.symm hne
  have hnot : ¬ e.Exposed 2 := fun h => absurd (hexposed 2 h) (by decide)
  obtain ⟨hsubstitute, hfreeze, himage⟩ := replace_untouched hlisted
  have hpass : MakesPass r e (r.except 2) body :=
    .body (s := search) .self (.part (c := negated) (by simp [e, Shape.passParts, Shape.children])
        (.part (c := root) (by simp [negated, Shape.passParts, Shape.children]) (.refl _)))
  have ht : t.Untouched (r.except 2) :=
    .node (by simp [r, Replacement.except]) (by simp [Shape.passParts, Shape.children]) (by simp)
  refine ⟨hlisted, hnot, ?_, ?_, hpass, ?_, ?_⟩
  · refine hsubstitute _ ?_ ?_
    · intro p hp
      rw [List.mem_singleton.mp hp]
      exact .node rfl (by simp [Shape.refs, Shape.children])
    · intro v hv hexp
      rw [List.mem_singleton.mp hv] at hexp
      exact absurd hexp hnot
  · exact hfreeze _ _ fun v hv => by simpa using hexposed v hv
  · refine himage r (r.except 2) body t hpass ?_ ht 9
    exact .part (c := difference) (by simp [body, Shape.passParts, Shape.children])
      (.part (c := t) (by simp [difference, Shape.passParts, Shape.children]) (.refl _))
  · simp only [r, e, negated, root, search, body, difference, x, t]
    cbv

end Formula

end FormulaGraph
