import FormulaGraph.Proofs.Recomputations
import FormulaGraph.Proofs.UntouchedNodes

/-!
# Shared nodes under substitution

The images a pass keeps are only ever added to, and each was made of images kept before it
(`Images.Gathered`).  So one table answers for the whole pass: every node that the pass comes to
has one image in it, made of the images that its parts have in it, whoever refers to them
(`pass_images`).

The body of a solver has a pass of its own, with a table of its own.  A node therefore has one
image in every **scope** it is reached in, a scope being told by the solvers whose bodies lead
to it, and every node is rebuilt over the images of its children in their scopes.  There is one
image altogether if the scopes have nothing in common but variables and nodes in which nothing is
replaced (`substitute_shares`), as in every formula without solvers.  A body that two solvers
share is rewritten twice (`substitute_splits_body`).
-/

namespace FormulaGraph

variable {α : Type}

/-! ## Scopes -/

/-- What a pass of its own is made over: the body of a solver. -/
def Shape.bodies : Shape α (Formula α) → List (Formula α)
  | .solver s => [s.body]
  | _ => []

/-- The children of a node are its bodies and the parts of its pass. -/
theorem Shape.children_eq (shape : Shape α (Formula α)) :
    shape.children = shape.bodies ++ shape.passParts := by
  cases shape <;> rfl

namespace Formula

/-- What is in the pass of a formula is within it. -/
theorem InPass.within {d e : Formula α} (h : d.InPass e) : d.Within e := by
  induction h with
  | refl => exact .refl _
  | part hc _ ih => exact .child (Shape.mem_children_of_mem_passParts hc) ih

/-- Passes go on in what they come to. -/
theorem InPass.trans {c d e : Formula α} (h : c.InPass d) (h' : d.InPass e) : c.InPass e := by
  induction h' with
  | refl => exact h
  | part hc _ ih => exact .part hc ih

/-- In the pass of a node are the node and what is in the passes of its parts. -/
theorem inPass_node {d : Formula α} {id : NodeId} {shape : Shape α (Formula α)} :
    d.InPass (node id shape) ↔ d = node id shape ∨ ∃ c ∈ shape.passParts, d.InPass c := by
  refine ⟨?_, ?_⟩
  · intro h
    cases h with
    | refl => exact .inl rfl
    | part hc hd => exact .inr ⟨_, hc, hd⟩
  · rintro (rfl | ⟨c, hc, hd⟩)
    · exact .refl _
    · exact .part hc hd

/-- What holds of a formula as soon as it holds of all that is within its children holds of every
formula. -/
theorem inductionOnWithin {P : Formula α → Prop}
    (h : ∀ e : Formula α, (∀ c ∈ e.children, ∀ d : Formula α, d.Within c → P d) → P e)
    (e : Formula α) : P e := by
  suffices hwithin : ∀ d : Formula α, d.Within e → P d from hwithin e (.refl e)
  induction e using inductionOnRefs with
  | h id shape ih =>
      have hbelow : ∀ c ∈ shape.children, ∀ d : Formula α, d.Within c → P d :=
        fun c hc => ih c (Shape.mem_refs_of_mem_children hc)
      intro d hd
      rcases within_node.mp hd with rfl | ⟨c, hc, hd⟩
      · exact h _ hbelow
      · exact hbelow c hc d hd

/-- `d.ReachedIn scope e`: going down from `e` through the bodies of the solvers of this scope,
one in the other, a pass comes to `d`. -/
inductive ReachedIn (d : Formula α) : List NodeId → Formula α → Prop
  | here {e : Formula α} (h : d.InPass e) : ReachedIn d [] e
  | body {e : Formula α} {id : NodeId} {s : Solver α (Formula α)} {scope : List NodeId}
      (hs : (node id (.solver s)).InPass e) (h : ReachedIn d scope s.body) :
      ReachedIn d (id :: scope) e

section

variable {c d e : Formula α} {scope : List NodeId}

/-- Reached without binders is what is in the pass. -/
theorem reachedIn_nil : d.ReachedIn [] e ↔ d.InPass e := by
  refine ⟨?_, .here⟩
  intro h
  cases h with
  | here h => exact h

/-- The way below a binder leads through the body of a solver. -/
theorem reachedIn_cons {id : NodeId} : d.ReachedIn (id :: scope) e ↔
    ∃ s : Solver α (Formula α), (node id (.solver s)).InPass e ∧ d.ReachedIn scope s.body := by
  refine ⟨?_, fun ⟨s, hs, h⟩ => .body hs h⟩
  intro h
  cases h with
  | body hs h => exact ⟨_, hs, h⟩

/-- What is reached is within the formula. -/
theorem ReachedIn.within (h : d.ReachedIn scope e) : d.Within e := by
  induction h with
  | here h => exact h.within
  | body hs _ ih => exact ih.trans (Within.trans (.child List.mem_cons_self (.refl _)) hs.within)

/-- What is consulted in the pass of a node is reached in its scope. -/
theorem ReachedIn.part (h : d.ReachedIn scope e) (hc : c ∈ d.shape.passParts) :
    c.ReachedIn scope e := by
  induction h with
  | here h => exact .here (InPass.trans (.part hc (.refl c)) h)
  | body hs _ ih => exact .body hs ih

/-- The body of a solver is reached in a scope of its own. -/
theorem ReachedIn.solver {id : NodeId} {s : Solver α (Formula α)}
    (h : (node id (.solver s)).ReachedIn scope e) : s.body.ReachedIn (scope ++ [id]) e := by
  induction h with
  | here h => exact .body h (.here (.refl _))
  | body hs _ ih => exact .body hs ih

/-- All that is within a formula is reached in some scope. -/
theorem Within.reached (h : d.Within e) : ∃ scope, d.ReachedIn scope e := by
  induction h with
  | refl => exact ⟨[], .here (.refl d)⟩
  | @child _ e hc _ ih =>
      obtain ⟨scope, hd⟩ := ih
      obtain ⟨id, shape⟩ := e
      rw [children_node, Shape.children_eq, List.mem_append] at hc
      rcases hc with hbody | hpart
      · cases shape with
        | solver s =>
            rw [List.mem_singleton.mp hbody] at hd
            exact ⟨_, .body (.refl _) hd⟩
        | _ => cases hbody
      · refine ⟨scope, ?_⟩
        cases hd with
        | here h => exact .here (.part hpart h)
        | body hs h => exact .body (.part hpart hs) h

end

end Formula

/-! ## One table for a pass -/

/-- Images are added, and none is changed. -/
def Images.Before (images images' : Images α) : Prop :=
  ∀ (id : NodeId) (d : Formula α), images[id]? = some d → images'[id]? = some d

namespace Images

variable {images images' images'' : Images α}

/-- No image is lost where none is made. -/
theorem Before.refl (images : Images α) : images.Before images := fun _ _ h => h

/-- No image is lost on the way. -/
theorem Before.trans (h : images.Before images') (h' : images'.Before images'') :
    images.Before images'' :=
  fun id d hd => h' id d (h id d hd)

/-- A new image displaces no other. -/
theorem Before.insert {id : NodeId} (h : images[id]? = none) (d : Formula α) :
    images.Before (images.insert id d) := by
  intro i d' hd'
  rw [Std.HashMap.getElem?_insert]
  split
  · next hsame =>
      rw [beq_iff_eq.mp hsame] at h
      cases h.symm.trans hd'
  · exact hd'

end Images

variable [Scalar α]

namespace Formula

/-- The image of a node, and the images of its parts that it is made of. -/
inductive MadeFrom (r : Replacement α) (images : Images α) : Formula α → Formula α → Prop
  | kept {id : NodeId} {name : String} (h : r ⟨id, name⟩ = none) :
      MadeFrom r images (node id (.var name)) (node id (.var name))
  | put {id : NodeId} {name : String} {x : Fresh (Formula α)} (h : r ⟨id, name⟩ = some x)
      (n : NodeId) : MadeFrom r images (node id (.var name)) (x.run n).1
  | rebuilt {id : NodeId} {shape : Shape α (Formula α)} {ds : List (Formula α)}
      (hvar : ∀ name, shape ≠ .var name) (hfree : ∀ s, shape ≠ .solver s)
      (hds : List.Forall₂ (fun c d => images[c.id]? = some d) shape.children ds) (n : NodeId) :
      MadeFrom r images (node id shape) ((replaceOver (node id shape) ds).run n).1
  | solver {id : NodeId} {s : Solver α (Formula α)} {low high precision : Formula α} (m : NodeId)
      (hlow : images[s.low.id]? = some low) (hhigh : images[s.high.id]? = some high)
      (hprecision : images[s.precision.id]? = some precision) (n : NodeId) :
      MadeFrom r images (node id (.solver s)) ((replaceOver (node id (.solver s))
        [((s.body.replace (r.except s.bound.id)).run m).1, low, high, precision]).run n).1

variable {r : Replacement α} {images images' : Images α}

/-- What was made from images is made from more of them. -/
theorem MadeFrom.mono {d d' : Formula α} (h : MadeFrom r images d d')
    (hbefore : images.Before images') : MadeFrom r images' d d' := by
  cases h with
  | kept h => exact .kept h
  | put h n => exact .put h n
  | rebuilt hvar hfree hds n => exact .rebuilt hvar hfree (hds.imp fun _ _ h => hbefore _ _ h) n
  | solver m hlow hhigh hprecision n =>
      exact .solver m (hbefore _ _ hlow) (hbefore _ _ hhigh) (hbefore _ _ hprecision) n

/-- The parts of a node that has an image have images. -/
theorem MadeFrom.part {c d d' : Formula α} (h : MadeFrom r images d d')
    (hc : c ∈ d.shape.passParts) : ∃ c', images[c.id]? = some c' := by
  cases h with
  | kept h => cases hc
  | put h n => cases hc
  | rebuilt hvar hfree hds n =>
      rw [shape_node, Shape.passParts_eq_children hfree] at hc
      obtain ⟨c', -, hc'⟩ := exists_of_forall₂ hds.flip c hc
      exact ⟨c', hc'⟩
  | solver m hlow hhigh hprecision n =>
      simp only [shape_node, Shape.passParts, List.mem_cons, List.not_mem_nil, or_false] at hc
      rcases hc with rfl | rfl | rfl
      · exact ⟨_, hlow⟩
      · exact ⟨_, hhigh⟩
      · exact ⟨_, hprecision⟩

end Formula

open Formula

/-- Every image is made of images beside it. -/
def Images.Grounded (D : Directory α) (r : Replacement α) (images : Images α) : Prop :=
  ∀ (id : NodeId) (d : Formula α), images[id]? = some d → MadeFrom r images (D id) d

/-- The later images are those of before and images of nodes within `es`, made of one another. -/
structure Images.Gathered (D : Directory α) (r : Replacement α) (es : List (Formula α))
    (images images' : Images α) : Prop where
  before : images.Before images'
  grounded : images.Grounded D r → images'.Grounded D r
  added : ∀ id, images[id]? = none → images'[id]? ≠ none →
    ∃ e ∈ es, ∃ d : Formula α, d.InPass e ∧ d.id = id

/-- Begun with these images, the computation gathers images of nodes within `es`, and for these
and its answer `P` holds. -/
def Gathers {β : Type} (D : Directory α) (r : Replacement α) (images : Images α) (x : Pass α β)
    (es : List (Formula α)) (P : Images α → β → Prop) : Prop :=
  Yields (x.run images) fun done => images.Gathered D r es done.2 ∧ P done.2 done.1

section

variable {β γ : Type} {D : Directory α} {r : Replacement α} {images images' images'' : Images α}
  {es l : List (Formula α)} {P : Images α → β → Prop} {Q : Images α → γ → Prop}

/-- Images that are not changed have gathered what there was to gather. -/
theorem Images.Gathered.refl (images : Images α) : images.Gathered D r es images :=
  ⟨.refl images, fun h => h, fun _ hnone hsome => absurd hnone hsome⟩

/-- What is gathered first and then is gathered in all. -/
theorem Images.Gathered.trans (h : images.Gathered D r es images')
    (h' : images'.Gathered D r l images'') : images.Gathered D r (es ++ l) images'' := by
  refine ⟨h.before.trans h'.before, fun hg => h'.grounded (h.grounded hg), ?_⟩
  intro id hnone hsome
  by_cases hmid : images'[id]? = none
  · obtain ⟨e, he, hd⟩ := h'.added id hmid hsome
    exact ⟨e, List.mem_append_right es he, hd⟩
  · obtain ⟨e, he, hd⟩ := h.added id hnone hmid
    exact ⟨e, List.mem_append_left l he, hd⟩

/-- Handing back a result gathers nothing. -/
theorem Gathers.pure {b : β} (h : P images b) : Gathers D r images (Pure.pure b) [] P :=
  Yields.pure ⟨.refl images, h⟩

/-- Building nodes gathers nothing. -/
theorem Gathers.lift {x : Fresh β} (h : ∀ n, P images (x.run n).1) :
    Gathers D r images (liftM x : Pass α β) [] P :=
  fun n => ⟨.refl images, h n⟩

/-- What two steps gather is gathered by both together. -/
theorem Gathers.bind {x : Pass α β} {f : β → Pass α γ} (hx : Gathers D r images x es P)
    (hf : ∀ images' b, images.Before images' → P images' b → Gathers D r images' (f b) l Q) :
    Gathers D r images (x >>= f) (es ++ l) Q := by
  rw [Gathers, StateT.run_bind]
  refine Yields.bind hx ?_
  rintro ⟨b, images₁⟩ ⟨hgathered, hb⟩
  refine (hf images₁ b hgathered.before hb).mono ?_
  rintro ⟨c, images₂⟩ ⟨hgathered', hc⟩
  exact ⟨hgathered.trans hgathered', hc⟩

/-- A last step gathers no more. -/
theorem Gathers.finish {x : Pass α β} {f : β → Pass α γ} (hx : Gathers D r images x es P)
    (hf : ∀ images' b, images.Before images' → P images' b → Gathers D r images' (f b) [] Q) :
    Gathers D r images (x >>= f) es Q := by
  have hbind := hx.bind hf
  rwa [List.append_nil] at hbind

/-- Going through a list gathers an image for each element. -/
theorem Gathers.mapM {f : Formula α → Pass α (Formula α)}
    (h : ∀ e ∈ es, ∀ images, Gathers D r images (f e) [e] fun I d => I[e.id]? = some d) :
    Gathers D r images (es.mapM f) es fun I ds =>
      List.Forall₂ (fun e d => I[e.id]? = some d) es ds := by
  induction es generalizing images with
  | nil =>
      rw [List.mapM_nil]
      exact .pure .nil
  | cons e es ih =>
      have htail : ∀ images, Gathers D r images (es.mapM f) es fun I ds =>
          List.Forall₂ (fun e d => I[e.id]? = some d) es ds :=
        fun images => ih fun c hc => h c (List.mem_cons_of_mem e hc)
      rw [List.mapM_cons]
      refine (h e List.mem_cons_self images).bind (l := es) fun images₁ d _ hd => ?_
      refine (htail images₁).finish fun images₂ ds hbefore hds => ?_
      exact .pure (.cons (hbefore _ _ hd) hds)

/-- A node gets an image once it has been made, and has got none in the meantime: no node is
within one of its own parts. -/
theorem Gathers.once {e : Formula α} (he : e.ListedIn D) {compute : Pass α (Formula α)}
    (hx : Gathers D r images compute e.shape.passParts fun I d => MadeFrom r I e d) :
    Gathers D r images (Formula.once e.id compute) [e] fun I d => I[e.id]? = some d := by
  cases hfound : images[e.id]? with
  | some d =>
      rw [Gathers, once_found hfound]
      exact .pure ⟨.refl images, hfound⟩
  | none =>
      rw [Gathers, once_missing hfound]
      refine Yields.bind hx ?_
      rintro ⟨d, images'⟩ ⟨hgathered, hmade⟩
      have hnone : images'[e.id]? = none := by
        by_contra hsome
        obtain ⟨c, hc, d, hd, hid⟩ := hgathered.added e.id hfound hsome
        have hchild : c ∈ e.children := Shape.mem_children_of_mem_passParts hc
        obtain rfl : d = e := ((he.child hchild).within hd.within).eq_of_id_eq he hid
        exact not_within_child d c hchild hd.within
      have hinsert : images'.Before (images'.insert e.id d) := .insert hnone d
      refine .pure ⟨⟨hgathered.before.trans hinsert, ?_, ?_⟩, Std.HashMap.getElem?_insert_self⟩
      · intro hgrounded id d' hd'
        rw [Std.HashMap.getElem?_insert] at hd'
        split at hd'
        · next hsame =>
            rw [← beq_iff_eq.mp hsame, he.entry, ← Option.some.inj hd']
            exact hmade.mono hinsert
        · exact (hgathered.grounded hgrounded id d' hd').mono hinsert
      · intro id hmissing hgot
        by_cases hsame : e.id = id
        · exact ⟨e, List.mem_cons_self, e, .refl e, hsame⟩
        · rw [Std.HashMap.getElem?_insert, if_neg (by simpa using hsame)] at hgot
          obtain ⟨c, hc, d, hd, hid⟩ := hgathered.added id hmissing hgot
          exact ⟨e, List.mem_cons_self, d, .part hc hd, hid⟩

end

namespace Formula

variable {D : Directory α} {r : Replacement α}

/-- **What a pass gathers**: an image for its node, made of the images of the parts. -/
theorem replaceNode_gathers {e : Formula α} (he : e.ListedIn D) (images : Images α) :
    Gathers D r images (replaceNode r e) [e] fun I d => I[e.id]? = some d := by
  induction e using inductionOnRefs generalizing images with
  | h id shape ih =>
      have hpart : ∀ c ∈ shape.passParts, ∀ images,
          Gathers D r images (replaceNode r c) [c] fun I d => I[c.id]? = some d := by
        intro c hc
        have href := Shape.mem_refs_of_mem_passParts hc
        exact ih c href (he.ref href)
      rw [replaceNode]
      refine .once (e := node id shape) he ?_
      cases shape.kind with
      | var name =>
          rw [replaceShape]
          split
          · next put hput => exact .lift fun n => .put hput n
          · next hput => exact .pure (.kept hput)
      | const v =>
          refine .pure ?_
          have hself : MadeFrom r images (node id (.const v)) _ :=
            .rebuilt (by simp) (by simp) .nil 0
          rwa [show replaceOver (node id (.const v)) [] = pure _ from
            replaceOver_children (node id (.const v))] at hself
      | solver s =>
          rw [replaceShape_solver]
          have hbody : Gathers D r images
              (liftM ((replaceNode (r.except s.bound.id) s.body).run ∅) : Pass α _) []
              fun _ b => ∃ m, ((s.body.replace (r.except s.bound.id)).run m).1 = b.1 :=
            .lift fun m => ⟨m, rfl⟩
          refine hbody.bind (l := [s.low] ++ ([s.high] ++ [s.precision])) ?_
          rintro images₁ ⟨body, inner⟩ - ⟨m, rfl⟩
          refine (hpart s.low (by simp [Shape.passParts]) images₁).bind
            fun images₂ low _ hlow => ?_
          refine (hpart s.high (by simp [Shape.passParts]) images₂).bind
            fun images₃ high hbefore₃ hhigh => ?_
          refine (hpart s.precision (by simp [Shape.passParts]) images₃).finish
            fun images₄ precision hbefore₄ hprecision => ?_
          exact .lift fun n =>
            .solver m (hbefore₄ _ _ (hbefore₃ _ _ hlow)) (hbefore₄ _ _ hhigh) hprecision n
      | compound hvar hconst hfree =>
          rw [replaceShape_eq _ _ hvar hconst hfree, shape_node, Shape.passParts_eq_children hfree]
          rw [Shape.passParts_eq_children hfree] at hpart
          exact (Gathers.mapM hpart).finish fun _ ds _ hds =>
            .lift fun n => .rebuilt hvar hfree hds n

/-- **One image for each node a pass comes to**, made of those of its parts. -/
theorem pass_images {e : Formula α} (he : e.ListedIn D) (n : NodeId) :
    let done := (((replaceNode r e).run ∅).run n).1
    done.2[e.id]? = some done.1 ∧
      ∀ d : Formula α, d.InPass e → ∃ d', done.2[d.id]? = some d' ∧ MadeFrom r done.2 d d' := by
  intro done
  obtain ⟨hgathered, hroot⟩ := replaceNode_gathers (r := r) he ∅ n
  have hgrounded : done.2.Grounded D r := hgathered.grounded (by intro id d h; simp at h)
  refine ⟨hroot, ?_⟩
  have hfrom : ∀ {c d : Formula α}, d.InPass c → c.ListedIn D → (∃ c', done.2[c.id]? = some c') →
      ∃ d', done.2[d.id]? = some d' ∧ MadeFrom r done.2 d d' := by
    intro c d hd
    induction hd with
    | refl =>
        rintro hc ⟨c', hc'⟩
        refine ⟨c', hc', ?_⟩
        have hmade := hgrounded _ c' hc'
        rwa [hc.entry] at hmade
    | part hpart _ ih =>
        rintro hc ⟨c', hc'⟩
        refine ih (hc.ref (Shape.mem_refs_of_mem_passParts hpart)) ?_
        have hmade := hgrounded _ c' hc'
        rw [hc.entry] at hmade
        exact hmade.part hpart
  exact fun d hd => hfrom hd he ⟨_, hroot⟩

/-! ## Images in their scopes -/

/-- The images of the children of a node: of a body the inner one. -/
def imagesOver (image inner : NodeId → Formula α) (shape : Shape α (Formula α)) :
    List (Formula α) :=
  (shape.bodies.map fun c => inner c.id) ++ shape.passParts.map fun c => image c.id

/-- The image of a variable is what is first paired with it, or the variable.  Any other node is
rebuilt over the images of its children. -/
structure Rewritten (pairs : List (NodeId × Formula α)) (image inner : NodeId → Formula α)
    (d : Formula α) : Prop where
  var : ∀ name, d.shape = .var name →
    image d.id = ((pairs.find? fun p => p.1 == d.id).map Prod.snd).getD d
  rebuilt : (∀ name, d.shape ≠ .var name) →
    ∃ n, image d.id = ((replaceOver d (imagesOver image inner d.shape)).run n).1

/-- No solver within the formula binds a variable of the list. -/
def BindsNone (vs : List NodeId) (e : Formula α) : Prop :=
  ∀ (id : NodeId) (s : Solver α (Formula α)), (node id (.solver s)).Within e → s.bound.id ∉ vs

variable {pairs : List (NodeId × Formula α)} {image inner image' inner' : NodeId → Formula α}

omit [Scalar α] in
/-- What binds none of the variables binds none of them in its parts. -/
theorem BindsNone.within {vs : List NodeId} {d e : Formula α} (h : e.BindsNone vs)
    (hd : d.Within e) : d.BindsNone vs :=
  fun id s hs => h id s (hs.trans hd)

omit [Scalar α] in
/-- Where nothing is bound, binders change no replacement. -/
theorem ofPairs_except {v : NodeId} (hv : v ∉ pairs.map Prod.fst) :
    (Replacement.ofPairs pairs).except v = .ofPairs pairs := by
  funext w
  rw [Replacement.except]
  split
  · next hw =>
      have hnone : (pairs.find? fun p => p.1 == w.id) = none := by
        rw [List.find?_eq_none]
        intro p hp hkey
        exact hv (List.mem_map.mpr ⟨p, hp, (beq_iff_eq.mp hkey).trans hw⟩)
      rw [Replacement.ofPairs, hnone, Option.map_none]
  · rfl

omit [Scalar α] in
/-- What is made of a node depends on the images of its children only. -/
theorem imagesOver_congr {shape : Shape α (Formula α)}
    (hbody : ∀ c ∈ shape.bodies, inner c.id = inner' c.id)
    (hpart : ∀ c ∈ shape.passParts, image c.id = image' c.id) :
    imagesOver image inner shape = imagesOver image' inner' shape := by
  rw [imagesOver, imagesOver, List.map_congr_left hbody, List.map_congr_left hpart]

/-- Only the images of a node and of its children matter. -/
theorem Rewritten.congr {d : Formula α} (h : Rewritten pairs image inner d)
    (hself : image d.id = image' d.id) (hbody : ∀ c ∈ d.shape.bodies, inner c.id = inner' c.id)
    (hpart : ∀ c ∈ d.shape.passParts, image c.id = image' c.id) :
    Rewritten pairs image' inner' d := by
  refine ⟨?_, ?_⟩
  · rw [← hself]
    exact h.var
  · rw [← hself, ← imagesOver_congr hbody hpart]
    exact h.rebuilt

/-- A node is rewritten by its pass, whatever the inner images are, if they have that of its
body. -/
theorem MadeFrom.rewritten {images : Images α} {d d' : Formula α}
    (h : MadeFrom (.ofPairs pairs) images d d') (hself : image d.id = d')
    (hkept : ∀ id c, images[id]? = some c → image id = c) :
    ∃ m, ∀ inner : NodeId → Formula α,
      (∀ s, d.shape = .solver s → inner s.body.id =
        ((s.body.replace ((Replacement.ofPairs pairs).except s.bound.id)).run m).1) →
      Rewritten pairs image inner d := by
  cases h with
  | @kept id name hnone =>
      refine ⟨0, fun inner _ => ⟨fun _ _ => ?_, fun hvar => absurd rfl (hvar name)⟩⟩
      rw [hself, id_node, Option.map_eq_none_iff.mp hnone]
      rfl
  | @put id name x hput n =>
      refine ⟨0, fun inner _ => ⟨fun _ _ => ?_, fun hvar => absurd rfl (hvar name)⟩⟩
      obtain ⟨p, hfound, rfl⟩ := Option.map_eq_some_iff.mp hput
      rw [hself, id_node, hfound]
      rfl
  | @rebuilt id shape ds hvar hfree hds n =>
      refine ⟨0, fun inner _ => ⟨fun name hname => absurd hname (hvar name), fun _ => ⟨n, ?_⟩⟩⟩
      have himages : imagesOver image inner shape = ds := by
        have hnone : shape.bodies = [] := by
          cases shape with
          | solver s => exact absurd rfl (hfree s)
          | _ => rfl
        rw [imagesOver, hnone, Shape.passParts_eq_children hfree, List.map_nil, List.nil_append,
          ← List.forall₂_eq_eq_eq, List.forall₂_map_left_iff]
        exact hds.imp fun c d hd => hkept c.id d hd
      rw [hself, shape_node, himages]
  | @solver id s low high precision m hlow hhigh hprecision n =>
      refine ⟨m, fun inner hbody => ⟨fun _ hname => (by cases hname), fun _ => ⟨n, ?_⟩⟩⟩
      simp only [hself, shape_node, imagesOver, Shape.bodies, Shape.passParts, List.map_cons,
        List.map_nil, List.singleton_append, hbody s rfl, hkept _ _ hlow, hkept _ _ hhigh,
        hkept _ _ hprecision]

variable {D : Directory α}

/-- **One image for each node in each scope**, made of the images that its children have in
theirs. -/
theorem exists_images {e : Formula α} (he : e.ListedIn D)
    (hbinds : e.BindsNone (pairs.map Prod.fst)) (n : NodeId) :
    ∃ image : List NodeId → NodeId → Formula α,
      image [] e.id = ((e.substitute pairs).run n).1 ∧
      ∀ scope (d : Formula α), d.ReachedIn scope e →
        Rewritten pairs (image scope) (image (scope ++ [d.id])) d := by
  induction e using inductionOnWithin generalizing n with
  | h e ih =>
      obtain ⟨hroot, himages⟩ := pass_images (r := .ofPairs pairs) he n
      set done := (((replaceNode (.ofPairs pairs) e).run ∅).run n).1
      let top : NodeId → Formula α := fun id => (done.2[id]?).getD zero
      have htop : ∀ id c, done.2[id]? = some c → top id = c := fun id c hc => by
        simp only [top, hc, Option.getD_some]
      have hmade : ∀ d : Formula α, d.InPass e → ∃ m, ∀ inner : NodeId → Formula α,
          (∀ s, d.shape = .solver s → inner s.body.id =
            ((s.body.replace ((Replacement.ofPairs pairs).except s.bound.id)).run m).1) →
          Rewritten pairs top inner d := by
        intro d hd
        obtain ⟨d', hd', hmade⟩ := himages d hd
        exact hmade.rewritten (htop _ _ hd') htop
      -- the images in the scopes that the body of a solver leads to
      have hbodies : ∀ id, ∃ images : List NodeId → NodeId → Formula α,
          ∀ s : Solver α (Formula α), (node id (.solver s)).InPass e →
            Rewritten pairs top (images []) (node id (.solver s)) ∧
            ∀ scope (d : Formula α), d.ReachedIn scope s.body →
              Rewritten pairs (images scope) (images (scope ++ [d.id])) d := by
        intro id
        by_cases hsolver : ∃ s : Solver α (Formula α), (node id (.solver s)).InPass e
        · obtain ⟨s, hs⟩ := hsolver
          have hbody : s.body.Within (node id (.solver s)) :=
            .child List.mem_cons_self (.refl _)
          obtain ⟨m, hm⟩ := hmade _ hs
          have hbelow : ∃ c ∈ e.children, s.body.Within c := by
            cases hs with
            | refl => exact ⟨_, List.mem_cons_self, .refl _⟩
            | part hc hd =>
                exact ⟨_, Shape.mem_children_of_mem_passParts hc, hbody.trans hd.within⟩
          obtain ⟨c, hc, hwithin⟩ := hbelow
          obtain ⟨images, hfirst, hrest⟩ := ih c hc s.body hwithin
            ((hs.listed he).within hbody) (hbinds.within (hbody.trans hs.within)) m
          refine ⟨images, fun s' hs' => ?_⟩
          have hsame : node id (.solver s') = node id (.solver s) :=
            (hs'.listed he).eq_of_id_eq (hs.listed he) rfl
          cases hsame
          refine ⟨hm (images []) ?_, hrest⟩
          intro s' hs'
          cases hs'
          rw [ofPairs_except (hbinds id s hs.within)]
          exact hfirst
        · exact ⟨fun _ _ => zero, fun s hs => absurd ⟨s, hs⟩ hsolver⟩
      choose bodies hbodies using hbodies
      refine ⟨fun scope => match scope with
        | [] => top
        | id :: scope => bodies id scope, htop _ _ hroot, ?_⟩
      intro scope d hd
      cases hd with
      | here hd =>
          obtain ⟨id, shape⟩ := d
          by_cases hsolver : ∃ s, shape = .solver s
          · obtain ⟨s, rfl⟩ := hsolver
            exact (hbodies id s hd).1
          · obtain ⟨m, hm⟩ := hmade _ hd
            exact hm _ fun s hs => absurd ⟨s, hs⟩ hsolver
      | body hs hd => exact (hbodies _ _ hs).2 _ d hd

/-- In every scope an untouched node is its own image. -/
theorem image_of_untouched {image : List NodeId → NodeId → Formula α} {e : Formula α}
    (hbinds : e.BindsNone (pairs.map Prod.fst))
    (himage : ∀ scope (d : Formula α), d.ReachedIn scope e →
      Rewritten pairs (image scope) (image (scope ++ [d.id])) d)
    {scope : List NodeId} {d : Formula α} (hd : d.ReachedIn scope e)
    (h : d.Untouched (.ofPairs pairs)) : image scope d.id = d := by
  induction d using inductionOnRefs generalizing scope with
  | h id shape ih =>
      have hrewritten := himage scope _ hd
      by_cases hvar : ∃ name, shape = .var name
      · obtain ⟨name, rfl⟩ := hvar
        rw [hrewritten.var name rfl]
        cases hfound : pairs.find? fun p => p.1 == id with
        | none => simp only [id_node, hfound, Option.map_none, Option.getD_none]
        | some p =>
            have hput : (pure p.2 : Fresh (Formula α)) = pure (node id (.var name)) :=
              h.put (by rw [Replacement.ofPairs, hfound]; rfl)
            simp only [id_node, hfound, Option.map_some, Option.getD_some]
            exact congrArg (fun x : Fresh (Formula α) => (x.run 0).1) hput
      · have hparts : shape.passParts.map (fun c => image scope c.id) = shape.passParts := by
          refine (List.map_congr_left fun c hc => ?_).trans (List.map_id _)
          exact ih c (Shape.mem_refs_of_mem_passParts hc) (hd.part hc) (h.part hc)
        have hbody : shape.bodies.map (fun c => image (scope ++ [id]) c.id) = shape.bodies := by
          cases shape with
          | solver s =>
              have hbody := h.body
              rw [ofPairs_except (hbinds id s hd.within)] at hbody
              have hself := ih s.body (Shape.mem_refs_of_mem_children List.mem_cons_self) hd.solver
                hbody
              rw [Shape.bodies, List.map_singleton, hself]
          | _ => rfl
        have hself : imagesOver (image scope) (image (scope ++ [id])) shape =
            (node id shape).children := by
          rw [imagesOver, hbody, hparts, children_node, Shape.children_eq]
        obtain ⟨n, hn⟩ := hrewritten.rebuilt fun name h => hvar ⟨name, h⟩
        rw [hn, id_node, shape_node, hself, replaceOver_children]
        rfl

/-- A solver is rewritten as a solver over the image of its body. -/
theorem Rewritten.solver {id : NodeId} {s : Solver α (Formula α)}
    (h : Rewritten pairs image inner (node id (.solver s))) :
    ∃ id' s', image id = node id' (.solver s') ∧ s'.body.id = (inner s.body.id).id := by
  obtain ⟨n, hn⟩ := h.rebuilt fun name hname => by cases hname
  rw [id_node, replaceOver] at hn
  split at hn
  · next hsame =>
      refine ⟨id, s, hn, ?_⟩
      simp only [shape_node, imagesOver, Shape.bodies, Shape.passParts, List.map_cons,
        List.map_nil, children_node, Shape.children, Solver.children, List.cons_append, sameAll,
        Bool.and_eq_true] at hsame
      exact beq_iff_eq.mp hsame.1
  · exact ⟨_, _, hn, rfl⟩

/-- Different scopes have nothing in common but variables and untouched nodes. -/
def ScopesApart (pairs : List (NodeId × Formula α)) (e : Formula α) : Prop :=
  ∀ (d : Formula α) (scope scope' : List NodeId), d.ReachedIn scope e → d.ReachedIn scope' e →
    scope = scope' ∨ (∃ name, d.shape = .var name) ∨ d.Untouched (.ofPairs pairs)

/-- **One image for each node.**  If no variable that is replaced is bound in the formula, and its
scopes have nothing in common but variables and nodes in which nothing is replaced, then one image
serves all who refer to a node, as a child, as a bound or as a body: whatever is rebuilt is
rebuilt over the images of its children. -/
theorem substitute_shares {e : Formula α} (he : e.ListedIn D)
    (hbinds : e.BindsNone (pairs.map Prod.fst)) (hapart : ScopesApart pairs e) (n : NodeId) :
    ∃ image : NodeId → Formula α, image e.id = ((e.substitute pairs).run n).1 ∧
      ∀ d : Formula α, d.Within e → Rewritten pairs image image d := by
  obtain ⟨image, hroot, himage⟩ := exists_images he hbinds n
  have hreached : ∀ id, ∃ scope, ∀ d : Formula α, d.Within e → d.id = id → d.ReachedIn scope e := by
    intro id
    by_cases hwithin : ∃ d : Formula α, d.Within e ∧ d.id = id
    · obtain ⟨d, hd, rfl⟩ := hwithin
      obtain ⟨scope, hscope⟩ := hd.reached
      refine ⟨scope, fun d' hd' hid => ?_⟩
      rwa [(he.within hd').eq_of_id_eq (he.within hd) hid]
    · exact ⟨[], fun d hd hid => absurd ⟨d, hd, hid⟩ hwithin⟩
  choose scopeOf hscopeOf using hreached
  -- the image in the scope chosen for a node is that in any other
  have hsame : ∀ scope (d : Formula α), d.ReachedIn scope e →
      image scope d.id = image (scopeOf d.id) d.id := by
    intro scope d hd
    have hd' := hscopeOf d.id d hd.within rfl
    rcases hapart d _ _ hd hd' with heq | ⟨name, hname⟩ | huntouched
    · rw [← heq]
    · rw [(himage _ d hd).var name hname, (himage _ d hd').var name hname]
    · rw [image_of_untouched hbinds himage hd huntouched,
        image_of_untouched hbinds himage hd' huntouched]
  refine ⟨fun id => image (scopeOf id) id, ?_, ?_⟩
  · rw [← hroot]
    exact (hsame [] e (.here (.refl e))).symm
  · intro d hd
    have hd' := hscopeOf d.id d hd rfl
    refine (himage _ d hd').congr rfl ?_ fun c hc => hsame _ c (hd'.part hc)
    intro c hc
    obtain ⟨id, shape⟩ := d
    cases shape with
    | solver s =>
        rw [List.mem_singleton.mp hc]
        exact hsame _ s.body hd'.solver
    | _ => cases hc

/-- The root of `x - t` above zero and below `-x`, subtracted from `-x`: but for `x`, the
body has nothing in common with what is outside. -/
theorem substitute_shares_bound :
    let t : Formula Int := node 2 (.var "t")
    let x : Formula Int := node 3 (.var "x")
    let y : Formula Int := node 4 (.var "y")
    let opposite : Formula Int := node 5 (.unary .negate x)
    let body : Formula Int := node 6 (.binary .subtract x t)
    let search : Solver Int (Formula Int) :=
      { body, bound := ⟨2, "t"⟩, low := zero, high := opposite, precision := one, guard := none }
    let root : Formula Int := node 7 (.solver search)
    let e : Formula Int := node 8 (.binary .subtract opposite root)
    let D : Directory Int := fun id =>
      match id with
      | 0 => zero
      | 1 => one
      | 2 => t
      | 3 => x
      | 4 => y
      | 5 => opposite
      | 6 => body
      | 7 => root
      | _ => e
    e.ListedIn D ∧ e.BindsNone [3] ∧ ScopesApart [(3, y)] e ∧
      ∃ image : NodeId → Formula Int, image 8 = ((e.substitute [(3, y)]).run 9).1 ∧
        ∀ d : Formula Int, d.Within e → Rewritten [(3, y)] image image d := by
  intro t x y opposite body search root e D
  have hlisted : e.ListedIn D := by
    simp [listedIn_node, D, e, root, search, body, opposite, x, t, zero, one, Shape.refs,
      Shape.children, Solver.refs, Solver.children, Variable.formula]
  have hbinds : e.BindsNone (([(3, y)] : List (NodeId × Formula Int)).map Prod.fst) := by
    intro id s hs
    simp [e, root, search, body, opposite, x, t, zero, one, within_node, Shape.children,
      Solver.children] at hs
    rw [hs.2]
    decide
  -- what is reached in either of the two scopes
  have houter : ∀ d : Formula Int, d.ReachedIn [] e → d ∈ [e, opposite, x, root, zero, one] := by
    intro d hd
    simp [reachedIn_nil, e, root, search, opposite, x, zero, one, inPass_node, Shape.passParts,
      Shape.children] at hd ⊢
    tauto
  have hinner : ∀ (d : Formula Int) id scope, d.ReachedIn (id :: scope) e →
      id = 7 ∧ scope = [] ∧ d ∈ [body, x, t] := by
    intro d id scope hd
    obtain ⟨s, hs, hd⟩ := reachedIn_cons.mp hd
    simp [e, root, opposite, x, zero, one, search, inPass_node, Shape.passParts,
      Shape.children] at hs
    obtain ⟨rfl, rfl⟩ := hs
    cases scope with
    | nil =>
        refine ⟨rfl, rfl, ?_⟩
        simpa [reachedIn_nil, body, x, t, inPass_node, Shape.passParts, Shape.children] using hd
    | cons id scope =>
        obtain ⟨s, hs, -⟩ := reachedIn_cons.mp hd
        simp [body, x, t, inPass_node, Shape.passParts, Shape.children] at hs
  have hcommon : ∀ d : Formula Int, d ∈ [e, opposite, x, root, zero, one] → d ∈ [body, x, t] →
      ∃ name, d.shape = .var name := by
    intro d hd hd'
    simp only [List.mem_cons, List.not_mem_nil, or_false] at hd'
    rcases hd' with rfl | rfl | rfl
    · simp [e, opposite, x, root, zero, one, body] at hd
    · exact ⟨"x", rfl⟩
    · exact ⟨"t", rfl⟩
  have hapart : ScopesApart [(3, y)] e := by
    rintro d (_ | ⟨id, scope⟩) (_ | ⟨id', scope'⟩) hd hd'
    · exact .inl rfl
    · exact .inr (.inl (hcommon d (houter d hd) (hinner d _ _ hd').2.2))
    · exact .inr (.inl (hcommon d (houter d hd') (hinner d _ _ hd).2.2))
    · obtain ⟨rfl, rfl, -⟩ := hinner d _ _ hd
      obtain ⟨rfl, rfl, -⟩ := hinner d _ _ hd'
      exact .inl rfl
  exact ⟨hlisted, hbinds, hapart, substitute_shares hlisted hbinds hapart 9⟩

/-- Two searches for the root of one body, in different intervals, added up: when `y` is put for
`x`, the solvers get bodies of their own. -/
theorem substitute_splits_body :
    let t : Formula Int := node 2 (.var "t")
    let x : Formula Int := node 3 (.var "x")
    let y : Formula Int := node 4 (.var "y")
    let body : Formula Int := node 5 (.binary .subtract x t)
    let search (high : Formula Int) : Solver Int (Formula Int) :=
      { body, bound := ⟨2, "t"⟩, low := zero, high, precision := one, guard := none }
    let below : Formula Int := node 7 (.solver (search (node 6 (.const 10))))
    let above : Formula Int := node 9 (.solver (search (node 8 (.const 20))))
    let e : Formula Int := node 10 (.assoc .add [below, above])
    let D : Directory Int := fun id =>
      match id with
      | 0 => zero
      | 1 => one
      | 2 => t
      | 3 => x
      | 4 => y
      | 5 => body
      | 6 => node 6 (.const 10)
      | 7 => below
      | 8 => node 8 (.const 20)
      | 9 => above
      | _ => e
    e.ListedIn D ∧ e.BindsNone [3] ∧
      ¬ ∃ image : NodeId → Formula Int, image 10 = ((e.substitute [(3, y)]).run 11).1 ∧
        ∀ d : Formula Int, d.Within e → Rewritten [(3, y)] image image d := by
  intro t x y body search below above e D
  have hlisted : e.ListedIn D := by
    simp [listedIn_node, D, e, below, above, search, body, x, t, zero, one, Shape.refs,
      Shape.children, Solver.refs, Solver.children, Variable.formula]
  refine ⟨hlisted, ?_, ?_⟩
  · intro id s hs
    simp [e, below, above, search, body, x, t, zero, one, within_node, Shape.children,
      Solver.children] at hs
    rcases hs with ⟨-, rfl⟩ | ⟨-, rfl⟩ <;> decide
  · rintro ⟨image, hroot, himage⟩
    obtain ⟨i, p, hp, hpbody⟩ := (himage below
      (.child (c := below) (by simp [e, Shape.children]) (.refl _))).solver
    obtain ⟨j, q, hq, hqbody⟩ := (himage above
      (.child (c := above) (by simp [e, Shape.children]) (.refl _))).solver
    obtain ⟨n, hn⟩ := (himage e (.refl e)).rebuilt (by simp [e])
    have himages : imagesOver image image e.shape = [node i (.solver p), node j (.solver q)] := by
      rw [← hp, ← hq]
      rfl
    have hids : ((((e.substitute [(3, y)]).run 11).1.children.map fun c =>
        c.shape.bodies.map Formula.id) = [[11], [13]]) ∧
        ((e.substitute [(3, y)]).run 11).1.id ≠ 10 := by
      simp only [e, below, above, search, body, x, y, t]
      cbv
    rw [himages, replaceOver] at hn
    rw [← hroot] at hids
    split at hn
    · exact hids.2 (congrArg Formula.id hn)
    · have hsum : image 10 = node n (.assoc .add [node i (.solver p), node j (.solver q)]) := hn
      have hsplit : p.body.id = 11 ∧ q.body.id = 13 := by
        have hleft := hids.1
        rw [hsum] at hleft
        simpa [Shape.children, Shape.bodies] using hleft
      have hbodies : p.body.id = q.body.id := hpbody.trans hqbody.symm
      rw [hsplit.1, hsplit.2] at hbodies
      exact absurd hbodies (by decide)

end Formula

end FormulaGraph
