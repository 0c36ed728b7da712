import FormulaGraph.Proofs.Merging
import FormulaGraph.Proofs.Unambiguous
import FormulaGraph.Proofs.Walks

/-!
# Sharing is maximal

What is shared has the signature it had before, and **no two of its nodes have one signature**:
it has as many nodes as the formula has distinct parts, and sharing it once more gives it back
(`share_maximal`).

The table is filled on the way back from the children.  Two things have to be seen of it.  What
it keeps is kept **together with its children**, each under its own signature: a node rebuilt
over other children is written like the node it replaces, in the same parentheses, so it
answers to the key it is kept under.  And an entry is **never overwritten**: what the signature
says grows from the children to the node, so nothing below a node can bring in its key.

A sum and a product without arguments have one signature, and one of them may come to stand for
the other.  They need different parentheses, so a node over the one is not written like the
node over the other that it replaces, and the key it is kept under is not its own
(`shared_empty_operands`).
-/

namespace FormulaGraph

variable {α : Type} [Scalar α] [ScalarText α]

namespace Formula

/-! ## Signatures that say what is below -/

/-- The formula has no solvers in it, is simplified to itself, its names are names, and no sum
or product is without arguments. -/
structure Tidy (e : Formula α) : Prop where
  free : e.SolverFree
  simple : e.AllSimple
  named : e.Named
  nonempty : e.NeverEmpty

omit [ScalarText α] in
theorem Tidy.child {c e : Formula α} (he : e.Tidy) (hc : c ∈ e.children) : c.Tidy :=
  ⟨he.free.child hc, he.simple.child hc, he.named.child hc, he.nonempty.child hc⟩

/-- Written alike, over children of the same signatures. -/
structure ServesFor (d e : Formula α) : Prop where
  root : d.WrittenAlike e
  children : d.children.map signature = e.children.map signature

theorem WrittenAlike.signature_eq {d e : Formula α} (h : d.WrittenAlike e) :
    d.signature = e.signature :=
  h.text fullDepth

theorem WrittenAlike.trans {c d e : Formula α} (h : c.WrittenAlike d) (h' : d.WrittenAlike e) :
    c.WrittenAlike e :=
  ⟨h.priority.trans h'.priority, fun depth => (h.text depth).trans (h'.text depth)⟩

theorem ServesFor.trans {c d e : Formula α} (h : c.ServesFor d) (h' : d.ServesFor e) :
    c.ServesFor e :=
  ⟨h.root.trans h'.root, h.children.trans h'.children⟩

variable [DistinctText α]

omit [ScalarText α] [DistinctText α] in
theorem Tidy.simple_named {e : Formula α} (he : e.Tidy) : e.AllSimple ∧ e.Named :=
  ⟨he.simple, he.named⟩

theorem Tidy.outline_eq {d e : Formula α} (hd : d.Tidy) (he : e.Tidy)
    (h : d.signature = e.signature) : d.outline = e.outline :=
  outline_eq_of_signature_eq (hd.simple.plain hd.named hd.nonempty)
    (he.simple.plain he.named he.nonempty) h

/-- **Tidy formulas of one signature serve for each other.** -/
theorem Tidy.servesFor {d e : Formula α} (hd : d.Tidy) (he : e.Tidy)
    (h : d.signature = e.signature) : d.ServesFor e := by
  have houtline := hd.outline_eq he h
  refine ⟨writtenAlike_of_outline_eq hd.simple_named he.simple_named houtline, ?_⟩
  cases sameRoot_of_outline_eq hd.simple_named he.simple_named houtline with
  | const _ => rfl
  | var => rfl
  | operation _ _ children =>
      rw [← List.forall₂_eq_eq_eq, List.forall₂_map_left_iff, List.forall₂_map_right_iff]
      refine List.forall₂_iff_zip.mpr ⟨children.length_eq, ?_⟩
      intro c c' hzip
      obtain ⟨hc, hc'⟩ := List.of_mem_zip hzip
      exact (writtenAlike_of_outline_eq (hd.child hc).simple_named (he.child hc').simple_named
        ((List.forall₂_iff_zip.mp children).2 hzip)).signature_eq

omit [DistinctText α] in
theorem ServesFor.exists_child {d e c : Formula α} (h : d.ServesFor e) (hc : c ∈ e.children) :
    ∃ c' ∈ d.children, c'.signature = c.signature := by
  have hmem : c.signature ∈ d.children.map signature := by
    rw [h.children]
    exact List.mem_map_of_mem hc
  exact List.mem_map.mp hmem

theorem tidy_tellsBelow : TellsBelow (Tidy (α := α)) signature where
  child := Tidy.child
  children hd he h _ hc := (he.servesFor hd h.symm).exists_child hc

omit [DistinctText α] in
/-- What is said of a child is part of what is said of the node. -/
theorem Tidy.sizeOf_outline_lt {c e : Formula α} (he : e.Tidy) (hc : c ∈ e.children) :
    sizeOf c.outline < sizeOf e.outline := by
  obtain ⟨id, shape⟩ := e
  cases hhead : shape.head? with
  | none => cases shape <;> simp_all [Shape.head?, Shape.children]
  | some head =>
      rw [outline_of_head he.simple hhead]
      have hlt := List.sizeOf_lt_of_mem (List.mem_map_of_mem (f := outline) hc)
      simp only [Outline.over.sizeOf_spec]
      omega

/-- Below a tidy formula there is none of its signature. -/
theorem Tidy.signature_ne {c d e : Formula α} (he : e.Tidy) (hc : c ∈ e.children)
    (hd : d.Within c) : d.signature ≠ e.signature := by
  have hle : ∀ {d c : Formula α}, d.Within c → c.Tidy →
      d.Tidy ∧ sizeOf d.outline ≤ sizeOf c.outline := by
    intro d c hd
    induction hd with
    | refl => exact fun hc => ⟨hc, Nat.le_refl _⟩
    | child hc' _ ih =>
        intro hc
        obtain ⟨hdTidy, hsize⟩ := ih (hc.child hc')
        exact ⟨hdTidy, hsize.trans (hc.sizeOf_outline_lt hc').le⟩
  obtain ⟨hdTidy, hsize⟩ := hle hd (he.child hc)
  intro h
  have hlt := he.sizeOf_outline_lt hc
  rw [← hdTidy.outline_eq he h] at hlt
  omega

/-! ## Nodes over what serves for their children -/

omit [Scalar α] [ScalarText α] [DistinctText α] in
/-- Over other children, a node is of the kind it was. -/
theorem agrees_of_withChildren {shape shape' : Shape α (Formula α)} {ds : List (Formula α)}
    (h : shape.withChildren? ds = some shape') : shape'.Agrees shape := by
  unfold Shape.withChildren? at h
  split at h <;> cases h <;> simp [Shape.Agrees]

omit [DistinctText α] in
/-- Over what is written like its children, a node becomes a node over these that is written
like it. -/
theorem shareOver_writtenAlike {L : Ledger α} {e : Formula α} {ds : List (Formula α)}
    (he : e.KnownTo L) (hds : ∀ d ∈ ds, d.KnownTo L)
    (halike : List.Forall₂ WrittenAlike ds e.children) :
    Builds (shareOver e ds) L fun L' d => d.KnownTo L' ∧ d.children = ds ∧ d.WrittenAlike e := by
  rw [shareOver]
  split
  · next hsame =>
      exact .pure ⟨he, eq_of_sameAll (fun c hc => he.child hc) hds hsame, ⟨rfl, fun _ => rfl⟩⟩
  · next hother =>
      have hoperation : (∀ name, e.shape ≠ .var name) ∧ ∀ v, e.shape ≠ .const v := by
        obtain ⟨id, shape⟩ := e
        refine ⟨?_, ?_⟩ <;> rintro _ rfl <;> cases halike <;> exact hother rfl
      obtain ⟨shape, hshape⟩ :=
        exists_withChildren hoperation.1 hoperation.2 halike.length_eq
      rw [hshape]
      obtain ⟨hchildren, hrefs⟩ := children_of_withChildren hshape
      obtain ⟨hroot, hsome⟩ := head_eq_of_agrees (agrees_of_withChildren hshape)
      have hnew : ∀ id, (node id shape).WrittenAlike e := by
        intro id
        obtain ⟨id', shape'⟩ := e
        refine writtenAlike_of_head_eq hroot hsome ?_
        rwa [hchildren]
      refine ((Builds.new fun r hr => ?_).and_yields (.new fun id => ⟨hchildren, hnew id⟩))
      rcases hrefs r hr with hr | hr
      · exact hds r hr
      · exact he.ref hr

end Formula

open Formula

/-! ## The table -/

namespace Representatives

variable {L L' : Ledger α} {table table' table'' : Representatives α}

/-- Whatever the table keeps serves for a tidy formula of that signature, and its children are
kept as well. -/
structure Complete (L : Ledger α) (table : Representatives α) : Prop where
  serves : ∀ {key : String} {d : Formula α}, table[key]? = some d →
    d.KnownTo L ∧ ∃ e : Formula α, e.Tidy ∧ e.signature = key ∧ d.ServesFor e
  children : ∀ {key : String} {d : Formula α}, table[key]? = some d →
    ∀ c ∈ d.children, table[c.signature]? = some c

/-- What was kept is kept, and what else is kept has signatures from within the formulas. -/
structure Grows (es : List (Formula α)) (table table' : Representatives α) : Prop where
  kept : ∀ {key : String} {d : Formula α}, table[key]? = some d → table'[key]? = some d
  added : ∀ {key : String} {d : Formula α}, table'[key]? = some d →
    table[key]? = some d ∨ ∃ e ∈ es, ∃ c : Formula α, c.Within e ∧ c.signature = key

theorem complete_empty : Complete L (∅ : Representatives α) where
  serves h := by simp at h
  children h := by simp at h

theorem complete_lasting : Lasting (Complete (α := α)) :=
  fun _ _ _ hL h =>
    { serves := fun hd => ⟨(h.serves hd).1.mono hL, (h.serves hd).2⟩
      children := h.children }

theorem Grows.refl (es : List (Formula α)) (table : Representatives α) : Grows es table table :=
  ⟨fun h => h, fun h => .inl h⟩

theorem Grows.trans {es ds fs : List (Formula α)} (h : Grows es table table')
    (h' : Grows ds table' table'') (hes : ∀ e ∈ es, e ∈ fs) (hds : ∀ d ∈ ds, d ∈ fs) :
    Grows fs table table'' where
  kept hd := h'.kept (h.kept hd)
  added hd := by
    rcases h'.added hd with hd | ⟨e, he, hc⟩
    · rcases h.added hd with hd | ⟨e, he, hc⟩
      · exact .inl hd
      · exact .inr ⟨e, hes e he, hc⟩
    · exact .inr ⟨e, hds e he, hc⟩

theorem Complete.signature_eq (h : Complete L table) {key : String} {d : Formula α}
    (hd : table[key]? = some d) : d.signature = key := by
  obtain ⟨-, e, -, hkey, hserves⟩ := h.serves hd
  exact hserves.root.signature_eq.trans hkey

/-- Whatever is within what is kept is kept. -/
theorem Complete.within (h : Complete L table) {c d : Formula α} (hc : c.Within d) {key : String}
    (hd : table[key]? = some d) : table[c.signature]? = some c := by
  induction hc generalizing key with
  | refl => rwa [h.signature_eq hd]
  | child hc' _ ih => exact ih (h.children hd _ hc')

/-- What is kept under a signature serves for any tidy formula of that signature. -/
theorem Complete.servesFor [DistinctText α] (h : Complete L table) {e d : Formula α}
    (he : e.Tidy) (hd : table[e.signature]? = some d) : d.ServesFor e := by
  obtain ⟨-, e', he', hkey, hserves⟩ := h.serves hd
  exact hserves.trans (he'.servesFor he hkey)

/-- Every signature within the formula is the signature of something within what is kept for
it. -/
theorem Complete.exists_within [DistinctText α] (h : Complete L table) {c e d : Formula α}
    (he : e.Tidy) (hd : table[e.signature]? = some d) (hc : c.Within e) :
    ∃ c' : Formula α, c'.Within d ∧ c'.signature = c.signature := by
  induction hc generalizing d with
  | refl => exact ⟨d, .refl d, h.signature_eq hd⟩
  | child hb _ ih =>
      obtain ⟨b', hb', hkey⟩ := (h.servesFor he hd).exists_child hb
      obtain ⟨c', hc', hsame⟩ := ih (he.child hb) (hkey ▸ h.children hd b' hb')
      exact ⟨c', .child hb' hc', hsame⟩

/-- A node is added to the table that keeps its children, under a signature that is not yet
there. -/
theorem Complete.insert (h : Complete L table) {e d : Formula α} (he : e.Tidy) (hd : d.KnownTo L)
    (hserves : d.ServesFor e) (hchildren : ∀ c ∈ d.children, table[c.signature]? = some c)
    (hnew : table[e.signature]? = none) : Complete L (table.insert e.signature d) := by
  have hkept : ∀ {key : String} {c : Formula α}, table[key]? = some c →
      (table.insert e.signature d)[key]? = some c := by
    intro key c hc
    have hne : e.signature ≠ key := by
      rintro rfl
      rw [hnew] at hc
      cases hc
    rwa [Std.HashMap.getElem?_insert, if_neg (by simpa using hne)]
  have hcases : ∀ {key : String} {c : Formula α},
      (table.insert e.signature d)[key]? = some c →
        table[key]? = some c ∨ key = e.signature ∧ c = d := by
    intro key c hc
    rw [Std.HashMap.getElem?_insert] at hc
    split at hc
    · next hkey => exact .inr ⟨(beq_iff_eq.mp hkey).symm, (Option.some.inj hc).symm⟩
    · exact .inl hc
  refine ⟨fun hc => ?_, fun hc c' hc' => ?_⟩
  · rcases hcases hc with hc | ⟨rfl, rfl⟩
    · exact h.serves hc
    · exact ⟨hd, e, he, rfl, hserves⟩
  · rcases hcases hc with hc | ⟨rfl, rfl⟩
    · exact hkept (h.children hc c' hc')
    · exact hkept (hchildren c' hc')

/-- An entry for a formula is added to what is kept for its children. -/
theorem Grows.insert {e d : Formula α} (h : Grows e.children table table')
    (hnew : table[e.signature]? = none) :
    Grows [e] table (table'.insert e.signature d) where
  kept {key c} hc := by
    have hne : e.signature ≠ key := by
      rintro rfl
      rw [hnew] at hc
      cases hc
    rw [Std.HashMap.getElem?_insert, if_neg (by simpa using hne)]
    exact h.kept hc
  added {key c} hc := by
    rw [Std.HashMap.getElem?_insert] at hc
    split at hc
    · next hkey => exact .inr ⟨e, List.mem_cons_self, e, .refl e, beq_iff_eq.mp hkey⟩
    · rcases h.added hc with hc | ⟨b, hb, c', hc', hkey⟩
      · exact .inl hc
      · exact .inr ⟨e, List.mem_cons_self, c', .child hb hc', hkey⟩

/-- The children of a tidy formula do not bring in its signature. -/
theorem Grows.getElem?_eq_none [DistinctText α] {e : Formula α} (he : e.Tidy)
    (h : Grows e.children table table') (hnew : table[e.signature]? = none) :
    table'[e.signature]? = none := by
  cases hfound : table'[e.signature]? with
  | none => rfl
  | some d =>
      rcases h.added hfound with hold | ⟨b, hb, c, hc, hkey⟩
      · rw [hnew] at hold
        cases hold
      · exact absurd hkey (he.signature_ne hb hc)

end Representatives

open Representatives (Complete Grows)

namespace Formula

variable {L : Ledger α}

/-- The sharing of the formulas, begun with a table that is complete, adds to it and leaves it
complete; the answers are what it then keeps for them. -/
def SharesAll (es : List (Formula α)) (x : Sharing α (List (Formula α))) (L : Ledger α) : Prop :=
  ∀ table : Representatives α, Complete L table → Builds (x.run table) L fun L' done =>
    Complete L' done.2 ∧ Grows es table done.2 ∧
      List.Forall₂ (fun e d => done.2[e.signature]? = some d) es done.1

/-- `SharesAll` for one formula. -/
def Shares (e : Formula α) (x : Sharing α (Formula α)) (L : Ledger α) : Prop :=
  ∀ table : Representatives α, Complete L table → Builds (x.run table) L fun L' done =>
    Complete L' done.2 ∧ Grows [e] table done.2 ∧ done.2[e.signature]? = some done.1

/-- Several formulas are shared one after the other. -/
theorem SharesAll.mapM {es : List (Formula α)} (hknown : ∀ e ∈ es, e.KnownTo L)
    (h : ∀ e ∈ es, ∀ L', e.KnownTo L' → e.Shares (shareNode e) L') :
    SharesAll es (es.mapM shareNode) L := by
  induction es generalizing L with
  | nil =>
      intro table htable
      rw [List.mapM_nil]
      exact .pure ⟨htable, .refl [] table, .nil⟩
  | cons e es ih =>
      intro table htable
      rw [List.mapM_cons, StateT.run_bind]
      refine (h e List.mem_cons_self L (hknown e List.mem_cons_self) table htable).bind ?_
      rintro L' ⟨d, table'⟩ hL ⟨htable', hgrows, hd⟩
      have hrest := ih (fun c hc => (hknown c (List.mem_cons_of_mem e hc)).mono hL)
        (fun c hc => h c (List.mem_cons_of_mem e hc))
      rw [StateT.run_bind]
      refine (hrest table' htable').bind ?_
      rintro L'' ⟨ds, table''⟩ - ⟨htable'', hgrows', hds⟩
      refine .pure ⟨htable'', hgrows.trans hgrows' (by simp) ?_, .cons (hgrows'.kept hd) hds⟩
      exact fun c hc => List.mem_cons_of_mem e hc

variable [DistinctText α]

/-- The shared form of a node whose signature is not yet kept is a node over what is kept for
its children, and can be kept for it. -/
theorem shareOver_shares {e : Formula α} (he : e.Tidy) (hknown : e.KnownTo L)
    {table table' : Representatives α} (htable : Complete L table')
    (hgrows : Grows e.children table table') (hnew : table[e.signature]? = none)
    {ds : List (Formula α)}
    (hds : List.Forall₂ (fun c d => table'[c.signature]? = some d) e.children ds) :
    Builds (shareOver e ds) L fun L' d => Complete L' (table'.insert e.signature d) ∧
      Grows [e] table (table'.insert e.signature d) := by
  have hboth : List.Forall₂
          (fun c d : Formula α => d.WrittenAlike c ∧ table'[d.signature]? = some d)
      e.children ds := by
    refine List.forall₂_iff_zip.mpr ⟨hds.length_eq, ?_⟩
    intro c d hzip
    have hd := (List.forall₂_iff_zip.mp hds).2 hzip
    refine ⟨(htable.servesFor (he.child (List.of_mem_zip hzip).1) hd).root, ?_⟩
    exact htable.within (.refl d) hd
  have halike : List.Forall₂ WrittenAlike ds e.children := (hboth.imp fun _ _ h => h.1).flip
  have hkept : ∀ d ∈ ds, table'[d.signature]? = some d :=
    forall_of_forall₂ hboth fun _ _ h => h.2
  refine (shareOver_writtenAlike hknown (fun d hd => (htable.serves (hkept d hd)).1) halike).mono ?_
  rintro L' d hL ⟨hd, hchildren, hroot⟩
  have hserves : d.ServesFor e := by
    refine ⟨hroot, ?_⟩
    rw [hchildren, ← List.forall₂_eq_eq_eq, List.forall₂_map_left_iff, List.forall₂_map_right_iff]
    exact halike.imp fun _ _ h => h.signature_eq
  refine ⟨?_, hgrows.insert hnew⟩
  refine (Representatives.complete_lasting hL htable).insert he hd hserves ?_
    (hgrows.getElem?_eq_none he hnew)
  rwa [hchildren]

/-- **Sharing keeps the table complete.** -/
theorem shareNode_shares (e : Formula α) (he : e.Tidy) {L : Ledger α} (hknown : e.KnownTo L) :
    e.Shares (shareNode e) L := by
  induction e using inductionOnRefs generalizing L with
  | h id shape ih =>
      intro table htable
      rw [shareNode]
      cases hfound : table[(node id shape).signature]? with
      | some d =>
          rw [represent_run_kept hfound]
          exact .pure ⟨htable, .refl _ table, hfound⟩
      | none =>
          rw [represent_run_new hfound,
            show shareShape (node id shape) shape = _ from shareShape_eq _ he.free.here,
            StateT.run_bind, bind_assoc]
          have hchildren : SharesAll shape.children (shape.children.mapM shareNode) L :=
            .mapM (fun c hc => hknown.child hc) fun c hc L' hc' =>
              ih c (Shape.mem_refs_of_mem_children hc) (he.child hc) hc'
          refine (hchildren table htable).bind ?_
          rintro L' ⟨ds, table'⟩ hL ⟨htable', hgrows, hds⟩
          have hover := shareOver_shares he (hknown.mono hL) htable' hgrows hfound hds
          have hrun : (liftM (shareOver (node id shape) ds) : Sharing α (Formula α)).run table' =
              shareOver (node id shape) ds >>= fun d => pure (d, table') := rfl
          rw [hrun, bind_assoc]
          refine hover.bind ?_
          rintro L'' d - ⟨htable'', hgrows'⟩
          exact .pure ⟨htable'', hgrows', Std.HashMap.getElem?_insert_self⟩

/-! ## Maximal sharing -/

omit [DistinctText α] in
/-- What has exactly one node for each signature has as many nodes as distinct parts. -/
theorem nodeCount_eq_distinctParts {s : Formula α} (hs : s.KnownTo L)
    (hapart : ∀ c d : Formula α, c.Within s → d.Within s → c.signature = d.signature → c = d) :
    s.nodeCount = s.distinctParts := by
  have hidentity : ∀ c d : Formula α, c.Within s → d.Within s → c.id = d.id → c = d :=
    fun c d hc hd => (hs.within hc).eq_of_id_eq (hs.within hd)
  refine List.Perm.length_eq ((List.perm_ext_iff_of_nodup ?_ ?_).mpr fun d => ?_)
  · exact (nodup_map_walk ∅ [s]).of_map Formula.id
  · exact (nodup_map_walk ∅ [s]).of_map signature
  · exact (mem_walk_iff_within hidentity).trans (mem_walk_iff_within hapart).symm

omit [DistinctText α] in
/-- Two graphs with the same signatures in them have as many distinct parts. -/
theorem distinctParts_eq {M N : Formula α → Prop} (hM : TellsBelow M signature)
    (hN : TellsBelow N signature) {d e : Formula α} (hd : M d) (he : N e)
    (h : ∀ key, (∃ c : Formula α, c.Within d ∧ c.signature = key) ↔
      ∃ c : Formula α, c.Within e ∧ c.signature = key) : d.distinctParts = e.distinctParts := by
  have hperm : ((walk signature ∅ [d]).map signature).Perm ((walk signature ∅ [e]).map signature) :=
    (List.perm_ext_iff_of_nodup (nodup_map_walk ∅ [d]) (nodup_map_walk ∅ [e])).mpr fun key =>
      (mem_map_walk_iff hM hd).trans ((h key).trans (mem_map_walk_iff hN he).symm)
  simpa [Formula.distinctParts] using hperm.length_eq

omit [DistinctText α] in
/-- What has no two nodes of one signature is shared as it is. -/
theorem share_eq_of_apart {s : Formula α} (hs : s.KnownTo L)
    (hapart : ∀ c d : Formula α, c.Within s → d.Within s → c.signature = d.signature → c = d) :
    (s.share.run L.next).1 = s := by
  have hfamily : Family fun d : Formula α => d.Within s :=
    { child := fun hd _ hc => (Within.child hc (.refl _)).trans hd
      together := fun hd hd' => ⟨L, hs.within hd, hs.within hd'⟩ }
  have hmerges : Merges (fun d : Formula α => d.Within s) fun e _ d => d = e :=
    { lasting := fun _ _ _ _ _ h => h
      self := fun _ _ => rfl
      rebuilt := by
        intro L' e ds _ _ _ hds
        obtain rfl : ds = e.children := by
          rw [← List.forall₂_eq_eq_eq]
          exact hds.flip
        rw [shareOver, if_pos (sameAll_self _)]
        exact .pure rfl
      signature := fun hd he hkey hc => hc.trans (hapart _ _ hd he hkey) }
  obtain ⟨_, _, _, _, h⟩ := shareNode_carries hfamily hmerges s (.refl s) hs ∅
    Representatives.sound_empty
  exact h

/-- `s` says what `e` says, with one node for each distinct part, and sharing `s` at any time
gives `s`. -/
structure MaximallyShares (s e : Formula α) : Prop where
  signature : s.signature = e.signature
  apart : ∀ c d : Formula α, c.Within s → d.Within s → c.signature = d.signature → c = d
  nodeCount : s.nodeCount = s.distinctParts
  distinctParts : s.distinctParts = e.distinctParts
  again : ∀ L : Ledger α, s.KnownTo L → (s.share.run L.next).1 = s

/-- What a complete table keeps for a formula that alone brought in its signatures shares it
maximally. -/
theorem maximallyShares_of_complete {table : Representatives α} (h : Complete L table)
    {s e : Formula α} (he : e.Tidy) (hgrows : Grows [e] ∅ table)
    (hs : table[e.signature]? = some s) : s.MaximallyShares e := by
  have hkept : ∀ {d : Formula α}, d.Within s → table[d.signature]? = some d :=
    fun hd => h.within hd hs
  have hapart : ∀ c d : Formula α, c.Within s → d.Within s → c.signature = d.signature → c = d := by
    intro c d hc hd hkey
    have hfound := hkept hc
    rw [hkey, hkept hd] at hfound
    exact (Option.some.inj hfound).symm
  refine ⟨h.signature_eq hs, hapart, ?_, ?_, fun L' hL' => share_eq_of_apart hL' hapart⟩
  · exact nodeCount_eq_distinctParts (h.serves hs).1 hapart
  · refine distinctParts_eq (.of_identity hapart) tidy_tellsBelow (.refl s) he fun key => ⟨?_, ?_⟩
    · rintro ⟨c, hc, rfl⟩
      rcases hgrows.added (hkept hc) with hold | ⟨r, hr, hcr⟩
      · simp at hold
      · rwa [List.mem_singleton.mp hr] at hcr
    · rintro ⟨c, hc, rfl⟩
      exact h.exists_within he hs hc

/-- **Sharing is maximal and stable.**  A formula without solvers, all of whose nodes are
simplified to themselves, in which names are names and no sum or product is without arguments,
is shared maximally. -/
theorem share_maximal {e : Formula α} (hknown : e.KnownTo L) (hfree : e.SolverFree)
    (hfixed : (e.simplify.run L.next).1 = e) (hnamed : e.Named) (hnonempty : e.NeverEmpty) :
    Builds e.share L fun L' s => s.KnownTo L' ∧ s.MaximallyShares e := by
  have he : e.Tidy := ⟨hfree, (simplify_eq_iff hknown).mp hfixed, hnamed, hnonempty⟩
  refine (shareNode_shares e he hknown ∅ Representatives.complete_empty).bind ?_
  rintro L' ⟨s, table⟩ - ⟨htable, hgrows, hs⟩
  exact .pure ⟨(htable.serves hs).1, maximallyShares_of_complete htable he hgrows hs⟩

/-- Over whole numbers, the length of two sines of `x`, which are two nodes, is shared to a
graph with one node for each of its three parts. -/
theorem share_maximal_of_sines :
    let x : Formula Int := node 2 (.var "x")
    let e : Formula Int := node 5 (.assoc .hypot [node 3 (.unary .sin x), node 4 (.unary .sin x)])
    let s := (e.share.run 6).1
    s.MaximallyShares e ∧ (s.share.run (e.share.run 6).2).1 = s := by
  intro x e s
  let a : Formula Int := node 3 (.unary .sin x)
  let b : Formula Int := node 4 (.unary .sin x)
  let L : Ledger Int :=
    { directory := fun id => [zero, one, x, a, b, e].getD id one
      next := 6
      firstFree_le := by decide
      zero_entry := rfl
      one_entry := rfl }
  have hx : x.KnownTo L := .node (by decide) rfl (by simp [Shape.refs, Shape.children])
  have ha : a.KnownTo L := .node (by decide) rfl (by simpa [Shape.refs, Shape.children] using hx)
  have hb : b.KnownTo L := .node (by decide) rfl (by simpa [Shape.refs, Shape.children] using hx)
  have he : e.KnownTo L :=
    .node (by decide) rfl (by simpa [Shape.refs, Shape.children] using ⟨ha, hb⟩)
  have hall : ∀ {A : NodeId → Shape Int (Formula Int) → Prop}, A 2 (.var "x") →
      A 3 (.unary .sin x) → A 4 (.unary .sin x) → A 5 (.assoc .hypot [a, b]) →
      e.Everywhere A := by
    intro A h2 h3 h4 h5
    have hx' : x.Everywhere A := .node h2 (by simp [Shape.children])
    have ha' : a.Everywhere A := .node h3 (by simpa [Shape.children] using hx')
    have hb' : b.Everywhere A := .node h4 (by simpa [Shape.children] using hx')
    exact .node h5 (by simpa [Shape.children] using ⟨ha', hb'⟩)
  have hname : IsName "x" := .of_isIdentifier (by decide) (by decide) (by decide) (by decide)
  have hnamed : e.Named := by
    refine hall ⟨by simpa using hname, by simp, by simp⟩ ?_ ?_ ?_ <;>
      exact ⟨by simp, by simp, by simp⟩
  obtain ⟨L', -, hnext, hknown, hs⟩ :=
    share_maximal he (hall (by simp) (by simp) (by simp) (by simp))
    (by cbv) hnamed (hall (by simp) (by simp) (by simp) (by simp))
  refine ⟨hs, ?_⟩
  rw [show (e.share.run 6).2 = L'.next from hnext.symm]
  exact hs.again L' hknown

/-- An empty product comes to stand for an empty sum.  The difference of `x` and the sum is
rebuilt over it, loses the parentheses, and with them the signature changes of what it is in. -/
theorem shared_empty_operands :
    let x : Formula Int := node 2 (.var "x")
    let p : Formula Int := node 3 (.assoc .multiply [])
    let z : Formula Int := node 4 (.assoc .add [])
    let d : Formula Int := node 5 (.binary .subtract x z)
    let e : Formula Int := node 6 (.assoc .hypot [p, d])
    (∃ L : Ledger Int, L.next = 7 ∧ e.KnownTo L) ∧ e.SolverFree ∧ e.Named ∧
      (e.simplify.run 7).1 = e ∧ (e.share.run 7).1.signature ≠ e.signature := by
  intro x p z d e
  let L : Ledger Int :=
    { directory := fun id => [zero, one, x, p, z, d, e].getD id one
      next := 7
      firstFree_le := by decide
      zero_entry := rfl
      one_entry := rfl }
  have hknown : e.KnownTo L := by
    have hx : x.KnownTo L := .node (by decide) rfl (by simp [Shape.refs, Shape.children])
    have hp : p.KnownTo L := .node (by decide) rfl (by simp [Shape.refs, Shape.children])
    have hz : z.KnownTo L := .node (by decide) rfl (by simp [Shape.refs, Shape.children])
    have hd : d.KnownTo L :=
      .node (by decide) rfl (by simpa [Shape.refs, Shape.children] using ⟨hx, hz⟩)
    exact .node (by decide) rfl (by simpa [Shape.refs, Shape.children] using ⟨hp, hd⟩)
  have hall : ∀ {A : NodeId → Shape Int (Formula Int) → Prop}, A 2 (.var "x") →
      (∀ id op args, A id (.assoc op args)) → A 5 (.binary .subtract x z) → e.Everywhere A := by
    intro A hvar hassoc hsubtract
    have hx : x.Everywhere A := .node hvar (by simp [Shape.children])
    have hp : p.Everywhere A := .node (hassoc _ _ _) (by simp [Shape.children])
    have hz : z.Everywhere A := .node (hassoc _ _ _) (by simp [Shape.children])
    have hd : d.Everywhere A := .node hsubtract (by simpa [Shape.children] using ⟨hx, hz⟩)
    exact .node (hassoc _ _ _) (by simpa [Shape.children] using ⟨hp, hd⟩)
  have hname : IsName "x" := .of_isIdentifier (by decide) (by decide) (by decide) (by decide)
  refine ⟨⟨L, rfl, hknown⟩, hall (by simp) (by simp) (by simp),
    hall ⟨by simpa using hname, by simp, by simp⟩ (fun _ _ _ => ⟨by simp, by simp, by simp⟩)
      ⟨by simp, by simp, by simp⟩, by cbv, ?_⟩
  let T₁ : Representatives Int := (∅ : Representatives Int).insert "" p
  let T₂ := T₁.insert "x" x
  have hp : (shareNode p).run ∅ = pure (p, T₁) := represent_run_new (by simp) _
  have hx : (shareNode x).run T₁ = pure (x, T₂) := by
    refine represent_run_new (?_ : T₁["x"]? = none) _
    simp [T₁]
  have hz : (shareNode z).run T₂ = pure (p, T₂) := by
    refine represent_run_kept (?_ : T₂[""]? = some p) _
    rw [Std.HashMap.getElem?_insert, if_neg (by decide)]
    exact Std.HashMap.getElem?_insert_self
  have hd : (shareNode d).run T₁ = new (.binary .subtract x p) >>= fun d' =>
      pure (d', T₂.insert "x - ()" d') := by
    have hnew : T₁[d.signature]? = none := by
      simp [T₁, show d.signature = "x - ()" from rfl]
    rw [shareNode, represent_run_new hnew]
    simp [shareShape, hx, hz]
    rfl
  have hshared : (e.share.run 7).1 =
      node 8 (.assoc .hypot [p, node 7 (.binary .subtract x p)]) := by
    have hnew : (∅ : Representatives Int)[e.signature]? = none := by simp
    rw [share, shareWith, shareNode, represent_run_new hnew]
    simp [shareShape, shareNodes, hp, hd]
    rfl
  rw [hshared]
  decide

end Formula

end FormulaGraph
