import FormulaGraph.Formula.Traversal
import FormulaGraph.Proofs.Parts
import Mathlib.Data.List.Nodup

/-!
# What a walk meets

A walk leaves a formula aside, with all that is below it, when a formula of the same key
was met before.  So it might miss something where formulas of one key differ in the keys
below them.  Where they never do, a walk meets **every key in the graph, and each of them
once** (`mem_map_walk_iff`, `nodup_map_walk`); where a key is an identity, it meets every
node once (`mem_walk_iff_within`).

What is met grows towards a set that is closed under children: at any time, the children
of what was met have been met too or are still pending.
-/

namespace FormulaGraph

namespace Formula

variable {α : Type} {κ : Type} {M : Formula α → Prop} {key : Formula α → κ}

/-- In a family that is closed under children, formulas of one key have children of the same
keys. -/
structure TellsBelow (M : Formula α → Prop) (key : Formula α → κ) : Prop where
  child : ∀ {c e : Formula α}, M e → c ∈ e.children → M c
  children : ∀ {d e : Formula α}, M d → M e → key d = key e →
    ∀ c ∈ d.children, ∃ c' ∈ e.children, key c' = key c

theorem TellsBelow.within (h : TellsBelow M key) {d e : Formula α} (he : M e)
    (hd : d.Within e) : M d := by
  induction hd with
  | refl => exact he
  | child hc _ ih => exact ih (h.child he hc)

/-- A key that is an identity tells what is below. -/
theorem TellsBelow.of_identity {e : Formula α}
    (h : ∀ c d : Formula α, c.Within e → d.Within e → key c = key d → c = d) :
    TellsBelow (fun d => d.Within e) key where
  child hd hc := (Within.child hc (.refl _)).trans hd
  children hc hd hkey c' hc' := by
    obtain rfl := h _ _ hc hd hkey
    exact ⟨c', hc', rfl⟩

variable [BEq κ] [Hashable κ]

/-- A walk meets nothing but what is below the pending formulas. -/
theorem within_of_mem_walk {met : Std.HashSet κ} {pending : List (Formula α)} {d : Formula α}
    (hd : d ∈ walk key met pending) : ∃ p ∈ pending, d.Within p := by
  induction met, pending using walk.induct key with
  | case1 met => simp [walk] at hd
  | case2 met e pending hmet ih =>
      rw [walk, if_pos hmet] at hd
      obtain ⟨p, hp, hdp⟩ := ih hd
      exact ⟨p, List.mem_cons_of_mem e hp, hdp⟩
  | case3 met e pending hmet ih =>
      rw [walk, if_neg hmet, List.mem_cons] at hd
      rcases hd with rfl | hd
      · exact ⟨d, List.mem_cons_self, .refl d⟩
      · obtain ⟨p, hp, hdp⟩ := ih hd
        rcases List.mem_append.mp hp with hp | hp
        · exact ⟨e, List.mem_cons_self, .child hp hdp⟩
        · exact ⟨p, List.mem_cons_of_mem e hp, hdp⟩

variable [LawfulBEq κ] [LawfulHashable κ]

/-- What was met before is not met again. -/
theorem contains_eq_false_of_mem_walk {met : Std.HashSet κ} {pending : List (Formula α)}
    {d : Formula α} (hd : d ∈ walk key met pending) : met.contains (key d) = false := by
  induction met, pending using walk.induct key with
  | case1 met => simp [walk] at hd
  | case2 met e pending hmet ih =>
      rw [walk, if_pos hmet] at hd
      exact ih hd
  | case3 met e pending hmet ih =>
      rw [walk, if_neg hmet, List.mem_cons] at hd
      rcases hd with rfl | hd
      · exact Bool.eq_false_iff.mpr hmet
      · have hnot := ih hd
        rw [Std.HashSet.contains_insert, Bool.or_eq_false_iff] at hnot
        exact hnot.2

/-- **A walk meets each key once.** -/
theorem nodup_map_walk (met : Std.HashSet κ) (pending : List (Formula α)) :
    ((walk key met pending).map key).Nodup := by
  induction met, pending using walk.induct key with
  | case1 met => simp [walk]
  | case2 met e pending hmet ih =>
      rw [walk, if_pos hmet]
      exact ih
  | case3 met e pending hmet ih =>
      rw [walk, if_neg hmet, List.map_cons, List.nodup_cons]
      refine ⟨?_, ih⟩
      intro hagain
      obtain ⟨d, hd, hkey⟩ := List.mem_map.mp hagain
      have hnot := contains_eq_false_of_mem_walk hd
      rw [hkey, Std.HashSet.contains_insert_self] at hnot
      cases hnot

/-- What was met at the end: what was met before, and what the walk met. -/
def MetBy (key : Formula α → κ) (met : Std.HashSet κ) (pending : List (Formula α)) (k : κ) : Prop :=
  met.contains k = true ∨ k ∈ (walk key met pending).map key

/-- The children of what was met have been met or are pending. -/
def UpTo (M : Formula α → Prop) (key : Formula α → κ) (met : Std.HashSet κ)
    (pending : List (Formula α)) : Prop :=
  ∀ d, M d → met.contains (key d) = true → ∀ c ∈ d.children,
    met.contains (key c) = true ∨ ∃ p ∈ pending, key p = key c

theorem metBy_pending {met : Std.HashSet κ} {e : Formula α} {pending : List (Formula α)}
    (hmet : ¬ met.contains (key e) = true) {k : κ} :
    MetBy key met (e :: pending) k ↔
      MetBy key (met.insert (key e)) (e.children ++ pending) k := by
  rw [MetBy, MetBy, walk, if_neg hmet, Std.HashSet.contains_insert, List.map_cons, List.mem_cons]
  simp only [Bool.or_eq_true, beq_iff_eq, eq_comm (a := k)]
  tauto

/-- **The walk goes on until what was met is closed under children.** -/
theorem metBy_closed (h : TellsBelow M key) {met : Std.HashSet κ} {pending : List (Formula α)}
    (hpending : ∀ p ∈ pending, M p) (hupTo : UpTo M key met pending) :
    (∀ p ∈ pending, MetBy key met pending (key p)) ∧
      ∀ d, M d → MetBy key met pending (key d) → ∀ c ∈ d.children,
        MetBy key met pending (key c) := by
  induction met, pending using walk.induct key with
  | case1 met =>
      refine ⟨by simp, ?_⟩
      intro d hd hmet c hc
      have hmet' : met.contains (key d) = true := by simpa [MetBy, walk] using hmet
      rcases hupTo d hd hmet' c hc with hc' | ⟨p, hp, -⟩
      · exact .inl hc'
      · cases hp
  | case2 met e pending hmet ih =>
      have hsame : ∀ k, MetBy key met (e :: pending) k ↔ MetBy key met pending k := by
        intro k
        rw [MetBy, MetBy, walk, if_pos hmet]
      have hrest : UpTo M key met pending := by
        intro d hd hdmet c hc
        rcases hupTo d hd hdmet c hc with hc' | ⟨p, hp, hkey⟩
        · exact .inl hc'
        · rcases List.mem_cons.mp hp with rfl | hp
          · exact .inl (hkey ▸ hmet)
          · exact .inr ⟨p, hp, hkey⟩
      obtain ⟨hall, hclosed⟩ := ih (fun p hp => hpending p (List.mem_cons_of_mem e hp)) hrest
      simp only [hsame]
      refine ⟨?_, hclosed⟩
      intro p hp
      rcases List.mem_cons.mp hp with rfl | hp
      · exact .inl hmet
      · exact hall p hp
  | case3 met e pending hmet ih =>
      have he : M e := hpending e List.mem_cons_self
      have hnext : ∀ p ∈ e.children ++ pending, M p := by
        intro p hp
        rcases List.mem_append.mp hp with hp | hp
        · exact h.child he hp
        · exact hpending p (List.mem_cons_of_mem e hp)
      have hrest : UpTo M key (met.insert (key e)) (e.children ++ pending) := by
        intro d hd hdmet c hc
        rw [Std.HashSet.contains_insert, Bool.or_eq_true, beq_iff_eq] at hdmet
        rcases hdmet with hkey | hdmet
        · -- a formula of the key met now: its children have the keys of those pending now
          obtain ⟨c', hc', hckey⟩ := h.children hd he hkey.symm c hc
          exact .inr ⟨c', List.mem_append_left _ hc', hckey⟩
        · rcases hupTo d hd hdmet c hc with hc' | ⟨p, hp, hpkey⟩
          · exact .inl (by rw [Std.HashSet.contains_insert, hc', Bool.or_true])
          · rcases List.mem_cons.mp hp with rfl | hp
            · exact .inl (by rw [← hpkey, Std.HashSet.contains_insert_self])
            · exact .inr ⟨p, List.mem_append_right _ hp, hpkey⟩
      obtain ⟨hall, hclosed⟩ := ih hnext hrest
      simp only [metBy_pending hmet]
      refine ⟨?_, hclosed⟩
      intro p hp
      rcases List.mem_cons.mp hp with rfl | hp
      · exact .inl Std.HashSet.contains_insert_self
      · exact hall p (List.mem_append_right _ hp)

/-- **A walk meets the keys in the graph**, where keys tell what is below. -/
theorem mem_map_walk_iff (h : TellsBelow M key) {e : Formula α} (he : M e) {k : κ} :
    k ∈ (walk key ∅ [e]).map key ↔ ∃ d : Formula α, d.Within e ∧ key d = k := by
  have hnew : ∀ k, MetBy key ∅ [e] k ↔ k ∈ (walk key ∅ [e]).map key := by simp [MetBy]
  refine ⟨?_, ?_⟩
  · intro hk
    obtain ⟨d, hd, hkey⟩ := List.mem_map.mp hk
    obtain ⟨p, hp, hdp⟩ := within_of_mem_walk hd
    exact ⟨d, List.mem_singleton.mp hp ▸ hdp, hkey⟩
  · rintro ⟨d, hd, rfl⟩
    have hnone : UpTo M key ∅ [e] := by simp [UpTo]
    obtain ⟨hroot, hclosed⟩ := metBy_closed h (by simpa using he) hnone
    rw [← hnew]
    have hall : ∀ {d f : Formula α}, d.Within f → M f → MetBy key ∅ [e] (key f) →
        MetBy key ∅ [e] (key d) := by
      intro d f hdf
      induction hdf with
      | refl => exact fun _ hmet => hmet
      | child hc _ ih => exact fun hf hmet => ih (h.child hf hc) (hclosed _ hf hmet _ hc)
    exact hall hd he (hroot e List.mem_cons_self)

/-- Where the key is an identity, a walk meets the nodes of the graph. -/
theorem mem_walk_iff_within {e : Formula α}
    (h : ∀ c d : Formula α, c.Within e → d.Within e → key c = key d → c = d) {d : Formula α} :
    d ∈ walk key ∅ [e] ↔ d.Within e := by
  refine ⟨?_, ?_⟩
  · intro hd
    obtain ⟨p, hp, hdp⟩ := within_of_mem_walk hd
    exact List.mem_singleton.mp hp ▸ hdp
  · intro hd
    have hkey := (mem_map_walk_iff (TellsBelow.of_identity h) (.refl e)).mpr ⟨d, hd, rfl⟩
    obtain ⟨c, hc, hsame⟩ := List.mem_map.mp hkey
    obtain ⟨p, hp, hcp⟩ := within_of_mem_walk hc
    exact h c d (List.mem_singleton.mp hp ▸ hcp) hd hsame ▸ hc

end Formula

end FormulaGraph
