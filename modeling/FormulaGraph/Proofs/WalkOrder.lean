import FormulaGraph.Proofs.Walks
import Mathlib.Data.Set.Card

/-!
# In what order a walk meets

Where identities tell nodes apart, a walk leaves aside what it met before, and misses nothing by
it.

**Variables** come in the order in which the tree that the graph unfolds to mentions them, read
from left to right: every repetition is left out, and no first mention (`walk_filterMap`).  What
carries this is that a node met before is *anticipated*: wherever it comes up again, all
variables below it were met, or will have been met by then.

**Edges** are followed at most once each, in whatever order a loop takes them up.  The loop is
described with the edges it has taken off its stack (`Sweeps`).  All edges of the nodes visited
so far have been taken off or are on the stack (`Accounted`), so the loop comes to an end
(`exists_sweep`), and then it has visited each node once (`Sweeps.mem_visited_iff`).
-/

namespace FormulaGraph

namespace Formula

variable {α : Type}

/-! ## Reading the tree -/

mutual

/-- The variables that the tree has at its leaves, from left to right. -/
def leaves : Formula α → List Variable
  | node _ (.const _) => []
  | node id (.var name) => [⟨id, name⟩]
  | node _ (.unary _ a) => leaves a
  | node _ (.binary _ a b) => leaves a ++ leaves b
  | node _ (.assoc _ args) => allLeaves args
  | node _ (.conditional _ c a b) => leaves c ++ (leaves a ++ leaves b)
  | node _ (.tabulated _ _ a) => leaves a
  | node _ (.solver ⟨body, _, low, high, precision, _⟩) =>
    leaves body ++ (leaves low ++ (leaves high ++ leaves precision))

def allLeaves : List (Formula α) → List Variable
  | [] => []
  | e :: es => leaves e ++ allLeaves es

end

theorem allLeaves_eq_flatMap (es : List (Formula α)) : allLeaves es = es.flatMap leaves := by
  induction es with
  | nil => rfl
  | cons e es ih => rw [allLeaves, ih, List.flatMap_cons]

theorem leaves_of_variable {e : Formula α} {x : Variable} (h : e.asVariable = some x) :
    e.leaves = [x] ∧ e.children = [] ∧ x.id = e.id := by
  obtain ⟨id, shape⟩ := e
  cases shape with
  | var name =>
      obtain rfl := Option.some.inj h
      exact ⟨rfl, rfl, rfl⟩
  | _ => cases h

/-- What is not a variable has the leaves of its children. -/
theorem leaves_of_not_variable {e : Formula α} (h : e.asVariable = none) :
    e.leaves = e.children.flatMap leaves := by
  obtain ⟨id, shape⟩ := e
  cases shape with
  | var name => cases h
  | _ => simp [leaves, allLeaves_eq_flatMap, Shape.children, Solver.children]

/-- A leaf is a variable within the formula. -/
theorem exists_of_mem_leaves {e : Formula α} {x : Variable} (h : x ∈ e.leaves) :
    ∃ d : Formula α, d.Within e ∧ d.asVariable = some x := by
  induction e using inductionOnRefs with
  | h id shape ih =>
      cases hvariable : (node id shape).asVariable with
      | some y =>
          rw [(leaves_of_variable hvariable).1, List.mem_singleton] at h
          exact ⟨_, .refl _, h ▸ hvariable⟩
      | none =>
          rw [leaves_of_not_variable hvariable] at h
          obtain ⟨c, hc, hx⟩ := List.mem_flatMap.mp h
          obtain ⟨d, hd, hdx⟩ := ih c (Shape.mem_refs_of_mem_children hc) hx
          exact ⟨d, .child hc hd, hdx⟩

/-! ## The order of variables -/

/-- The variables that the pending formulas have and that were not met before, in order. -/
def unread (met : Std.HashSet NodeId) (pending : List (Formula α)) : List Variable :=
  (pending.flatMap leaves).filter fun x => !met.contains x.id

/-- Of a node met before, all variables were met, or will have been met where it comes up again
below a pending formula. -/
def Anticipated (met : Std.HashSet NodeId) (pending : List (Formula α)) : Prop :=
  ∀ before p after, pending = before ++ p :: after → ∀ d : Formula α, d.Within p →
    met.contains d.id = true → ∀ x ∈ d.leaves,
      met.contains x.id = true ∨ x ∈ before.flatMap leaves

section Order

variable {met : Std.HashSet NodeId} {p : Formula α} {pending : List (Formula α)}

/-- Below the first pending formula, all that was met was read. -/
theorem Anticipated.first (h : Anticipated met (p :: pending)) {d : Formula α} (hd : d.Within p)
    (hmet : met.contains d.id = true) {x : Variable} (hx : x ∈ d.leaves) :
    met.contains x.id = true :=
  (h [] p pending rfl d hd hmet x hx).resolve_right List.not_mem_nil

/-- A formula met before is left aside. -/
theorem Anticipated.again (h : Anticipated met (p :: pending)) (hmet : met.contains p.id = true) :
    Anticipated met pending := by
  rintro before q after rfl d hd hdmet x hx
  rcases h (p :: before) q after rfl d hd hdmet x hx with hx | hx
  · exact .inl hx
  · rcases List.mem_append.mp (List.flatMap_cons ▸ hx) with hx | hx
    · exact .inl (h.first (.refl p) hmet hx)
    · exact .inr hx

theorem unread_again (h : Anticipated met (p :: pending)) (hmet : met.contains p.id = true) :
    unread met (p :: pending) = unread met pending := by
  rw [unread, List.flatMap_cons, List.filter_append]
  have hread : p.leaves.filter (fun x => !met.contains x.id) = [] := by
    rw [List.filter_eq_nil_iff]
    intro x hx
    rw [h.first (.refl p) hmet hx]
    decide
  rw [hread, List.nil_append, unread]

variable {e : Formula α}
  (hid : ∀ c d : Formula α, c.Within e → d.Within e → c.id = d.id → c = d)

include hid

/-- A formula met for the first time makes way for its children.  It is above them, so it does
not come up below them. -/
theorem Anticipated.new (hpending : ∀ q ∈ p :: pending, q.Within e)
    (h : Anticipated met (p :: pending)) :
    Anticipated (met.insert p.id) (p.children ++ pending) := by
  have hp := hpending p List.mem_cons_self
  -- all leaves of the formula are met now, or below its children
  have hbelow : ∀ x ∈ p.leaves, (met.insert p.id).contains x.id = true ∨
      x ∈ p.children.flatMap leaves := by
    intro x hx
    cases hvariable : p.asVariable with
    | some y =>
        obtain ⟨hleaves, -, hy⟩ := leaves_of_variable hvariable
        rw [hleaves, List.mem_singleton] at hx
        rw [hx, hy]
        exact .inl Std.HashSet.contains_insert_self
    | none => exact .inr (leaves_of_not_variable hvariable ▸ hx)
  have hkeep : ∀ {k : NodeId}, met.contains k = true → (met.insert p.id).contains k = true := by
    intro k hk
    rw [Std.HashSet.contains_insert, hk, Bool.or_true]
  intro before q after hsplit d hd hmet x hx
  have hcases : q ∈ p.children ∨ ∃ between, before = p.children ++ between ∧
      pending = between ++ q :: after := by
    rcases List.append_eq_append_iff.mp hsplit with
      ⟨between, hbefore, hrest⟩ | ⟨rest, hchildren, hrest⟩
    · exact .inr ⟨between, hbefore, hrest⟩
    · rcases List.cons_eq_append_iff.mp hrest with ⟨rfl, hrest⟩ | ⟨rest', rfl, -⟩
      · exact .inr ⟨[], by simpa using hchildren.symm, hrest.symm⟩
      · exact .inl (hchildren ▸ by simp)
  rw [Std.HashSet.contains_insert, Bool.or_eq_true, beq_iff_eq] at hmet
  rcases hcases with hq | ⟨between, rfl, rfl⟩
  · have hdp : d.Within p := .child hq hd
    rcases hmet with hmet | hmet
    · obtain rfl := hid _ _ hp (hdp.trans hp) hmet
      exact absurd hd (not_within_child _ q hq)
    · exact .inl (hkeep (h.first hdp hmet hx))
  · rw [List.flatMap_append, List.mem_append]
    rcases hmet with hmet | hmet
    · obtain rfl := hid _ _ hp (hd.trans (hpending q (by simp))) hmet
      exact (hbelow x hx).imp_right .inl
    · rcases h (p :: between) q after rfl d hd hmet x hx with hx | hx
      · exact .inl (hkeep hx)
      · rcases List.mem_append.mp (List.flatMap_cons ▸ hx) with hx | hx
        · exact (hbelow x hx).imp_right .inl
        · exact .inr (.inr hx)

/-- A leaf with the identity of a node is that node. -/
theorem asVariable_of_leaf (hpending : ∀ q ∈ p :: pending, q.Within e) {x : Variable}
    (hx : x ∈ (p :: pending).flatMap leaves) (h : x.id = p.id) : p.asVariable = some x := by
  obtain ⟨q, hq, hx⟩ := List.mem_flatMap.mp hx
  obtain ⟨d, hd, hvariable⟩ := exists_of_mem_leaves hx
  obtain rfl := hid d p (hd.trans (hpending q hq)) (hpending p List.mem_cons_self)
    ((leaves_of_variable hvariable).2.2.symm.trans h)
  exact hvariable

/-- Once a formula is met, its children are to be read in its place; but of a variable, itself
is read. -/
theorem unread_new (hpending : ∀ q ∈ p :: pending, q.Within e)
    (hmet : ¬ met.contains p.id = true) :
    (unread met (p :: pending)).eraseDups = p.asVariable.toList ++
      (unread (met.insert p.id) (p.children ++ pending)).eraseDups := by
  cases hvariable : p.asVariable with
  | none =>
      have hleaves : (p :: pending).flatMap leaves = (p.children ++ pending).flatMap leaves := by
        rw [List.flatMap_cons, leaves_of_not_variable hvariable, ← List.flatMap_append]
      show _ = (unread (met.insert p.id) (p.children ++ pending)).eraseDups
      rw [unread, unread, hleaves]
      congr 1
      refine List.filter_congr fun x hx => ?_
      have hne : ¬ p.id = x.id := by
        intro hsame
        have hx' := asVariable_of_leaf hid hpending (hleaves ▸ hx) hsame.symm
        rw [hvariable] at hx'
        cases hx'
      rw [Std.HashSet.contains_insert, beq_eq_false_iff_ne.mpr hne, Bool.false_or]
  | some y =>
      obtain ⟨hleaves, hchildren, hy⟩ := leaves_of_variable hvariable
      have hall : (p :: pending).flatMap leaves = y :: pending.flatMap leaves := by
        rw [List.flatMap_cons, hleaves, List.singleton_append]
      have hread : unread met (p :: pending) = y :: unread met pending := by
        rw [unread, hall, List.filter_cons_of_pos (by simpa [hy] using hmet), unread]
      rw [hread, List.eraseDups_cons, hchildren, List.nil_append, unread, List.filter_filter]
      show _ = y :: _
      congr 2
      refine List.filter_congr fun x hx => ?_
      have hsame : p.id = x.id ↔ x = y := by
        refine ⟨fun h => ?_, fun h => by rw [h, hy]⟩
        have hx' := asVariable_of_leaf hid hpending (hall ▸ List.mem_cons_of_mem y hx) h.symm
        rw [hvariable] at hx'
        exact (Option.some.inj hx').symm
      rw [Std.HashSet.contains_insert, Bool.not_or, ← beq_eq_beq.mpr hsame]

/-- **A walk reads the variables from left to right**, and each once. -/
theorem walk_filterMap (hpending : ∀ q ∈ pending, q.Within e) (h : Anticipated met pending) :
    (walk Formula.id met pending).filterMap asVariable = (unread met pending).eraseDups := by
  induction met, pending using walk.induct (Formula.id (α := α)) with
  | case1 met =>
      rw [walk]
      rfl
  | case2 met p pending hmet ih =>
      rw [walk, if_pos hmet, unread_again h hmet]
      exact ih (fun q hq => hpending q (List.mem_cons_of_mem p hq)) (h.again hmet)
  | case3 met p pending hmet ih =>
      have hbelow : ∀ q ∈ p.children ++ pending, q.Within e := by
        intro q hq
        rcases List.mem_append.mp hq with hq | hq
        · exact (Within.child hq (.refl q)).trans (hpending p List.mem_cons_self)
        · exact hpending q (List.mem_cons_of_mem p hq)
      rw [walk, if_neg hmet, unread_new hid hpending hmet, ← ih hbelow (h.new hid hpending)]
      cases hvariable : p.asVariable with
      | none => rw [List.filterMap_cons_none hvariable]; rfl
      | some y => rw [List.filterMap_cons_some hvariable]; rfl

/-- The variables of a graph are those of the tree, from left to right, without repetitions. -/
theorem vars_eq_eraseDups : e.vars = e.leaves.eraseDups := by
  have hnone : Anticipated ∅ [e] := fun _ _ _ _ _ _ hmet => by simp at hmet
  rw [vars, nodes, walk_filterMap hid (by simpa using .refl e) hnone, unread]
  congr 1
  simp

end Order

/-! ## Following edges -/

/-- An edge of a graph, from a node to the child it has at a place.  What leads to the root
comes from no node. -/
structure Edge (α : Type) where
  parent : Option (Formula α)
  place : ℕ
  child : Formula α

/-- The edges of a node, in the order of its children. -/
def edges (d : Formula α) : List (Edge α) := d.children.zipIdx.map fun c => ⟨some d, c.2, c.1⟩

/-- What a loop starts from. -/
def Edge.root (e : Formula α) : Edge α := ⟨none, 0, e⟩

@[simp] theorem map_child_edges (d : Formula α) : d.edges.map Edge.child = d.children := by
  rw [edges, List.map_map]
  exact List.zipIdx_map_fst 0 d.children

theorem parent_of_mem_edges {d : Formula α} {p : Edge α} (h : p ∈ d.edges) :
    p.parent = some d ∧ p.child ∈ d.children := by
  refine ⟨?_, map_child_edges d ▸ List.mem_map_of_mem h⟩
  obtain ⟨c, -, rfl⟩ := List.mem_map.mp h
  rfl

theorem nodup_edges (d : Formula α) : d.edges.Nodup := by
  refine .of_map Edge.place ?_
  rw [edges, List.map_map]
  have hplaces : d.children.zipIdx.map Prod.snd = List.range' 0 d.children.length :=
    List.zipIdx_map_snd 0 d.children
  exact hplaces ▸ List.nodup_range'

theorem nodup_root_edges (e : Formula α) {visited : List (Formula α)} (h : visited.Nodup) :
    (Edge.root e :: visited.flatMap edges).Nodup := by
  rw [List.nodup_cons, List.nodup_flatMap]
  refine ⟨fun hroot => ?_, fun d _ => nodup_edges d, h.imp fun {c d} hne p hc hd => hne ?_⟩
  · obtain ⟨d, -, hd⟩ := List.mem_flatMap.mp hroot
    cases (parent_of_mem_edges hd).1
  · exact Option.some.inj ((parent_of_mem_edges hc).1.symm.trans (parent_of_mem_edges hd).1)

/-- Edges of a new node are put among the pending ones, in any order. -/
def Pushes (arrange : Formula α → List (Edge α) → List (Edge α)) : Prop :=
  ∀ d pending, (arrange d pending).Perm (d.edges ++ pending)

/-- What a loop has taken off its stack, which nodes it has visited and what is on its stack: it
takes off an edge at a time, and pushes those of a node that it has not visited. -/
inductive Sweeps (arrange : Formula α → List (Edge α) → List (Edge α)) (e : Formula α) :
    List (Edge α) → List (Formula α) → List (Edge α) → Prop
  | start : Sweeps arrange e [] [] [.root e]
  | again {popped pending : List (Edge α)} {visited : List (Formula α)} {p : Edge α}
      (before : Sweeps arrange e popped visited (p :: pending))
      (hmet : p.child.id ∈ visited.map Formula.id) :
      Sweeps arrange e (popped ++ [p]) visited pending
  | new {popped pending : List (Edge α)} {visited : List (Formula α)} {p : Edge α}
      (before : Sweeps arrange e popped visited (p :: pending))
      (hnew : p.child.id ∉ visited.map Formula.id) :
      Sweeps arrange e (popped ++ [p]) (visited ++ [p.child]) (arrange p.child pending)

/-- The edges of all nodes visited have been taken off or are on the stack, and no others. -/
structure Accounted (e : Formula α) (popped : List (Edge α)) (visited : List (Formula α))
    (pending : List (Edge α)) : Prop where
  edges : (popped ++ pending).Perm (.root e :: visited.flatMap edges)
  within : ∀ d ∈ visited, d.Within e
  nodup : (visited.map Formula.id).Nodup
  heads : ∀ p ∈ popped, p.child.id ∈ visited.map Formula.id

section Sweeping

variable {arrange : Formula α → List (Edge α) → List (Edge α)} {e : Formula α}
  {popped pending : List (Edge α)} {visited : List (Formula α)} {p : Edge α}

theorem Accounted.start (e : Formula α) : Accounted e [] [] [.root e] where
  edges := .refl _
  within _ h := absurd h List.not_mem_nil
  nodup := List.nodup_nil
  heads _ h := absurd h List.not_mem_nil

/-- An edge leads to a node of the graph, and comes from one that was visited. -/
theorem Accounted.edge (h : Accounted e popped visited pending) (hp : p ∈ popped ++ pending) :
    p.child.Within e ∧ (p = .root e ∨ ∃ d : Formula α, d.Within e ∧ p ∈ d.edges) := by
  rcases List.mem_cons.mp (h.edges.subset hp) with rfl | hp
  · exact ⟨.refl e, .inl rfl⟩
  · obtain ⟨d, hd, hp⟩ := List.mem_flatMap.mp hp
    exact ⟨(Within.child (parent_of_mem_edges hp).2 (.refl _)).trans (h.within d hd),
      .inr ⟨d, h.within d hd, hp⟩⟩

theorem Accounted.again (h : Accounted e popped visited (p :: pending))
    (hmet : p.child.id ∈ visited.map Formula.id) :
    Accounted e (popped ++ [p]) visited pending where
  edges := by
    rw [List.append_assoc]
    exact h.edges
  within := h.within
  nodup := h.nodup
  heads := by
    intro q hq
    rcases List.mem_append.mp hq with hq | hq
    · exact h.heads q hq
    · exact List.mem_singleton.mp hq ▸ hmet

theorem Accounted.new (harrange : Pushes arrange) (h : Accounted e popped visited (p :: pending))
    (hnew : p.child.id ∉ visited.map Formula.id) :
    Accounted e (popped ++ [p]) (visited ++ [p.child]) (arrange p.child pending) where
  edges := by
    have hpushed : (popped ++ [p] ++ arrange p.child pending).Perm
        (popped ++ (p :: pending) ++ p.child.edges) := by
      rw [List.append_assoc, List.append_assoc, List.singleton_append]
      exact (((harrange p.child pending).trans List.perm_append_comm).cons p).append_left popped
    rw [List.flatMap_append, List.flatMap_singleton, ← List.cons_append]
    exact hpushed.trans (h.edges.append_right p.child.edges)
  within := by
    intro d hd
    rcases List.mem_append.mp hd with hd | hd
    · exact h.within d hd
    · rw [List.mem_singleton.mp hd]
      exact (h.edge (by simp)).1
  nodup := by
    rw [List.map_append, List.map_singleton, List.nodup_append_comm]
    exact List.nodup_cons.mpr ⟨hnew, h.nodup⟩
  heads := by
    intro q hq
    rw [List.map_append, List.mem_append]
    rcases List.mem_append.mp hq with hq | hq
    · exact .inl (h.heads q hq)
    · exact .inr (by simp [List.mem_singleton.mp hq])

/-- The loop goes on while there is something on its stack. -/
theorem Sweeps.next (h : Sweeps arrange e popped visited (p :: pending)) :
    ∃ visited' pending', Sweeps arrange e (popped ++ [p]) visited' pending' := by
  by_cases hmet : p.child.id ∈ visited.map Formula.id
  · exact ⟨_, _, .again h hmet⟩
  · exact ⟨_, _, .new h hmet⟩

/-- What a step of the loop keeps, the loop keeps. -/
theorem Sweeps.accounted (harrange : Pushes arrange) (h : Sweeps arrange e popped visited pending) :
    Accounted e popped visited pending := by
  induction h with
  | start => exact .start e
  | again _ hmet ih => exact ih.again hmet
  | new _ hnew ih => exact ih.new harrange hnew

/-- **No edge is taken off twice.** -/
theorem Accounted.nodup_popped (h : Accounted e popped visited pending) : popped.Nodup :=
  (h.edges.nodup_iff.mpr (nodup_root_edges e h.nodup.of_map)).of_append_left

/-- The walk is a loop that pushes children in front, from left to right. -/
theorem exists_sweep_of_walk {met : Std.HashSet NodeId}
    (hmet : ∀ k, met.contains k = true ↔ k ∈ visited.map Formula.id)
    (h : Sweeps (fun d rest => d.edges ++ rest) e popped visited pending) :
    ∃ popped, Sweeps (fun d rest => d.edges ++ rest) e popped
      (visited ++ walk Formula.id met (pending.map Edge.child)) [] := by
  generalize hqueue : pending.map Edge.child = queue
  induction met, queue using walk.induct (Formula.id (α := α))
    generalizing popped visited pending with
  | case1 met =>
      rw [List.map_eq_nil_iff.mp hqueue] at h
      rw [walk, List.append_nil]
      exact ⟨popped, h⟩
  | case2 met d queue hagain ih =>
      obtain ⟨p, pending, rfl, rfl, rfl⟩ := List.map_eq_cons_iff.mp hqueue
      rw [walk, if_pos hagain]
      exact ih hmet (.again h ((hmet _).mp hagain)) rfl
  | case3 met d queue hnew ih =>
      obtain ⟨p, pending, rfl, rfl, rfl⟩ := List.map_eq_cons_iff.mp hqueue
      have hnext : Sweeps (fun d rest => d.edges ++ rest) e (popped ++ [p]) (visited ++ [p.child])
          (p.child.edges ++ pending) := .new h fun hp => hnew ((hmet _).mpr hp)
      rw [walk, if_neg hnew, ← List.singleton_append, ← List.append_assoc]
      refine ih (fun k => ?_) hnext (by rw [List.map_append, map_child_edges])
      rw [Std.HashSet.contains_insert, Bool.or_eq_true, hmet, beq_iff_eq]
      simp [or_comm, eq_comm]

theorem exists_sweep_of_nodes (e : Formula α) :
    ∃ popped, Sweeps (fun d rest => d.edges ++ rest) e popped e.nodes [] :=
  @exists_sweep_of_walk α e [] [.root e] [] ∅ (by simp) .start

section Identities

variable (hid : ∀ c d : Formula α, c.Within e → d.Within e → c.id = d.id → c = d)

include hid

/-- **At the end, the nodes of the graph have been visited**: what was visited is closed under
children. -/
theorem Accounted.mem_visited_iff (h : Accounted e popped visited []) {d : Formula α} :
    d ∈ visited ↔ d.Within e := by
  have hhead : ∀ p ∈ .root e :: visited.flatMap Formula.edges, p.child ∈ visited := by
    intro p hp
    have hpopped : p ∈ popped := by simpa using h.edges.symm.subset hp
    obtain ⟨c, hc, hsame⟩ := List.mem_map.mp (h.heads p hpopped)
    exact hid c p.child (h.within c hc) (h.edge (List.mem_append_left _ hpopped)).1 hsame ▸ hc
  have hclosed : ∀ f ∈ visited, ∀ c ∈ f.children, c ∈ visited := by
    intro f hf c hc
    rw [← map_child_edges] at hc
    obtain ⟨p, hp, rfl⟩ := List.mem_map.mp hc
    exact hhead p (List.mem_cons_of_mem _ (List.mem_flatMap.mpr ⟨f, hf, hp⟩))
  exact ⟨h.within d, fun hd => hd.mem_of_closed hclosed (hhead (.root e) List.mem_cons_self)⟩

/-- The nodes of a graph are counted once each. -/
theorem nodeCount_eq_ncard : e.nodeCount = {d : Formula α | d.Within e}.ncard := by
  classical
  have hnodup : e.nodes.Nodup := (nodup_map_walk ∅ [e]).of_map
  have hnodes : {d : Formula α | d.Within e} = e.nodes.toFinset := by
    ext d
    rw [List.coe_toFinset, Set.mem_ofPred_eq, Set.mem_ofPred_eq, nodes, mem_walk_iff_within hid]
  rw [hnodes, Set.ncard_coe_finset, List.toFinset_card_of_nodup hnodup, nodeCount]

/-- A loop that has ended has visited as many nodes as there are. -/
theorem Accounted.length_visited (h : Accounted e popped visited []) :
    visited.length = e.nodeCount := by
  have hnodup : e.nodes.Nodup := (nodup_map_walk ∅ [e]).of_map
  refine ((List.perm_ext_iff_of_nodup h.nodup.of_map hnodup).mpr fun d => ?_).length_eq
  rw [h.mem_visited_iff hid, nodes, mem_walk_iff_within hid]

/-- There are no more edges to take off than the graph has. -/
theorem Accounted.length_popped_le (h : Accounted e popped visited pending) :
    popped.length ≤ (Edge.root e :: e.nodes.flatMap Formula.edges).length := by
  refine (h.nodup_popped.subperm fun p hp => ?_).length_le
  rcases (h.edge (List.mem_append_left _ hp)).2 with rfl | ⟨d, hd, hp⟩
  · exact List.mem_cons_self
  · exact List.mem_cons_of_mem _ (List.mem_flatMap.mpr ⟨d, (mem_walk_iff_within hid).mpr hd, hp⟩)

/-- **The loop comes to an end**, in whatever order edges are pushed. -/
theorem exists_sweep (harrange : Pushes arrange) :
    ∃ popped visited, Sweeps arrange e popped visited [] := by
  have hmore : ∀ n {popped visited pending}, Sweeps arrange e popped visited pending →
      (Edge.root e :: e.nodes.flatMap Formula.edges).length < popped.length + n →
      ∃ popped visited, Sweeps arrange e popped visited [] := by
    intro n
    induction n with
    | zero =>
        intro popped visited pending h hn
        exact absurd ((h.accounted harrange).length_popped_le hid) (not_le.mpr hn)
    | succ n ih =>
        intro popped visited pending h hn
        cases pending with
        | nil => exact ⟨popped, visited, h⟩
        | cons p pending =>
            obtain ⟨visited', pending', hnext⟩ := h.next
            refine ih hnext ?_
            rw [List.length_append, List.length_singleton]
            omega
  exact hmore _ .start (Nat.lt_add_left [].length (Nat.lt_succ_self _))

end Identities

end Sweeping

/-- **Traversals see every node once.**  In a graph of any sharing in which identities tell nodes
apart, the variables are the leaves of the tree the graph unfolds to, read from left to right,
without repetitions after the first, and the nodes counted are those that children lead to.

A loop with a stack comes to an end in whatever order it pushes the children of a node, and
visits these nodes.  It takes off each edge of the graph at most once, and no others, but for
what leads to the root; the walk, which pushes children in front, is such a loop. -/
theorem traversals_see_nodes_once (e : Formula α)
    (hid : ∀ c d : Formula α, c.Within e → d.Within e → c.id = d.id → c = d) :
    e.vars = e.leaves.eraseDups ∧ e.nodeCount = {d : Formula α | d.Within e}.ncard ∧
    (∃ popped, Sweeps (fun d pending => d.edges ++ pending) e popped e.nodes []) ∧
    ∀ arrange, Pushes arrange → (∃ popped visited, Sweeps arrange e popped visited []) ∧
      ∀ popped visited pending, Sweeps arrange e popped visited pending →
        popped.Nodup ∧
        (∀ p ∈ popped, p = .root e ∨ ∃ d : Formula α, d.Within e ∧ p ∈ d.edges) ∧
        (pending = [] → visited.length = e.nodeCount ∧ ∀ d, d ∈ visited ↔ d.Within e) := by
  refine ⟨vars_eq_eraseDups hid, nodeCount_eq_ncard hid, exists_sweep_of_nodes e, ?_⟩
  refine fun arrange harrange => ⟨exists_sweep hid harrange, ?_⟩
  intro popped visited pending hsweep
  have haccounted := hsweep.accounted harrange
  refine ⟨haccounted.nodup_popped,
    fun p hp => (haccounted.edge (List.mem_append_left _ hp)).2, ?_⟩
  rintro rfl
  exact ⟨haccounted.length_visited hid, fun d => haccounted.mem_visited_iff hid⟩

/-- A search whose body, upper bound and both terms of a sum share a square.  The tree has nine
variables at its leaves and the graph six nodes; a loop that takes up the last child first ends
as well. -/
theorem traversals_see_nodes_once_of_shared_square :
    let x : Variable := ⟨2, "x"⟩
    let y : Variable := ⟨3, "y"⟩
    let square : Formula Int := node 4 (.unary .square y.formula)
    let sum : Formula Int := node 5 (.assoc .add [square, x.formula, square])
    let difference : Formula Int := node 6 (.binary .subtract sum y.formula)
    let search : Formula Int := node 7 (.solver
      { body := difference, bound := y, low := x.formula, high := square
        precision := x.formula, guard := none })
    let lastFirst : Formula Int → List (Edge Int) → List (Edge Int) :=
      fun d pending => d.edges.reverse ++ pending
    (∀ c d : Formula Int, c.Within search → d.Within search → c.id = d.id → c = d) ∧
      search.leaves = [y, x, y, y, x, y, x] ∧ search.vars = [y, x] ∧
      {d : Formula Int | d.Within search}.ncard = 6 ∧
      ∃ popped visited, Sweeps lastFirst search popped visited [] ∧ popped.Nodup ∧
        visited.length = 6 := by
  intro x y square sum difference search lastFirst
  let all : List (Formula Int) := [search, difference, sum, square, x.formula, y.formula]
  have hall : ∀ d : Formula Int, d.Within search → d ∈ all := fun d hd =>
    hd.mem_of_closed (by simp [all, search, difference, sum, square, Variable.formula,
      Shape.children, Solver.children]) List.mem_cons_self
  have hid : ∀ c d : Formula Int, c.Within search → d.Within search → c.id = d.id → c = d :=
    fun c d hc hd h => List.inj_on_of_nodup_map (f := Formula.id) (l := all) (by decide)
      (hall c hc) (hall d hd) h
  have hcount : search.nodeCount = 6 := by
    simp only [search, difference, sum, square, x, y]
    cbv
  obtain ⟨hvars, hncard, -, hloops⟩ := traversals_see_nodes_once search hid
  obtain ⟨⟨popped, visited, hsweep⟩, hkept⟩ := hloops lastFirst fun d pending =>
    (List.reverse_perm d.edges).append_right pending
  obtain ⟨hnodup, -, hend⟩ := hkept popped visited [] hsweep
  refine ⟨hid, rfl, hvars.trans (by decide), hncard ▸ hcount, popped, visited, hsweep, hnodup, ?_⟩
  rw [(hend rfl).1, hcount]

end Formula

end FormulaGraph
