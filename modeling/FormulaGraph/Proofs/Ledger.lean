import FormulaGraph.Proofs.Parts
import Mathlib.Data.List.Forall2

/-!
# Keeping account of the nodes built

A **ledger** is a directory together with the number that is free next; a formula
is *known* to it when its parts are listed below that number.  Building nodes
extends the ledger and changes nothing that was known.

`Builds x L P` says that a computation `x` begun with the ledger `L` can be
followed by an extended ledger, for which its answer satisfies `P`.  Where only
the answer matters and not which numbers were drawn, `Yields x P` says that all
answers of `x` satisfy `P`.  Both go through do-blocks one step at a time.
-/

namespace FormulaGraph

/-- The nodes built so far and the number free next.  The shared zero and one are
built before all others. -/
structure Ledger (α : Type) [Scalar α] where
  directory : Formula.Directory α
  next : NodeId
  firstFree_le : Formula.firstFree ≤ next
  zero_entry : directory 0 = Formula.zero
  one_entry : directory 1 = Formula.one

variable {α : Type} [Scalar α]

namespace Ledger

/-- The later ledger has all the entries of the earlier one. -/
structure Extends (L L' : Ledger α) : Prop where
  next_le : L.next ≤ L'.next
  entry : ∀ id, id < L.next → L'.directory id = L.directory id

/-- A ledger extends itself. -/
theorem Extends.refl (L : Ledger α) : L.Extends L := ⟨Nat.le_refl _, fun _ _ => rfl⟩

/-- Extensions of extensions are extensions. -/
theorem Extends.trans {L L' L'' : Ledger α} (h : L.Extends L') (h' : L'.Extends L'') :
    L.Extends L'' := by
  refine ⟨Nat.le_trans h.next_le h'.next_le, ?_⟩
  intro id hid
  rw [h'.entry id (Nat.lt_of_lt_of_le hid h.next_le), h.entry id hid]

/-- The ledger in which there are only zero and one. -/
def initial : Ledger α where
  directory := fun id => if id = 0 then Formula.zero else Formula.one
  next := Formula.firstFree
  firstFree_le := Nat.le_refl _
  zero_entry := rfl
  one_entry := rfl

/-- The ledger with one more node, which bears the number free next. -/
def add (L : Ledger α) (shape : Shape α (Formula α)) : Ledger α where
  directory := fun id => if id = L.next then .node L.next shape else L.directory id
  next := L.next + 1
  firstFree_le := Nat.le_succ_of_le L.firstFree_le
  zero_entry := by
    have h : 0 < L.next := Nat.lt_of_lt_of_le (by decide) L.firstFree_le
    rw [if_neg (Nat.ne_of_lt h)]
    exact L.zero_entry
  one_entry := by
    have h : 1 < L.next := Nat.lt_of_lt_of_le (by decide) L.firstFree_le
    rw [if_neg (Nat.ne_of_lt h)]
    exact L.one_entry

/-- The ledger with one number used up for something else than a node. -/
def skip (L : Ledger α) : Ledger α :=
  { L with next := L.next + 1, firstFree_le := Nat.le_succ_of_le L.firstFree_le }

/-- The ledger of these nodes, which bear the numbers free after zero and one in their order. -/
def ofNodes (nodes : List (Formula α)) : Ledger α where
  directory id := (Formula.zero :: Formula.one :: nodes).getD id Formula.zero
  next := nodes.length + 2
  firstFree_le := Nat.le_add_left 2 nodes.length
  zero_entry := rfl
  one_entry := rfl
/-- Entering a node extends the ledger. -/
theorem extends_add (L : Ledger α) (shape : Shape α (Formula α)) : L.Extends (L.add shape) :=
  ⟨Nat.le_succ _, fun _ hid => if_neg (Nat.ne_of_lt hid)⟩

/-- Leaving a number out extends the ledger. -/
theorem extends_skip (L : Ledger α) : L.Extends L.skip :=
  ⟨Nat.le_succ _, fun _ _ => rfl⟩

end Ledger

namespace Formula

variable {L L' : Ledger α}

/-- The parts of the formula are entered in the ledger. -/
inductive KnownTo (L : Ledger α) : Formula α → Prop
  | node {id : NodeId} {shape : Shape α (Formula α)} (lt : id < L.next)
      (entry : L.directory id = node id shape)
      (refs : ∀ r ∈ shape.refs, KnownTo L r) : KnownTo L (node id shape)

/-- Known nodes have numbers below the next one. -/
theorem KnownTo.id_lt {e : Formula α} (he : e.KnownTo L) : e.id < L.next := by
  cases he with
  | node lt _ _ => exact lt

/-- Known nodes are listed. -/
theorem KnownTo.listed {e : Formula α} (he : e.KnownTo L) : e.ListedIn L.directory := by
  induction he with
  | node _ entry _ ih => exact .node entry ih

/-- Known formulas stay known while more is built. -/
theorem KnownTo.mono {e : Formula α} (he : e.KnownTo L) (h : L.Extends L') : e.KnownTo L' := by
  induction he with
  | node lt entry _ ih =>
      exact .node (Nat.lt_of_lt_of_le lt h.next_le) ((h.entry _ lt).trans entry) ih

/-- What a known node refers to is known. -/
theorem KnownTo.ref {e r : Formula α} (he : e.KnownTo L) (hr : r ∈ e.shape.refs) :
    r.KnownTo L := by
  cases he with
  | node _ _ refs => exact refs r hr

/-- The children of a known node are known. -/
theorem KnownTo.child {e c : Formula α} (he : e.KnownTo L) (hc : c ∈ e.children) :
    c.KnownTo L :=
  he.ref (Shape.mem_refs_of_mem_children hc)

/-- All parts of a known node are known. -/
theorem KnownTo.within {d e : Formula α} (he : e.KnownTo L) (hd : d.Within e) :
    d.KnownTo L := by
  induction hd with
  | refl => exact he
  | child hc _ ih => exact ih (he.child hc)

/-- In one ledger a number is an identity. -/
theorem KnownTo.eq_of_id_eq {d e : Formula α} (hd : d.KnownTo L) (he : e.KnownTo L)
    (h : d.id = e.id) : d = e :=
  hd.listed.eq_of_id_eq he.listed h

/-- The common zero is known to every ledger. -/
theorem zero_known (L : Ledger α) : (zero : Formula α).KnownTo L :=
  .node (Nat.lt_of_lt_of_le (by decide) L.firstFree_le) L.zero_entry
    (by simp [Shape.refs, Shape.children])

/-- The common one is known. -/
theorem one_known (L : Ledger α) : (one : Formula α).KnownTo L :=
  .node (Nat.lt_of_lt_of_le (by decide) L.firstFree_le) L.one_entry
    (by simp [Shape.refs, Shape.children])

/-- A node over known formulas is known once it is entered. -/
theorem add_known {shape : Shape α (Formula α)} (h : ∀ r ∈ shape.refs, r.KnownTo L) :
    (node L.next shape).KnownTo (L.add shape) :=
  .node (Nat.lt_succ_self _) (if_pos rfl) fun r hr => (h r hr).mono (L.extends_add shape)

/-- Nodes are known to their ledger if they refer to one another only. -/
theorem ofNodes_known {nodes : List (Formula α)}
    (hids : nodes.map Formula.id = List.range' 2 nodes.length)
    (hrefs : ∀ e ∈ nodes, ∀ r ∈ e.shape.refs, r ∈ zero :: one :: nodes) {e : Formula α}
    (he : e ∈ nodes) : e.KnownTo (.ofNodes nodes) := by
  induction e using inductionOnRefs with
  | h id shape ih =>
      obtain ⟨i, hi, hentry⟩ := List.getElem_of_mem he
      have hmapped : i < (nodes.map Formula.id).length := by simpa using hi
      have hplace : (nodes.map Formula.id)[i] = 2 + i := by simp [hids]
      obtain rfl : id = 2 + i := by rwa [List.getElem_map, hentry, id_node] at hplace
      refine .node ?_ ?_ ?_
      · show 2 + i < nodes.length + 2
        omega
      · show (zero :: one :: nodes).getD (2 + i) zero = node (2 + i) shape
        rw [Nat.add_comm, List.getD_cons_succ, List.getD_cons_succ, Nat.add_comm,
          List.getD_eq_getElem?_getD, List.getElem?_eq_getElem hi, Option.getD_some, hentry]
      · intro r hr
        have hmem := hrefs _ he r hr
        rcases List.mem_cons.mp hmem with rfl | hmem
        · exact zero_known _
        · rcases List.mem_cons.mp hmem with rfl | hmem
          · exact one_known _
          · exact ih r hr hmem
end Formula

/-! ## Computations that build -/

variable {β γ : Type} {L : Ledger α}

/-- All answers of the computation satisfy `P`. -/
def Yields (x : Fresh β) (P : β → Prop) : Prop :=
  ∀ n, P (x.run n).1

namespace Yields

variable {P : β → Prop} {Q : γ → Prop}

/-- A result that is handed back has the properties it has. -/
theorem pure {b : β} (h : P b) : Yields (Pure.pure b) P := fun _ => h

/-- What is built from a result may rely on its properties. -/
theorem bind {x : Fresh β} {f : β → Fresh γ} (hx : Yields x P)
    (hf : ∀ b, P b → Yields (f b) Q) : Yields (x >>= f) Q :=
  fun n => hf _ (hx n) (x.run n).2

/-- Properties of results may be weakened. -/
theorem mono {x : Fresh β} {P' : β → Prop} (hx : Yields x P) (h : ∀ b, P b → P' b) :
    Yields x P' :=
  fun n => h _ (hx n)

omit [Scalar α] in
/-- A new node has its shape, whatever its number. -/
theorem new {shape : Shape α (Formula α)} {P : Formula α → Prop}
    (h : ∀ id, P (.node id shape)) : Yields (Formula.new shape) P :=
  fun n => h n

/-- Of what does not count nothing is asked. -/
theorem any (x : Fresh β) : Yields x fun _ => True := fun _ => trivial

/-- One after the other, the computations for the members of a list give answers in the relation
their own ones are in. -/
theorem mapM {δ : Type} {f : δ → Fresh γ} {R : δ → γ → Prop} {ds : List δ}
    (hf : ∀ d ∈ ds, Yields (f d) (R d)) : Yields (ds.mapM f) (List.Forall₂ R ds) := by
  induction ds with
  | nil =>
      rw [List.mapM_nil]
      exact .pure .nil
  | cons d ds ih =>
      rw [List.mapM_cons]
      refine .bind (hf d List.mem_cons_self) fun c hc => ?_
      refine .bind (ih fun d' hd' => hf d' (List.mem_cons_of_mem d hd')) fun cs hcs => ?_
      exact .pure (.cons hc hcs)

end Yields

/-- Begun anywhere from the number `n₀` on, the computation draws no number before it, and
its answer satisfies `P`. -/
def YieldsFrom (n₀ : NodeId) (x : Fresh β) (P : β → Prop) : Prop :=
  ∀ n, n₀ ≤ n → n₀ ≤ (x.run n).2 ∧ P (x.run n).1

namespace YieldsFrom

variable {n₀ : NodeId} {P : β → Prop} {Q : γ → Prop}

/-- Handing back a result draws no number. -/
theorem pure {b : β} (h : P b) : YieldsFrom n₀ (Pure.pure b) P := fun _ hn => ⟨hn, h⟩

/-- Numbers only grow from one construction to the next. -/
theorem bind {x : Fresh β} {f : β → Fresh γ} (hx : YieldsFrom n₀ x P)
    (hf : ∀ b, P b → YieldsFrom n₀ (f b) Q) : YieldsFrom n₀ (x >>= f) Q :=
  fun n hn => hf _ (hx n hn).2 _ (hx n hn).1

/-- Properties of results may be weakened here too. -/
theorem mono {x : Fresh β} {P' : β → Prop} (hx : YieldsFrom n₀ x P) (h : ∀ b, P b → P' b) :
    YieldsFrom n₀ x P' :=
  fun n hn => ⟨(hx n hn).1, h _ (hx n hn).2⟩

omit [Scalar α] in
/-- A new node has a number from the given one on. -/
theorem new {shape : Shape α (Formula α)} {P : Formula α → Prop}
    (h : ∀ id, n₀ ≤ id → P (.node id shape)) : YieldsFrom n₀ (Formula.new shape) P :=
  fun n hn => ⟨Nat.le_succ_of_le hn, h n hn⟩

/-- Every number is from zero on. -/
theorem yields {x : Fresh β} (hx : YieldsFrom 0 x P) : Yields x P :=
  fun n => (hx n (Nat.zero_le n)).2

end YieldsFrom

/-- Begun with the ledger `L`, the computation can be accounted for so that its
answer satisfies `P`. -/
def Builds (x : Fresh β) (L : Ledger α) (P : Ledger α → β → Prop) : Prop :=
  ∃ L', L.Extends L' ∧ L'.next = (x.run L.next).2 ∧ P L' (x.run L.next).1

namespace Builds

variable {P : Ledger α → β → Prop} {Q : Ledger α → γ → Prop}

/-- Handing back a result enters nothing. -/
theorem pure {b : β} (h : P L b) : Builds (Pure.pure b) L P :=
  ⟨L, .refl L, rfl, h⟩

/-- A construction goes on with the ledger that the one before has left. -/
theorem bind {x : Fresh β} {f : β → Fresh γ} (hx : Builds x L P)
    (hf : ∀ L' b, L.Extends L' → P L' b → Builds (f b) L' Q) : Builds (x >>= f) L Q := by
  obtain ⟨L', hL', hnext, hb⟩ := hx
  obtain ⟨L'', hL'', hnext', hc⟩ := hf L' _ hL' hb
  rw [hnext] at hnext' hc
  exact ⟨L'', hL'.trans hL'', hnext', hc⟩

/-- Properties that follow in every extension may be put for others. -/
theorem mono {x : Fresh β} {P' : Ledger α → β → Prop} (hx : Builds x L P)
    (h : ∀ L' b, L.Extends L' → P L' b → P' L' b) : Builds x L P' := by
  obtain ⟨L', hL', hnext, hb⟩ := hx
  exact ⟨L', hL', hnext, h L' _ hL' hb⟩

/-- What all answers satisfy holds of the accounted answer as well. -/
theorem and_yields {x : Fresh β} {R : β → Prop} (hx : Builds x L P) (hR : Yields x R) :
    Builds x L fun L' b => P L' b ∧ R b := by
  obtain ⟨L', hL', hnext, hb⟩ := hx
  exact ⟨L', hL', hnext, hb, hR _⟩

/-- A construction also answers with whatever holds from a number on that has been drawn. -/
theorem and_yieldsFrom {n₀ : NodeId} {x : Fresh β} {R : β → Prop} (hx : Builds x L P)
    (hn : n₀ ≤ L.next) (hR : YieldsFrom n₀ x R) : Builds x L fun L' b => P L' b ∧ R b := by
  obtain ⟨L', hL', hnext, hb⟩ := hx
  exact ⟨L', hL', hnext, hb, (hR _ hn).2⟩

/-- What holds of the answer, however it is accounted for, holds of the accounted answer as
well. -/
theorem and_holds {x : Fresh β} {R : β → Prop} (hx : Builds x L P) (hR : Builds x L fun _ => R) :
    Builds x L fun L' b => P L' b ∧ R b := by
  obtain ⟨L', hL', hnext, hb⟩ := hx
  obtain ⟨_, _, _, hr⟩ := hR
  exact ⟨L', hL', hnext, hb, hr⟩

/-- A number of one's own is left out of the ledger. -/
theorem identity {P : Ledger α → NodeId → Prop} (h : P L.skip L.next) :
    Builds Fresh.identity L P :=
  ⟨L.skip, L.extends_skip, rfl, h⟩

/-- A new node is known, if all it refers to is. -/
theorem new {shape : Shape α (Formula α)} (h : ∀ r ∈ shape.refs, r.KnownTo L) :
    Builds (Formula.new shape) L fun L' e => e.KnownTo L' :=
  ⟨L.add shape, L.extends_add shape, rfl, Formula.add_known h⟩

end Builds

/-! ## Computations that build and keep something -/

/-- Once true, it stays true when the ledger is extended. -/
def Lasting {σ : Type} (I : Ledger α → σ → Prop) : Prop :=
  ∀ ⦃L L' : Ledger α⦄ ⦃s : σ⦄, L.Extends L' → I L s → I L' s

/-- Building for each element of a list builds a list, if what was built stays as it was. -/
theorem Builds.mapM {δ : Type} {f : δ → Fresh γ} {P : Ledger α → γ → Prop} {ds : List δ}
    (hP : Lasting P) (hf : ∀ d ∈ ds, ∀ L', L.Extends L' → Builds (f d) L' P) :
    Builds (ds.mapM f) L fun L' cs => ∀ c ∈ cs, P L' c := by
  induction ds generalizing L with
  | nil =>
      rw [List.mapM_nil]
      exact .pure (by simp)
  | cons d ds ih =>
      rw [List.mapM_cons]
      refine .bind (hf d List.mem_cons_self L (.refl L)) fun L₁ c hL₁ hc => ?_
      refine .bind (ih fun d' hd' L' hL' =>
        hf d' (List.mem_cons_of_mem d hd') L' (hL₁.trans hL')) fun L₂ cs hL₂ hcs => ?_
      exact .pure (List.forall_mem_cons.mpr ⟨hP hL₂ hc, hcs⟩)

/-- From a state with the invariant on, the computation can be accounted for so
that the state has it again and the answer satisfies `P`. -/
def Carries {σ : Type} (I : Ledger α → σ → Prop) (x : StateT σ Fresh β) (L : Ledger α)
    (P : Ledger α → β → Prop) : Prop :=
  ∀ s, I L s → Builds (x.run s) L fun L' done => I L' done.2 ∧ P L' done.1

namespace Carries

variable {σ : Type} {I : Ledger α → σ → Prop} {P : Ledger α → β → Prop}
  {Q : Ledger α → γ → Prop}

/-- Handing back a result keeps the invariant of the state. -/
theorem pure {b : β} (h : P L b) : Carries I (Pure.pure b) L P :=
  fun _ hs => Builds.pure ⟨hs, h⟩

/-- The invariant is carried from one step to the next. -/
theorem bind {x : StateT σ Fresh β} {f : β → StateT σ Fresh γ} (hx : Carries I x L P)
    (hf : ∀ L' b, L.Extends L' → P L' b → Carries I (f b) L' Q) : Carries I (x >>= f) L Q := by
  intro s hs
  rw [StateT.run_bind]
  refine (hx s hs).bind ?_
  intro L' answer hL hboth
  obtain ⟨b, s'⟩ := answer
  obtain ⟨hs', hb⟩ := hboth
  exact hf L' b hL hb s' hs'

/-- Properties may be weakened on the way. -/
theorem mono {x : StateT σ Fresh β} {P' : Ledger α → β → Prop} (hx : Carries I x L P)
    (h : ∀ L' b, L.Extends L' → P L' b → P' L' b) : Carries I x L P' := by
  intro s hs
  exact (hx s hs).mono fun L' done hL hdone => ⟨hdone.1, h L' done.1 hL hdone.2⟩

/-- What is built without regard to the state. -/
theorem lift (hI : Lasting I) {x : Fresh β} (hx : Builds x L P) :
    Carries I (liftM x) L P := by
  intro s hs
  have hrun : (liftM x : StateT σ Fresh β).run s = x >>= fun b => Pure.pure (b, s) := rfl
  rw [hrun]
  refine hx.bind ?_
  intro L' b hL hb
  exact .pure ⟨hI hL hs, hb⟩

/-- A look at the state, and a change of it, that keep the invariant. -/
theorem of_modifyGet {f : σ → β × σ} (hf : ∀ s, I L s → I L (f s).2 ∧ P L (f s).1) :
    Carries I (modifyGet f) L P :=
  fun s hs => Builds.pure (hf s hs)

/-- A change of the state that keeps the invariant. -/
theorem of_modify {f : σ → σ} {P : Ledger α → PUnit → Prop} (hf : ∀ s, I L s → I L (f s))
    (h : P L ⟨⟩) : Carries I (modify f) L P :=
  fun s hs => Builds.pure ⟨hf s hs, h⟩

/-- One after the other, the computations for the members of a list give answers
in the relation their own ones are in. -/
theorem mapM {δ : Type} {f : δ → StateT σ Fresh γ} {K : Ledger α → δ → Prop}
    {R : δ → Ledger α → γ → Prop} {ds : List δ} (hK : Lasting K) (hR : ∀ d, Lasting (R d))
    (hf : ∀ d ∈ ds, ∀ L, K L d → Carries I (f d) L (R d)) (hds : ∀ d ∈ ds, K L d) :
    Carries I (ds.mapM f) L fun L' cs => List.Forall₂ (fun d c => R d L' c) ds cs := by
  induction ds generalizing L with
  | nil =>
      rw [List.mapM_nil]
      exact .pure .nil
  | cons d ds ih =>
      rw [List.mapM_cons]
      refine .bind (hf d List.mem_cons_self L (hds d List.mem_cons_self)) ?_
      intro L' c hL hc
      have htail : ∀ d' ∈ ds, K L' d' := fun d' h =>
        hK hL (hds d' (List.mem_cons_of_mem d h))
      refine .bind (ih (fun d' h => hf d' (List.mem_cons_of_mem d h)) htail) ?_
      intro L'' cs hL' hcs
      exact .pure (.cons (hR d hL' hc) hcs)

/-- The invariant says what may be found in the state. -/
theorem of_get {P : Ledger α → σ → Prop} (h : ∀ s, I L s → P L s) :
    Carries I get L P :=
  fun s hs => Builds.pure ⟨hs, h s hs⟩

end Carries

end FormulaGraph
