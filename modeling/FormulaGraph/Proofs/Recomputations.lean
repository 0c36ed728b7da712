import Mathlib.Data.Set.Insert
import FormulaGraph.ComplexFormula
import FormulaGraph.FormulaMatrix
import FormulaGraph.Proofs.Generations
import FormulaGraph.Proofs.WholeNumbers

/-!
# How often a pass computes a node

Plain evaluation goes down the tree and computes a node anew wherever it comes across
it.  It does not go everywhere: a zero dividend leaves the divisor alone, a product stops
at its first zero, a conditional takes one branch (`Shape.consulted`).  The nodes it comes
to are those it **demands** (`Formula.Demands`), and generation zero, which trusts no slot,
computes these and no others (`Formula.evaluateIn_zero_computes_iff`).

The main result is that a pass in a fresh generation computes each of them exactly once,
whatever formulas are evaluated in it, in whatever order, and however often their parents
refer to them (`Formula.evaluateAllIn_recomputations`).  Points, complex numbers and matrices
are evaluated in one pass over their components, and so are cases of it
(`FormulaMatrix.evaluate_computedOnce`).

While slots fill one by one, the state of a pass is described by two facts.  A slot that
holds the generation has everything its node demands in slots that hold it too
(`Store.Complete`): answering from it skips only what was computed already.  And what was
done so far is a set of nodes: those of them not held before were computed once, and
nothing else was touched (`Store.Counted`).  Sets of one computation after another are
joined, so nothing is counted twice; a node is outside the set of its own children,
because no node is within its own child.
-/

namespace FormulaGraph

namespace Shape

variable {α ε : Type}

/-- Whether a node of this shape is a leaf, for which no value is ever stored. -/
def isLeaf : Shape α ε → Bool
  | const _ | var _ => true
  | _ => false

end Shape

/-! ## What plain evaluation demands -/

section Demand

variable {α : Type} [Scalar α]

/-- The factors a product consults: up to the first that makes it zero. -/
def Formula.factorsUntilZero (ρ : Valuation α) (acc : α) : List (Formula α) → List (Formula α)
  | [] => []
  | e :: es =>
    let next := acc * e.value ρ
    if next == 0 then [e] else e :: factorsUntilZero ρ next es

/-- The children whose values are consulted for the value of a node of this shape. -/
def Shape.consulted (ρ : Valuation α) : Shape α (Formula α) → List (Formula α)
  | binary op a b => if op == .divide && a.value ρ == 0 then [a] else [a, b]
  | assoc .multiply args => Formula.factorsUntilZero ρ 1 args
  | conditional op c a b => if op.selectsFirst (c.value ρ) then [c, a] else [c, b]
  | shape => shape.children

namespace Formula

variable {ρ : Valuation α}

theorem mem_of_mem_factorsUntilZero {c : Formula α} {acc : α} {es : List (Formula α)}
    (h : c ∈ factorsUntilZero ρ acc es) : c ∈ es := by
  induction es generalizing acc with
  | nil => exact h
  | cons e es ih =>
      rw [factorsUntilZero] at h
      split at h
      · rw [List.mem_singleton.mp h]
        exact List.mem_cons_self
      · rcases List.mem_cons.mp h with rfl | h
        · exact List.mem_cons_self
        · exact List.mem_cons_of_mem e (ih h)

/-- `e.Demands ρ d`: the plain evaluation of `e` comes to `d`. -/
inductive Demands (ρ : Valuation α) : Formula α → Formula α → Prop
  | refl (e : Formula α) : Demands ρ e e
  | child {e c d : Formula α} (hc : c ∈ e.shape.consulted ρ) (hd : Demands ρ c d) : Demands ρ e d

/-- The nodes, leaves excepted, that the plain evaluation of a formula comes to. -/
def demandedIds (ρ : Valuation α) (e : Formula α) : Set NodeId :=
  {id | ∃ d, e.Demands ρ d ∧ d.shape.isLeaf = false ∧ d.id = id}

/-- The numbers of the nodes demanded by several formulas. -/
def demandedIdsOf (ρ : Valuation α) (es : List (Formula α)) : Set NodeId :=
  {id | ∃ e ∈ es, id ∈ e.demandedIds ρ}

end Formula

theorem Shape.mem_children_of_mem_consulted {ρ : Valuation α} {shape : Shape α (Formula α)}
    {c : Formula α} (h : c ∈ shape.consulted ρ) : c ∈ shape.children := by
  cases shape with
  | binary op a b =>
      simp only [consulted] at h
      split at h <;> simp_all [children]
  | assoc op args =>
      cases op with
      | multiply => exact Formula.mem_of_mem_factorsUntilZero h
      | add => exact h
      | hypot => exact h
  | conditional op c a b =>
      simp only [consulted] at h
      split at h <;> simp only [List.mem_cons, List.not_mem_nil, or_false] at h <;>
        rcases h with rfl | rfl <;> simp [children]
  | _ => exact h

namespace Formula

variable {ρ : Valuation α}

theorem Demands.within {d e : Formula α} (h : e.Demands ρ d) : d.Within e := by
  induction h with
  | refl e => exact .refl e
  | child hc _ ih => exact .child (Shape.mem_children_of_mem_consulted hc) ih

@[simp] theorem demandedIdsOf_nil : demandedIdsOf ρ ([] : List (Formula α)) = ∅ := by
  simp [demandedIdsOf]

@[simp] theorem demandedIdsOf_cons (e : Formula α) (es : List (Formula α)) :
    demandedIdsOf ρ (e :: es) = e.demandedIds ρ ∪ demandedIdsOf ρ es := by
  ext id
  simp [demandedIdsOf]

/-- The order of the formulas does not matter, nor how often one is listed. -/
theorem demandedIdsOf_congr {es fs : List (Formula α)} (h : ∀ e, e ∈ es ↔ e ∈ fs) :
    demandedIdsOf ρ es = demandedIdsOf ρ fs := by
  simp only [demandedIdsOf, h]

/-- A leaf demands nothing that is stored. -/
theorem demandedIds_leaf {id : NodeId} {shape : Shape α (Formula α)}
    (h : shape.isLeaf = true) : (node id shape).demandedIds ρ = ∅ := by
  ext j
  refine ⟨?_, fun hj => absurd hj (Set.notMem_empty j)⟩
  rintro ⟨d, hd, hleaf, -⟩
  cases hd with
  | refl => exact absurd (h.symm.trans hleaf) (by simp)
  | child hc _ =>
      have hchild := Shape.mem_children_of_mem_consulted hc
      cases shape <;> simp_all [Shape.isLeaf, Shape.children]

/-- Any other node demands itself, and what the children demand that it consults. -/
theorem demandedIds_node {id : NodeId} {shape : Shape α (Formula α)}
    (h : shape.isLeaf = false) :
    (node id shape).demandedIds ρ = insert id (demandedIdsOf ρ (shape.consulted ρ)) := by
  ext j
  constructor
  · rintro ⟨d, hd, hleaf, rfl⟩
    cases hd with
    | refl => exact Set.mem_insert id _
    | child hc hd => exact Set.mem_insert_of_mem id ⟨_, hc, d, hd, hleaf, rfl⟩
  · intro hj
    rcases hj with rfl | ⟨c, hc, d, hd, hleaf, rfl⟩
    · exact ⟨_, .refl _, h, rfl⟩
    · exact ⟨d, .child hc hd, hleaf, rfl⟩

end Formula

end Demand

/-! ## Evaluation of a node, and the nodes it comes to -/

/-- A relation of computations to their answers and to sets of nodes, in which the sets of
one computation after another are joined. -/
structure Tallying {α : Type} (K : (β : Type) → Evaluation α β → β → Set NodeId → Prop) :
    Prop where
  pure : ∀ {β : Type} (b : β), K β (Pure.pure b) b ∅
  bind : ∀ {β γ : Type} {x : Evaluation α β} {f : β → Evaluation α γ} {b : β} {c : γ}
    {M N : Set NodeId}, K β x b M → K γ (f b) c N → K γ (x >>= f) c (M ∪ N)

namespace Tallying

variable {α : Type} [Scalar α] {K : (β : Type) → Evaluation α β → β → Set NodeId → Prop}
  {g : Generation} {ρ : Valuation α}

open Formula (evaluateIn evaluateAllIn productIn demandedIds demandedIdsOf factorsUntilZero)

omit [Scalar α] in
/-- Working on the answer comes to no further nodes. -/
theorem map (hK : Tallying K) {β γ : Type} {x : Evaluation α β} {b : β} {N : Set NodeId}
    (h : K β x b N) (f : β → γ) : K γ (do return f (← x)) (f b) N := by
  have hbind := hK.bind (f := fun b => Pure.pure (f b)) h (hK.pure (f b))
  rwa [Set.union_empty] at hbind

theorem evaluateAllIn (hK : Tallying K) {es : List (Formula α)}
    (h : ∀ e ∈ es, K α (evaluateIn g e) (e.value ρ) (e.demandedIds ρ)) :
    K _ (evaluateAllIn g es) (Formula.values ρ es) (demandedIdsOf ρ es) := by
  induction es with
  | nil =>
      rw [Formula.demandedIdsOf_nil]
      exact hK.pure []
  | cons e es ih =>
      have he := h e List.mem_cons_self
      have hes := ih fun e' he' => h e' (List.mem_cons_of_mem e he')
      rw [Formula.demandedIdsOf_cons]
      exact hK.bind he (hK.map hes _)

theorem productIn (hK : Tallying K) {es : List (Formula α)}
    (h : ∀ e ∈ es, K α (evaluateIn g e) (e.value ρ) (e.demandedIds ρ)) (acc : α) :
    K _ (productIn g acc es) (Scalar.productUntilZero acc (Formula.values ρ es))
      (demandedIdsOf ρ (factorsUntilZero ρ acc es)) := by
  induction es generalizing acc with
  | nil =>
      rw [factorsUntilZero, Formula.demandedIdsOf_nil]
      exact hK.pure acc
  | cons e es ih =>
      have he := h e List.mem_cons_self
      simp only [Formula.values, Scalar.productUntilZero, factorsUntilZero]
      by_cases hzero : (acc * e.value ρ == 0) = true
      · simp only [hzero, if_true, Formula.demandedIdsOf_cons, Formula.demandedIdsOf_nil]
        refine hK.bind he ?_
        simp only [hzero, if_true]
        exact hK.pure _
      · simp only [hzero, if_false, Bool.false_eq_true, Formula.demandedIdsOf_cons]
        refine hK.bind he ?_
        simp only [hzero, if_false, Bool.false_eq_true]
        exact ih (fun e' he' => h e' (List.mem_cons_of_mem e he')) _

/-- Evaluation comes to the divisor only if the dividend is not zero. -/
theorem binaryIn (hK : Tallying K) {op : BinaryOp} {a b : Formula α} {id : NodeId}
    (ha : K α (evaluateIn g a) (a.value ρ) (a.demandedIds ρ))
    (hb : K α (evaluateIn g b) (b.value ρ) (b.demandedIds ρ)) :
    K α (do
        let left ← evaluateIn g a
        if op == .divide && left == 0 then return 0
        else return op.apply left (← evaluateIn g b))
      (Formula.value ρ (.node id (.binary op a b)))
      (demandedIdsOf ρ (Shape.consulted ρ (.binary op a b))) := by
  by_cases hskip : (op == .divide && a.value ρ == 0) = true
  · rw [Formula.value_of_skipped hskip]
    simp only [Shape.consulted, hskip, if_true, Formula.demandedIdsOf_cons,
      Formula.demandedIdsOf_nil]
    refine hK.bind ha ?_
    simp only [hskip, if_true]
    exact hK.pure 0
  · simp only [Shape.consulted, hskip, if_false, Bool.false_eq_true, Formula.demandedIdsOf_cons,
      Formula.demandedIdsOf_nil, Set.union_empty]
    refine hK.bind ha ?_
    simp only [hskip, if_false, Bool.false_eq_true]
    exact hK.map hb _

/-- Evaluation comes to one of the two alternatives. -/
theorem conditionalIn (hK : Tallying K) {op : ConditionalOp} {c a b : Formula α} {id : NodeId}
    (hc : K α (evaluateIn g c) (c.value ρ) (c.demandedIds ρ))
    (ha : K α (evaluateIn g a) (a.value ρ) (a.demandedIds ρ))
    (hb : K α (evaluateIn g b) (b.value ρ) (b.demandedIds ρ)) :
    K α (do if op.selectsFirst (← evaluateIn g c) then evaluateIn g a else evaluateIn g b)
      (Formula.value ρ (.node id (.conditional op c a b)))
      (demandedIdsOf ρ (Shape.consulted ρ (.conditional op c a b))) := by
  simp only [Formula.value, Shape.consulted]
  by_cases hfirst : op.selectsFirst (c.value ρ) = true
  · simp only [hfirst, if_true, Formula.demandedIdsOf_cons, Formula.demandedIdsOf_nil,
      Set.union_empty]
    refine hK.bind hc ?_
    simp only [hfirst, if_true]
    exact ha
  · simp only [hfirst, if_false, Bool.false_eq_true, Formula.demandedIdsOf_cons,
      Formula.demandedIdsOf_nil, Set.union_empty]
    refine hK.bind hc ?_
    simp only [hfirst, if_false, Bool.false_eq_true]
    exact hb

/-- If the children stand in the relation to their values and to what they demand, so
does the node, unless it is a solver; provided that reading a variable and going through
a slot do. -/
theorem evaluateIn (hK : Tallying K) {id : NodeId} {shape : Shape α (Formula α)}
    (notSolver : ∀ s, shape ≠ .solver s)
    (read : ∀ name, shape = .var name → K α (Evaluation.read id) (ρ id) ∅)
    (throughSlot : shape.isLeaf = false → ∀ x,
      K α x (Formula.value ρ (.node id shape)) (demandedIdsOf ρ (shape.consulted ρ)) →
      K α (Formula.throughSlot id g x) (Formula.value ρ (.node id shape))
        (insert id (demandedIdsOf ρ (shape.consulted ρ))))
    (h : ∀ c ∈ shape.children, K α (evaluateIn g c) (c.value ρ) (c.demandedIds ρ)) :
    K α (evaluateIn g (.node id shape)) (Formula.value ρ (.node id shape))
      (demandedIds ρ (.node id shape)) := by
  cases shape with
  | const v =>
      rw [Formula.demandedIds_leaf rfl]
      exact hK.pure v
  | var name =>
      rw [Formula.demandedIds_leaf rfl]
      exact read name rfl
  | unary op a =>
      have ha := h a (by simp [Shape.children])
      rw [Formula.demandedIds_node rfl, Formula.evaluateIn]
      refine throughSlot rfl _ ?_
      simp only [Shape.consulted, Shape.children, Formula.demandedIdsOf_cons,
        Formula.demandedIdsOf_nil, Set.union_empty]
      exact hK.map ha _
  | binary op a b =>
      have ha := h a (by simp [Shape.children])
      have hb := h b (by simp [Shape.children])
      rw [Formula.demandedIds_node rfl, Formula.evaluateIn]
      exact throughSlot rfl _ (hK.binaryIn ha hb)
  | assoc op args =>
      rw [Formula.demandedIds_node rfl]
      have hsum : K α (do return op.apply (← Formula.evaluateAllIn g args))
          (op.apply (Formula.values ρ args)) (demandedIdsOf ρ args) :=
        hK.map (hK.evaluateAllIn h) _
      cases op with
      | multiply => exact throughSlot rfl _ (hK.productIn h 1)
      | add => exact throughSlot rfl _ hsum
      | hypot => exact throughSlot rfl _ hsum
  | conditional op c a b =>
      have hc := h c (by simp [Shape.children])
      have ha := h a (by simp [Shape.children])
      have hb := h b (by simp [Shape.children])
      rw [Formula.demandedIds_node rfl, Formula.evaluateIn]
      exact throughSlot rfl _ (hK.conditionalIn hc ha hb)
  | tabulated mark t a =>
      have ha := h a (by simp [Shape.children])
      rw [Formula.demandedIds_node rfl, Formula.evaluateIn]
      refine throughSlot rfl _ ?_
      simp only [Shape.consulted, Shape.children, Formula.demandedIdsOf_cons,
        Formula.demandedIdsOf_nil, Set.union_empty]
      exact hK.map ha _
  | solver s => exact absurd rfl (notSolver s)

end Tallying

/-! ## The pass that trusts no slot -/

variable {α : Type} [Scalar α]

/-- At the values `ρ` the computation answers `b` and computes the nodes of `N`, perhaps
several times, and no others. -/
def Visits (ρ : Valuation α) {β : Type} (x : Evaluation α β) (b : β) (N : Set NodeId) : Prop :=
  ∀ s : Store α, s.read = ρ → (x.run s).1 = b ∧ (x.run s).2.read = ρ ∧
    ∀ id, (s.slot id).recomputations ≤ ((x.run s).2.slot id).recomputations ∧
      ((s.slot id).recomputations < ((x.run s).2.slot id).recomputations ↔ id ∈ N)

namespace Visits

variable {ρ : Valuation α}

theorem tallying : Tallying (α := α) (fun _ => Visits ρ) where
  pure b := fun s hρ =>
    ⟨rfl, hρ, fun id => ⟨Nat.le_refl _, fun h => absurd h (Nat.lt_irrefl _),
      fun h => absurd h (Set.notMem_empty id)⟩⟩
  bind {β γ x f b c M N} hx hf := by
    intro s hρ
    obtain ⟨hb, hρ', hcount⟩ := hx s hρ
    obtain ⟨hc, hρ'', hcount'⟩ := hf (x.run s).2 hρ'
    rw [← hb] at hc hρ'' hcount'
    refine ⟨hc, hρ'', ?_⟩
    intro id
    obtain ⟨hle, hM⟩ := hcount id
    obtain ⟨hle', hN⟩ := hcount' id
    refine ⟨Nat.le_trans hle hle', ?_⟩
    rw [Set.mem_union, ← hM, ← hN]
    show _ < (((f (x.run s).1).run (x.run s).2).2.slot id).recomputations ↔ _
    omega

theorem read (v : NodeId) : Visits ρ (Evaluation.read v) (ρ v) ∅ :=
  fun _ hρ =>
    ⟨congrFun hρ v, hρ, fun id => ⟨Nat.le_refl _, fun h => absurd h (Nat.lt_irrefl _),
      fun h => absurd h (Set.notMem_empty id)⟩⟩

theorem throughSlot {x : Evaluation α α} {b : α} {N : Set NodeId} (hx : Visits ρ x b N)
    (id : NodeId) : Visits ρ (Formula.throughSlot id 0 x) b (insert id N) := by
  intro s hρ
  obtain ⟨hb, hρ', hcount⟩ := hx s hρ
  have hnever : ¬ (s.slot id).holds 0 = true := by simp [Slot.holds]
  rw [throughSlot_run, if_neg hnever]
  refine ⟨hb, hρ', ?_⟩
  intro j
  obtain ⟨hle, hN⟩ := hcount j
  rw [Store.slot_fill, Set.mem_insert_iff, ← hN]
  by_cases hj : id = j
  · subst hj
    simp only [if_true, Slot.fill, true_or, iff_true]
    omega
  · simp only [if_neg hj, Ne.symm hj, false_or, and_true]
    exact hle

end Visits

/-- **Plain evaluation computes what is demanded.**  In generation zero, which answers from
no slot, evaluation computes the demanded nodes and no others. -/
theorem Formula.evaluateIn_zero_computes_iff {e : Formula α} (hfree : e.SolverFree)
    (s : Store α) (id : NodeId) :
    (s.slot id).recomputations < (((e.evaluateIn 0).run s).2.slot id).recomputations ↔
      id ∈ e.demandedIds s.read := by
  have hvisits : Visits s.read (e.evaluateIn 0) (e.value s.read) (e.demandedIds s.read) := by
    induction hfree with
    | node notSolver _ ih =>
        exact Visits.tallying.evaluateIn notSolver (fun _ _ => .read _)
          (fun _ _ hx => hx.throughSlot _) ih
  exact ((hvisits s rfl).2.2 id).2

/-! ## The slots of a pass under way -/

namespace Store

variable {D : Formula.Directory α} {g : Generation} {s t u : Store α} {M N : Set NodeId}

/-- Whatever is demanded by a node whose slot holds the generation is held as well. -/
def Complete (D : Formula.Directory α) (g : Generation) (s : Store α) : Prop :=
  ∀ id, (s.slot id).holds g = true →
    ∀ j ∈ (D id).demandedIds s.read, (s.slot j).holds g = true

/-- From `s` to `t` the nodes of `N` that were not held were computed once each, and
nothing else was touched. -/
structure Counted (g : Generation) (N : Set NodeId) (s t : Store α) : Prop where
  once : ∀ id ∈ N, (s.slot id).holds g = false →
    (t.slot id).holds g = true ∧ (t.slot id).recomputations = (s.slot id).recomputations + 1
  rest : ∀ id, id ∉ N ∨ (s.slot id).holds g = true → t.slot id = s.slot id

namespace Counted

theorem of_held (h : ∀ id ∈ N, (s.slot id).holds g = true) : s.Counted g N s where
  once id hid hheld := by
    rw [h id hid] at hheld
    exact absurd hheld (by simp)
  rest _ _ := rfl

theorem refl (g : Generation) (s : Store α) : s.Counted g ∅ s :=
  of_held fun id hid => absurd hid (Set.notMem_empty id)

/-- Nothing held is lost. -/
theorem held (h : s.Counted g N t) {id : NodeId} (hid : (s.slot id).holds g = true) :
    (t.slot id).holds g = true := by
  rw [h.rest id (.inr hid)]
  exact hid

/-- What was to be computed is held in the end. -/
theorem held_of_mem (h : s.Counted g N t) {id : NodeId} (hid : id ∈ N) :
    (t.slot id).holds g = true := by
  cases hs : (s.slot id).holds g with
  | true => exact h.held hs
  | false => exact (h.once id hid hs).1

theorem trans (hst : s.Counted g M t) (htu : t.Counted g N u) : s.Counted g (M ∪ N) u where
  once id hid hs := by
    by_cases hM : id ∈ M
    · have ht := hst.once id hM hs
      rw [htu.rest id (.inr ht.1)]
      exact ht
    · have hN : id ∈ N := hid.resolve_left hM
      have ht := hst.rest id (.inl hM)
      rw [← ht] at hs ⊢
      exact htu.once id hN hs
  rest id h := by
    rcases h with hMN | hs
    · rw [Set.mem_union, not_or] at hMN
      rw [htu.rest id (.inl hMN.2), hst.rest id (.inl hMN.1)]
    · rw [htu.rest id (.inr (hst.held hs)), hst.rest id (.inr hs)]

/-- A slot filled after what its value was computed from. -/
theorem fill (h : s.Counted g N t) (hg : g ≠ 0) {id : NodeId} (hid : id ∉ N)
    (hs : (s.slot id).holds g = false) (v : α) : s.Counted g (insert id N) (t.fill id g v) where
  once j hj hheld := by
    rw [slot_fill]
    by_cases heq : id = j
    · subst heq
      rw [if_pos rfl, h.rest id (.inl hid)]
      exact ⟨by simp [Slot.holds, Slot.fill, hg], rfl⟩
    · rw [if_neg heq]
      exact h.once j (hj.resolve_left (Ne.symm heq)) hheld
  rest j hj := by
    have hne : id ≠ j := by
      rintro rfl
      rcases hj with hj | hj
      · exact hj (Set.mem_insert id N)
      · exact Bool.noConfusion (hs.symm.trans hj)
    rw [slot_fill, if_neg hne]
    exact h.rest j (hj.imp_left fun hj hN => hj (Set.mem_insert_of_mem id hN))

end Counted

/-- Storing the value of a node whose demands are held keeps the slots complete. -/
theorem Complete.fill (hs : s.Complete D g) (hg : g ≠ 0) {id : NodeId}
    (hN : (D id).demandedIds s.read = insert id N) (hheld : ∀ j ∈ N, (s.slot j).holds g = true)
    (v : α) : (s.fill id g v).Complete D g := by
  have hkept : ∀ j, j = id ∨ (s.slot j).holds g = true →
      ((s.fill id g v).slot j).holds g = true := by
    intro j hj
    rw [slot_fill]
    by_cases heq : id = j
    · rw [if_pos heq]
      simp [Slot.holds, Slot.fill, hg]
    · rw [if_neg heq]
      exact hj.resolve_left (Ne.symm heq)
  intro i hi j hj
  rw [read_fill] at hj
  by_cases heq : id = i
  · subst heq
    rw [hN] at hj
    exact hkept j (hj.imp_right (hheld j))
  · rw [slot_fill, if_neg heq] at hi
    exact hkept j (.inr (hs i hi j hj))

/-- In a generation no slot holds, nothing is missing. -/
theorem complete_of_unheld (h : ∀ id, (s.slot id).holds g = false) : s.Complete D g := by
  intro id hid
  rw [h id] at hid
  exact Bool.noConfusion hid

/-- From `s` to `t` each node of `N` was computed once, and no other slot was touched. -/
structure ComputedOnce (N : Set NodeId) (s t : Store α) : Prop where
  once : ∀ id ∈ N, (t.slot id).recomputations = (s.slot id).recomputations + 1
  rest : ∀ id, id ∉ N → t.slot id = s.slot id

/-- Where no slot held the generation, nothing was spared. -/
theorem Counted.computedOnce (h : s.Counted g N t) (hs : ∀ id, (s.slot id).holds g = false) :
    s.ComputedOnce N t where
  once id hid := (h.once id hid (hs id)).2
  rest id hid := h.rest id (.inl hid)

end Store

/-! ## One computation for each node -/

/-- In the generation `g` and at the values `ρ`, the computation answers `b` and computes
the nodes of `N` that were not, provided the slots that hold `g` can be trusted and are
complete; and they are afterwards. -/
structure Recomputes (D : Formula.Directory α) (g : Generation) (ρ : Valuation α) {β : Type}
    (x : Evaluation α β) (b : β) (N : Set NodeId) : Prop where
  computes : Computes D g ρ x b
  counted : ∀ s : Store α, s.read = ρ → s.Agrees D g → s.Complete D g →
    (x.run s).2.Complete D g ∧ s.Counted g N (x.run s).2

namespace Recomputes

variable {D : Formula.Directory α} {g : Generation} {ρ : Valuation α}

theorem tallying : Tallying (α := α) (fun _ => Recomputes D g ρ) where
  pure b := ⟨Computes.answering.pure b, fun s _ _ hs => ⟨hs, .refl g s⟩⟩
  bind {β γ x f b c M N} hx hf := by
    refine ⟨Computes.answering.bind hx.computes hf.computes, ?_⟩
    intro s hρ hagrees hcomplete
    obtain ⟨hb, hρ', hagrees'⟩ := hx.computes s hρ hagrees
    obtain ⟨hcomplete', hM⟩ := hx.counted s hρ hagrees hcomplete
    obtain ⟨hcomplete'', hN⟩ := hf.counted _ hρ' hagrees' hcomplete'
    rw [← hb] at hcomplete'' hN
    exact ⟨hcomplete'', hM.trans hN⟩

theorem read (v : NodeId) : Recomputes D g ρ (Evaluation.read v) (ρ v) ∅ :=
  ⟨.read v, fun s _ _ hs => ⟨hs, .refl g s⟩⟩

/-- Through the slot of a node, its value is computed unless it was, after what it is
computed from. -/
theorem throughSlot (hg : g ≠ 0) {id : NodeId} {x : Evaluation α α} {N : Set NodeId}
    (hN : (D id).demandedIds ρ = insert id N) (hid : id ∉ N)
    (hx : Recomputes D g ρ x ((D id).value ρ) N) :
    Recomputes D g ρ (Formula.throughSlot id g x) ((D id).value ρ) (insert id N) := by
  refine ⟨hx.computes.throughSlot, ?_⟩
  intro s hρ hagrees hcomplete
  rw [throughSlot_run]
  cases hheld : (s.slot id).holds g with
  | true =>
      rw [if_pos rfl]
      refine ⟨hcomplete, .of_held ?_⟩
      intro j hj
      rw [← hN, ← hρ] at hj
      exact hcomplete id hheld j hj
  | false =>
      rw [if_neg Bool.false_ne_true]
      obtain ⟨-, hρ', -⟩ := hx.computes s hρ hagrees
      obtain ⟨hcomplete', hcounted⟩ := hx.counted s hρ hagrees hcomplete
      refine ⟨hcomplete'.fill hg ?_ (fun j hj => hcounted.held_of_mem hj) _,
        hcounted.fill hg hid hheld _⟩
      rw [hρ']
      exact hN

end Recomputes

namespace Formula

variable {D : Directory α} {g : Generation} {ρ : Valuation α}

/-- A node is not demanded by what it consults. -/
theorem ListedIn.not_mem_demandedIdsOf {id : NodeId} {shape : Shape α (Formula α)}
    (h : (Formula.node id shape).ListedIn D) : id ∉ demandedIdsOf ρ (shape.consulted ρ) := by
  rintro ⟨c, hc, d, hd, -, hid⟩
  have hchild : c ∈ (Formula.node id shape).children := Shape.mem_children_of_mem_consulted hc
  have hsame : d = Formula.node id shape := ((h.child hchild).within hd.within).eq_of_id_eq h hid
  exact not_within_child _ c hchild (hsame ▸ hd.within)

/-- Evaluating a solver-free formula computes each node it demands once, unless the pass
computed it already. -/
theorem evaluateIn_recomputes (hg : g ≠ 0) {e : Formula α} (hfree : e.SolverFree)
    (hlisted : e.ListedIn D) :
    Recomputes D g ρ (e.evaluateIn g) (e.value ρ) (e.demandedIds ρ) := by
  induction hfree with
  | @node id shape notSolver _ ih =>
      refine Recomputes.tallying.evaluateIn notSolver (fun _ _ => .read id) ?_
        fun c hc => ih c hc (hlisted.child hc)
      intro hleaf x hx
      have hentry : D id = node id shape := hlisted.entry
      rw [← hentry] at hx ⊢
      refine hx.throughSlot hg ?_ hlisted.not_mem_demandedIdsOf
      rw [hentry]
      exact demandedIds_node hleaf

end Formula

namespace Formula

variable {D : Directory α} {es : List (Formula α)}

/-- A fresh generation is held by no slot, so a pass in it starts from nothing and computes
whatever is demanded. -/
theorem evaluateAllIn_computedOnce (hes : ∀ e ∈ es, e.SolverFree ∧ e.ListedIn D) {s : Store α}
    (hs : s.Reachable) :
    s.ComputedOnce (demandedIdsOf s.read es)
      ((evaluateAllIn (s.generation + 1) es).run (Evaluation.nextGeneration.run s).2).2 := by
  let fresh := (Evaluation.nextGeneration.run s).2
  have hunheld : ∀ j, (fresh.slot j).holds (s.generation + 1) = false := fun j =>
    Bool.eq_false_iff.mpr (hs.issued.not_holds_next j)
  have hpass : Recomputes D (s.generation + 1) s.read (evaluateAllIn (s.generation + 1) es)
      (values s.read es) (demandedIdsOf s.read es) :=
    Recomputes.tallying.evaluateAllIn fun e he =>
      evaluateIn_recomputes (Nat.succ_ne_zero _) (hes e he).1 (hes e he).2
  obtain ⟨-, hcounted⟩ := hpass.counted fresh rfl (hs.issued.agrees_next D)
    (Store.complete_of_unheld hunheld)
  -- Issuing the generation has touched no slot.
  have honce := hcounted.computedOnce hunheld
  exact ⟨honce.once, honce.rest⟩

/-- **One computation for each node.**  When solver-free formulas are evaluated one after
another in a fresh generation, every node that plain evaluation of one of them demands is
computed once, however many of them and of their parts refer to it, and the slot of any
other node is left as it was. -/
theorem evaluateAllIn_recomputations (hes : ∀ e ∈ es, e.SolverFree ∧ e.ListedIn D)
    {s : Store α} (hs : s.Reachable) (id : NodeId) :
    let pass : Evaluation α (List α) := do evaluateAllIn (← Evaluation.nextGeneration) es
    let after := (pass.run s).2
    (id ∈ demandedIdsOf s.read es →
      (after.slot id).recomputations = (s.slot id).recomputations + 1) ∧
    (id ∉ demandedIdsOf s.read es → after.slot id = s.slot id) := by
  intro pass after
  have hpass : s.ComputedOnce (demandedIdsOf s.read es) after := evaluateAllIn_computedOnce hes hs
  exact ⟨hpass.once id, hpass.rest id⟩

/-- A square that two terms of a sum share is computed once in the pass of the sum; where
it is a divisor only, and the dividend is zero, it is not computed at all. -/
theorem shared_square_recomputations :
    let x : Formula Int := node 10 (.var "x")
    let a : Formula Int := node 11 (.unary .square x)
    let q : Formula Int := node 12 (.binary .divide x a)
    let e : Formula Int := node 13 (.assoc .add [a, a])
    let D : Directory Int := fun id =>
      if id = 10 then x else if id = 11 then a else if id = 12 then q else e
    let s := Store.empty.write 10 (0 : Int)
    let after (es : List (Formula Int)) :=
      ((do evaluateAllIn (← Evaluation.nextGeneration) es : Evaluation Int (List Int)).run s).2
    (∀ f ∈ [q, e, a], f.SolverFree ∧ f.ListedIn D) ∧ s.Reachable ∧
      ((after [q, e, a]).slot 11).recomputations = (s.slot 11).recomputations + 1 ∧
      (after [q, q]).slot 11 = s.slot 11 := by
  intro x a q e D s after
  have hx : x.SolverFree ∧ x.ListedIn D :=
    ⟨.node (by simp) (by simp [Shape.children]), .node rfl (by simp [Shape.refs, Shape.children])⟩
  have ha : a.SolverFree ∧ a.ListedIn D :=
    ⟨.node (by simp) (by simpa [Shape.children] using hx.1),
      .node rfl (by simpa [Shape.refs, Shape.children] using hx.2)⟩
  have hq : q.SolverFree ∧ q.ListedIn D :=
    ⟨.node (by simp) (by simpa [Shape.children] using ⟨hx.1, ha.1⟩),
      .node rfl (by simpa [Shape.refs, Shape.children] using ⟨hx.2, ha.2⟩)⟩
  have he : e.SolverFree ∧ e.ListedIn D :=
    ⟨.node (by simp) (by simpa [Shape.children] using ha.1),
      .node rfl (by simpa [Shape.refs, Shape.children] using ha.2)⟩
  have hes : ∀ f ∈ [q, e, a], f.SolverFree ∧ f.ListedIn D := by simp [hq, he, ha]
  have hqs : ∀ f ∈ [q, q], f.SolverFree ∧ f.ListedIn D := by simp [hq]
  have hs : s.Reachable := .write .empty 10 0
  have hdemanded : 11 ∈ demandedIdsOf s.read [q, e, a] :=
    ⟨a, by simp, a, .refl a, rfl, rfl⟩
  have hskipped : 11 ∉ demandedIdsOf s.read [q, q] := by
    have hzero : x.value s.read = 0 := by simp [x, s, value, Store.read, Store.write]
    have hconsulted : q.shape.consulted s.read = [x] := by
      simp [q, Shape.consulted, hzero]
    have hq : q.demandedIds s.read = insert 12 (demandedIdsOf s.read [x]) := by
      rw [← hconsulted]
      exact demandedIds_node rfl
    have hx : x.demandedIds s.read = ∅ := demandedIds_leaf rfl
    simp [hq, hx]
  exact ⟨hes, hs, (evaluateAllIn_recomputations hes hs 11).1 hdemanded,
    (evaluateAllIn_recomputations hqs hs 11).2 hskipped⟩

end Formula

/-! ## Points, complex numbers and matrices

Their components are evaluated one after another in one pass, so what the components share
is computed once for all of them. -/

section Components

variable {D : Formula.Directory α} {s : Store α}

open Formula (evaluateAllIn demandedIdsOf)

/-- **A point of the plane** has each node that its coordinates demand computed once. -/
theorem Point2.evaluateIn_computedOnce {p : Point2 (Formula α)}
    (hp : ∀ e ∈ p.toList, e.SolverFree ∧ e.ListedIn D) (hs : s.Reachable) :
    let pass : Evaluation α (Point2 α) := do p.evaluateIn (← Evaluation.nextGeneration)
    s.ComputedOnce (demandedIdsOf s.read p.toList) (pass.run s).2 :=
  Formula.evaluateAllIn_computedOnce hp hs

/-- **A point of space**, likewise. -/
theorem Point3.evaluateIn_computedOnce {p : Point3 (Formula α)}
    (hp : ∀ e ∈ p.toList, e.SolverFree ∧ e.ListedIn D) (hs : s.Reachable) :
    let pass : Evaluation α (Point3 α) := do p.evaluateIn (← Evaluation.nextGeneration)
    s.ComputedOnce (demandedIdsOf s.read p.toList) (pass.run s).2 :=
  Formula.evaluateAllIn_computedOnce hp hs

/-- **A complex number** has each node computed once that its real and imaginary part
demand. -/
theorem ComplexFormula.evaluate_computedOnce {z : ComplexFormula (Formula α)}
    (hz : ∀ e ∈ z.toList, e.SolverFree ∧ e.ListedIn D) (hs : s.Reachable) :
    s.ComputedOnce (demandedIdsOf s.read z.toList) (z.evaluate.run s).2 :=
  Formula.evaluateAllIn_computedOnce hz hs

/-- Two lists one after the other are evaluated as one. -/
theorem Formula.evaluateAllIn_append_store (g : Generation) (es fs : List (Formula α))
    (s : Store α) :
    ((evaluateAllIn g (es ++ fs)).run s).2 =
      ((evaluateAllIn g fs).run ((evaluateAllIn g es).run s).2).2 := by
  induction es generalizing s with
  | nil => rfl
  | cons e es ih => exact ih ((e.evaluateIn g).run s).2

namespace FormulaMatrix

/-- A row is evaluated as the list of its elements is. -/
theorem mapRowM_store (g : Generation) (row : List (Formula α)) (s : Store α) :
    ((mapRowM (Formula.evaluateIn g) row).run s).2 = ((evaluateAllIn g row).run s).2 := by
  induction row generalizing s with
  | nil => rfl
  | cons e es ih => exact ih ((e.evaluateIn g).run s).2

/-- Rows are evaluated as the list of all their elements is, row after row. -/
theorem mapRowsM_store (g : Generation) {n : Nat} (rows : List (List (Formula α)))
    (h : ∀ row ∈ rows, row.length = n) (s : Store α) :
    ((mapRowsM (Formula.evaluateIn g) rows h).run s).2 =
      ((evaluateAllIn g rows.flatten).run s).2 := by
  induction rows generalizing s with
  | nil => rfl
  | cons row rows ih =>
      have hrest := ih (fun r hr => h r (List.mem_cons_of_mem _ hr))
        ((mapRowM (Formula.evaluateIn g) row).run s).2
      rw [mapRowM_store] at hrest
      rw [List.flatten_cons, Formula.evaluateAllIn_append_store, ← hrest, ← mapRowM_store]
      rfl

/-- A matrix is evaluated column by column. -/
theorem evaluateIn_store (g : Generation) (m : FormulaMatrix (Formula α)) (s : Store α) :
    ((m.evaluateIn g).run s).2 = ((evaluateAllIn g m.columns.flatten).run s).2 :=
  mapRowsM_store g _ _ s

/-- The elements of a matrix, taken column by column, are those taken row by row. -/
theorem mem_flatten_columns {ε : Type} (m : FormulaMatrix ε) (e : ε) :
    e ∈ m.columns.flatten ↔ e ∈ m.rows.flatten := by
  have hrows : e ∈ m.rows.flatten ↔ ∃ i j, m.entry i j = e := by
    rw [List.mem_flatten]
    constructor
    · intro h
      obtain ⟨row, hrow, he⟩ := h
      obtain ⟨i, rfl⟩ := List.mem_iff_get.mp hrow
      obtain ⟨j, rfl⟩ := List.mem_iff_get.mp he
      exact ⟨i, j.cast (m.length_row hrow), rfl⟩
    · intro h
      obtain ⟨i, j, rfl⟩ := h
      exact ⟨m.rows.get i, List.get_mem _ _, List.get_mem _ _⟩
  rw [hrows, exists_comm]
  simp [columns, transpose, ofFn]

/-- **A matrix** has each node computed once that its elements demand, although it is gone
through column by column. -/
theorem evaluate_computedOnce {m : FormulaMatrix (Formula α)}
    (hm : ∀ e ∈ m.rows.flatten, e.SolverFree ∧ e.ListedIn D) (hs : s.Reachable) :
    s.ComputedOnce (demandedIdsOf s.read m.rows.flatten) (m.evaluate.run s).2 := by
  have hcolumns : ∀ e ∈ m.columns.flatten, e.SolverFree ∧ e.ListedIn D := fun e he =>
    hm e ((m.mem_flatten_columns e).mp he)
  have hpass := Formula.evaluateAllIn_computedOnce hcolumns hs
  rw [← evaluateIn_store, Formula.demandedIdsOf_congr m.mem_flatten_columns] at hpass
  exact hpass

end FormulaMatrix

end Components

end FormulaGraph
