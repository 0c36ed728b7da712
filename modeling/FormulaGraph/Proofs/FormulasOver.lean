import FormulaGraph.Proofs.Denotations
import FormulaGraph.Proofs.Frames

/-!
# Formulas over another

A formula may be computed from constants and from one other formula, by nodes that are all newer
than that one.  How it evaluates has nothing to do with scopes.  Whatever the other formula does
to the variables, it does once in a pass; the slots of the newer nodes are out of its reach
(`evaluateIn_staysBelow`), and from then on it answers the same (`evaluateIn_again`).  So if it
evaluates to `v`, then what is built over it evaluates to what the operations make of `v`
(`evaluateIn_over`).
-/

namespace FormulaGraph

open PartialReal

namespace Formula

section Value

variable {α : Type} [Scalar α]

mutual

/-- What operations on one or any number of arguments make of the value `v` of the node with the
number `i`.  Any other node is taken for that one. -/
def valueOver (i : NodeId) (v : α) : Formula α → α
  | node _ (.const x) => x
  | node id (.unary op a) => if id = i then v else op.apply (valueOver i v a)
  | node id (.assoc op args) => if id = i then v else op.apply (valuesOver i v args)
  | _ => v

/-- The values of several formulas over the fixed node. -/
def valuesOver (i : NodeId) (v : α) : List (Formula α) → List α
  | [] => []
  | e :: es => valueOver i v e :: valuesOver i v es

end

variable {i id : NodeId} {v : α}

/-- Several formulas are valued one by one. -/
theorem valuesOver_eq_map (es : List (Formula α)) : valuesOver i v es = es.map (valueOver i v) := by
  induction es with
  | nil => rfl
  | cons e es ih => rw [valuesOver, ih, List.map_cons]

/-- A unary node other than the fixed one has the value of its operation. -/
theorem valueOver_unary (h : id ≠ i) (op : UnaryOp) (a : Formula α) :
    valueOver i v (node id (.unary op a)) = op.apply (valueOver i v a) := by
  rw [valueOver, if_neg h]

/-- A sum, a product or a length has the value of its operation. -/
theorem valueOver_assoc (h : id ≠ i) (op : AssocOp) (args : List (Formula α)) :
    valueOver i v (node id (.assoc op args)) = op.apply (args.map (valueOver i v)) := by
  rw [valueOver, if_neg h, valuesOver_eq_map]

/-- Constants do not depend on the fixed node. -/
theorem valueOver_of_isConstant {e : Formula α} (h : e.isConstant = true) (ρ : Valuation α) :
    valueOver i v e = value ρ e := by
  obtain ⟨x, hx⟩ := eq_const_of_isConstant h
  rw [hx, valueOver, value]

end Value

/-- The formula is made of real constants and of `g`, which evaluates to `v`, by nodes that have
numbers from `n` on, and nothing in it is undefined. -/
inductive Over (g : Formula PartialReal) (n : NodeId) (v : PartialReal) :
    Formula PartialReal → Prop
  | const (id : NodeId) (x : ℝ) : Over g n v (node id (.const (real x)))
  | onto {id : NodeId} {op : UnaryOp} (hid : n ≤ id)
      (here : valueOver g.id v (node id (.unary op g)) ≠ undefined) :
      Over g n v (node id (.unary op g))
  | unary {id : NodeId} {op : UnaryOp} {a : Formula PartialReal} (hid : n ≤ id)
      (ha : Over g n v a) (here : valueOver g.id v (node id (.unary op a)) ≠ undefined) :
      Over g n v (node id (.unary op a))
  | assoc {id : NodeId} {op : AssocOp} {args : List (Formula PartialReal)} (hid : n ≤ id)
      (hargs : ∀ a ∈ args, Over g n v a)
      (here : valueOver g.id v (node id (.assoc op args)) ≠ undefined) :
      Over g n v (node id (.assoc op args))

/-- A formula over the fixed one has a value. -/
theorem Over.here {g e : Formula PartialReal} {n : NodeId} {v : PartialReal} (h : Over g n v e) :
    valueOver g.id v e ≠ undefined := by
  cases h with
  | const id x => simp [valueOver]
  | onto _ here => exact here
  | unary _ _ here => exact here
  | assoc _ _ here => exact here

/-- In the pass `γ` begun in the store `s₀`, the formula `g`, all of whose nodes have numbers below
`n`, evaluates to `v`. -/
structure Base (γ : Generation) (g : Formula PartialReal) (n : NodeId) (v : PartialReal)
    (s₀ : Store PartialReal) : Prop where
  pass : γ ≠ 0
  id_lt : g.id < n
  below : StaysBelow n (evaluateIn γ g)
  answer : ((evaluateIn γ g).run s₀).1 = v

variable {γ : Generation} {g e : Formula PartialReal} {n id : NodeId} {v : PartialReal}
  {s s₀ : Store PartialReal} {D : Directory PartialReal} {L : Ledger PartialReal}

/-- In a pass of its own a known formula evaluates to its value. -/
theorem KnownTo.base {t : Store PartialReal} (hg : g.KnownTo L) (hv : (g.evaluate.run t).1 = v) :
    Base (t.generation + 1) g L.next v (Evaluation.nextGeneration.run t).2 :=
  ⟨Nat.succ_ne_zero _, hg.id_lt, evaluateIn_staysBelow hg _, hv⟩

/-- What is built later is not the fixed node. -/
theorem Base.ne_id (hg : Base γ g n v s₀) (hid : n ≤ id) : id ≠ g.id :=
  Nat.ne_of_gt (Nat.lt_of_lt_of_le hg.id_lt hid)

/-- The fixed node has the value given. -/
theorem Base.valueOver_self (hg : Base γ g n v s₀) : valueOver g.id v g = v := by
  have hanswer := hg.answer
  obtain ⟨i, shape⟩ := g
  cases shape with
  | const x =>
      rw [evaluateIn] at hanswer
      exact hanswer
  | unary op a => exact if_pos rfl
  | assoc op args => exact if_pos rfl
  | _ => rw [valueOver] <;> simp

/-! ## Evaluation -/

/-- As far as numbers below `n` go, `g` has not been evaluated yet in the pass, or nothing has
happened since; and the slots from `n` on are right if it evaluates to `v`. -/
structure Ready (D : Directory PartialReal) (γ : Generation) (g : Formula PartialReal) (n : NodeId)
    (v : PartialReal) (s₀ s : Store PartialReal) : Prop where
  begun : s.AlikeBelow n s₀ ∨ s.AlikeBelow n ((evaluateIn γ g).run s₀).2
  slot : ∀ id ≥ n, (s.slot id).holds γ = true → (s.slot id).value = valueOver g.id v (D id)

/-- In a pass that is ready, the computation answers `b`, and the pass is ready afterwards. -/
def AnswersOver (D : Directory PartialReal) (γ : Generation) (g : Formula PartialReal) (n : NodeId)
    (v : PartialReal) (s₀ : Store PartialReal) {β : Type} (x : Evaluation PartialReal β) (b : β) :
    Prop :=
  ∀ s, Ready D γ g n v s₀ s → (x.run s).1 = b ∧ Ready D γ g n v s₀ (x.run s).2

/-- Computations that answer over the fixed node may be put one after another. -/
theorem AnswersOver.answering :
    Answering (m := Evaluation PartialReal) fun _ => AnswersOver D γ g n v s₀ :=
  .of_invariant (Ready D γ g n v s₀)

/-- In a fresh generation no slot is held, so the pass may begin. -/
theorem ready_next {t : Store PartialReal} (ht : t.Issued) :
    Ready D (t.generation + 1) g n v (Evaluation.nextGeneration.run t).2
      (Evaluation.nextGeneration.run t).2 :=
  ⟨.inl (.refl n _), fun id _ hheld => absurd hheld (ht.not_holds_next id)⟩

/-- **The formula itself** answers the same, whether it has been evaluated yet or not. -/
theorem Base.answersOver (hg : Base γ g n v s₀) : AnswersOver D γ g n v s₀ (evaluateIn γ g) v := by
  intro s hs
  have hslot : ∀ id ≥ n, (((evaluateIn γ g).run s).2.slot id).holds γ = true →
      (((evaluateIn γ g).run s).2.slot id).value = valueOver g.id v (D id) := by
    intro id hid
    rw [hg.below.slot s id hid]
    exact hs.slot id hid
  obtain hbefore | hafter := hs.begun
  · exact ⟨(hg.below.answer hbefore).trans hg.answer, .inr (hg.below.alike hbefore), hslot⟩
  · have hagain := evaluateIn_again hg.pass g s₀
    refine ⟨?_, .inr ?_, hslot⟩
    · rw [hg.below.answer hafter, hagain, hg.answer]
    · have halike := hg.below.alike hafter
      rwa [hagain] at halike

/-- A newer node answers through its slot as it does otherwise. -/
theorem AnswersOver.throughSlot (hid : n ≤ id) {x : Evaluation PartialReal PartialReal}
    (hx : AnswersOver D γ g n v s₀ x (valueOver g.id v (D id))) :
    AnswersOver D γ g n v s₀ (throughSlot id γ x) (valueOver g.id v (D id)) := by
  intro s hs
  rw [throughSlot_run]
  by_cases hheld : (s.slot id).holds γ = true
  · rw [if_pos hheld]
    exact ⟨hs.slot id hid hheld, hs⟩
  · obtain ⟨hvalue, hs'⟩ := hx s hs
    rw [if_neg hheld, hvalue]
    have halike := Store.alikeBelow_fill hid (x.run s).2 γ (valueOver g.id v (D id))
    refine ⟨rfl, hs'.begun.imp halike.trans halike.trans, fun j hj hholds => ?_⟩
    rw [Store.slot_fill] at hholds ⊢
    by_cases h : id = j
    · rw [if_pos h, h, Slot.fill]
    · rw [if_neg h] at hholds ⊢
      exact hs'.slot j hj hholds

/-- **What is built over a formula evaluates to what the operations make of its value.** -/
theorem evaluateIn_over (hg : Base γ g n v s₀) (he : Over g n v e) (hlisted : e.ListedIn D) :
    AnswersOver D γ g n v s₀ (evaluateIn γ e) (valueOver g.id v e) := by
  have hK : Answering fun _ => AnswersOver D γ g n v s₀ := AnswersOver.answering
  have hslot : ∀ {id shape x}, n ≤ id → (node id shape).ListedIn D →
      AnswersOver D γ g n v s₀ x (valueOver g.id v (node id shape)) →
      AnswersOver D γ g n v s₀ (throughSlot id γ x) (valueOver g.id v (node id shape)) := by
    intro id shape x hid hlisted
    have hentry : D id = node id shape := hlisted.entry
    rw [← hentry]
    exact .throughSlot hid
  induction he with
  | const id x =>
      rw [evaluateIn]
      exact hK.pure _
  | onto hid _ =>
      rw [evaluateIn]
      refine hslot hid hlisted ?_
      rw [valueOver_unary (hg.ne_id hid), hg.valueOver_self]
      exact hK.bind hg.answersOver (hK.pure _)
  | unary hid _ _ ih =>
      rw [evaluateIn]
      refine hslot hid hlisted ?_
      rw [valueOver_unary (hg.ne_id hid)]
      exact hK.bind (ih (hlisted.ref (by simp [Shape.refs, Shape.children]))) (hK.pure _)
  | @assoc id op args hid _ _ ih =>
      have hargs : ∀ a ∈ args, AnswersOver D γ g n v s₀ (evaluateIn γ a) (valueOver g.id v a) :=
        fun a ha => ih a ha (hlisted.ref (by simpa [Shape.refs, Shape.children] using ha))
      have hthrough : ∀ x, AnswersOver D γ g n v s₀ x (op.apply (args.map (valueOver g.id v))) →
          AnswersOver D γ g n v s₀ (throughSlot id γ x)
            (valueOver g.id v (node id (.assoc op args))) := by
        intro x hx
        rw [← valueOver_assoc (hg.ne_id hid)] at hx
        exact hslot hid hlisted hx
      cases op with
      | multiply => exact hthrough _ (hK.productIn_map hargs 1)
      | add => exact hthrough _ (hK.bind (hK.evaluateAllIn_map hargs) (hK.pure _))
      | hypot => exact hthrough _ (hK.bind (hK.evaluateAllIn_map hargs) (hK.pure _))

/-! ## Building -/

/-- The real value over the fixed node. -/
noncomputable def realOver (i : NodeId) (v : PartialReal) (e : Formula PartialReal) : ℝ :=
  (valueOver i v e).toReal

/-- Where a formula is defined over the fixed node, its value is the real one. -/
theorem Over.value_eq (h : Over g n v e) : valueOver g.id v e = real (realOver g.id v e) := by
  obtain ⟨x, hx⟩ := exists_real h.here
  rw [realOver, hx, toReal]

/-- The arguments of a sum over the fixed node are over it too, and were built after it. -/
theorem Over.of_assoc {op : AssocOp} {args : List (Formula PartialReal)}
    (h : Over g n v (node id (.assoc op args))) : n ≤ id ∧ ∀ a ∈ args, Over g n v a := by
  cases h with
  | assoc hid hargs _ => exact ⟨hid, hargs⟩

/-- Sums, products and lengths over the fixed node depend on the values of their arguments. -/
theorem Base.value_assoc (hg : Base γ g n v s₀) (hid : n ≤ id) {op : AssocOp}
    {args : List (Formula PartialReal)} (hargs : ∀ a ∈ args, Over g n v a) :
    valueOver g.id v (node id (.assoc op args)) =
      real (op.amount (args.map (realOver g.id v))) := by
  have hvalues : args.map (valueOver g.id v) = (args.map (realOver g.id v)).map real := by
    rw [List.map_map]
    exact List.map_congr_left fun a ha => (hargs a ha).value_eq
  rw [valueOver_assoc (hg.ne_id hid), hvalues, op.apply_map_real]

/-- A square over the fixed node is the product with itself. -/
theorem Base.value_square (hg : Base γ g n v s₀) (hid : n ≤ id) {a : Formula PartialReal}
    (ha : Over g n v a) : valueOver g.id v (node id (.unary .square a)) =
      real (realOver g.id v a * realOver g.id v a) := by
  rw [valueOver_unary (hg.ne_id hid), ha.value_eq, UnaryOp.apply, real_mul]

/-- Formulas over the fixed node are closed under the operations that are built later. -/
theorem Base.over_closed (hg : Base γ g n v s₀) : Closed n (Over g n v) where
  const := .const
  exists_real h := exists_real (by simpa [valueOver] using h.here)
  assoc hid hargs := .assoc hid hargs (by simp [hg.value_assoc hid hargs])
  args h := h.of_assoc.2
  square hid ha := .unary hid ha (by simp [hg.value_square hid ha])

/-- Reading what the operations make of the value. -/
noncomputable def overTally (hg : Base γ g n v s₀) : Tally n (Over g n v) ℝ where
  toAmounts := .real
  closed := hg.over_closed
  read := realOver g.id v
  read_const _ _ := by rw [realOver, valueOver]; rfl
  read_assoc h := by
    rw [realOver, hg.value_assoc h.of_assoc.1 h.of_assoc.2]
    rfl
  read_square hid ha := by
    rw [realOver, hg.value_square hid ha]
    rfl

variable {L' : Ledger PartialReal} {x y : ℝ} {a : Formula PartialReal} {op : UnaryOp}

/-- Without a rule to apply and without a constant, the node is built as it is. -/
theorem unary_eq_new (hconst : a.isConstant = false) (hrule : unaryRule op a = none) :
    unary op a = new (.unary op a) := by
  rw [unary, build_of_not_isConstant (c := a) _ (by simp [Shape.children]) hconst, hrule]
  rfl

/-- A function of one argument to which no rule applies is folded or stays as it is. -/
theorem unary_cases (hrule : a.isConstant = true ∨ unaryRule op a = none) :
    (∃ w, foldConstants (.unary op a) = some w ∧ unary op a = constant w) ∨
      unary op a = new (.unary op a) := by
  cases hconst : a.isConstant with
  | true =>
      have hfold : foldConstants (.unary op a) =
          some (value (fun _ => Scalar.nan) (node 0 (.unary op a))) :=
        foldConstants_of_isConstant trivial (by simp) (by simpa [Shape.children] using hconst)
      exact .inl ⟨_, hfold, by rw [unary, build, hfold]⟩
  | false => exact .inr (unary_eq_new hconst (hrule.resolve_left (by simp [hconst])))

/-- If no rule applies, the result is a constant or the node as it is. -/
theorem unary_asIs (hrule : a.isConstant = true ∨ unaryRule op a = none) :
    Yields (unary op a) fun e => e.isConstant = true ∨ e.shape = .unary op a := by
  obtain ⟨w, -, heq⟩ | heq := unary_cases hrule
  · rw [heq]
    exact .new fun _ => .inl rfl
  · rw [heq]
    exact .new fun _ => .inr rfl

/-- The formula is known and made over `g`, of which the operations make the number `x`. -/
structure DenotesOver (g : Formula PartialReal) (n : NodeId) (v : PartialReal) (x : ℝ)
    (L : Ledger PartialReal) (e : Formula PartialReal) : Prop where
  known : e.KnownTo L
  built : Over g n v e
  value_eq : valueOver g.id v e = real x

/-- What is denoted over the fixed node does not depend on what else has been built. -/
theorem DenotesOver.mono (h : DenotesOver g n v x L e) (hL : L.Extends L') :
    DenotesOver g n v x L' e :=
  ⟨h.known.mono hL, h.built, h.value_eq⟩

/-- The real value is the number denoted. -/
theorem DenotesOver.realOver_eq (h : DenotesOver g n v x L e) : realOver g.id v e = x := by
  rw [realOver, h.value_eq, toReal]

/-- The common zero denotes zero over any node. -/
theorem zero_denotesOver : DenotesOver g n v 0 L zero :=
  ⟨zero_known L, .const 0 0, by rw [zero, valueOver]; rfl⟩

/-- The common one denotes one over any node. -/
theorem one_denotesOver : DenotesOver g n v 1 L one :=
  ⟨one_known L, .const 1 1, by rw [one, valueOver]; rfl⟩

/-- Sums, products and lengths over the fixed node denote those of the numbers. -/
theorem assoc_denotesOver (hg : Base γ g n v s₀) (hn : n ≤ L.next) (op : AssocOp) {xs : List ℝ}
    {es : List (Formula PartialReal)}
    (hes : List.Forall₂ (fun x e => DenotesOver g n v x L e) xs es) :
    Builds (assoc op es) L (DenotesOver g n v (op.amount xs)) := by
  have hover : ∀ e ∈ es, Over g n v e := forall_of_forall₂ hes fun _ _ h => h.built
  have hreads := Tally.assoc_reads (T := overTally hg) op hover
  have hxs : es.map (realOver g.id v) = xs := by
    clear hover hreads
    induction hes with
    | nil => rfl
    | cons hhead _ ih => rw [List.map_cons, ih, hhead.realOver_eq]
  have hknown := assoc_builds (L := L) trivial_admitsOperations op fun e he =>
    ⟨forall_of_forall₂ hes (fun _ _ h => h.known) e he, trivial⟩
  refine (hknown.and_yieldsFrom hn hreads).mono fun L' e _ h => ⟨h.1.known, h.2.holds, ?_⟩
  rw [h.2.holds.value_eq]
  exact congrArg real (h.2.read_eq.trans (congrArg op.amount hxs))

/-- A function of `g`, or of what is made over it, to which no rule applies. -/
theorem unary_denotesOver (hg : Base γ g n v s₀) (hn : n ≤ L.next) (hknown : a.KnownTo L)
    (hover : a = g ∨ Over g n v a) (hvalue : valueOver g.id v a = real x)
    (hop : op.apply (real x) = real y) (hrule : a.isConstant = true ∨ unaryRule op a = none) :
    Builds (unary op a) L (DenotesOver g n v y) := by
  have hreads : YieldsFrom n (unary op a) fun e => Over g n v e ∧ valueOver g.id v e = real y := by
    obtain ⟨w, hfold, heq⟩ | heq := unary_cases hrule
    · have hconst := isConstant_of_foldConstants hfold (c := a) (by simp [Shape.children])
      have hw := value_of_foldConstants hfold (fun _ => undefined) 0
      rw [value, ← valueOver_of_isConstant hconst, hvalue, hop] at hw
      rw [heq, ← hw]
      exact .new fun id _ => ⟨.const id y, by rw [valueOver]⟩
    · rw [heq]
      refine .new fun id hid => ?_
      have hy : valueOver g.id v (node id (.unary op a)) = real y := by
        rw [valueOver_unary (hg.ne_id hid), hvalue, hop]
      have here : valueOver g.id v (node id (.unary op a)) ≠ undefined := by simp [hy]
      obtain rfl | ha := hover
      · exact ⟨.onto hid here, hy⟩
      · exact ⟨.unary hid ha here, hy⟩
  have hbuilds := unary_builds (L := L) trivial_admitsOperations op ⟨hknown, trivial⟩
  exact (hbuilds.and_yieldsFrom hn hreads).mono fun L' e _ h => ⟨h.1.known, h.2.1, h.2.2⟩

/-- All operations at once, over the fixed node. -/
theorem denotesOver_arithmetic (hg : Base γ g n v s₀) (hn : n ≤ L.next) :
    Arithmetic L (DenotesOver g n v) where
  lasting _ _ _ _ hL h := h.mono hL
  assoc op _ _ hL hes := assoc_denotesOver hg (hn.trans hL.next_le) op hes

end Formula

end FormulaGraph
