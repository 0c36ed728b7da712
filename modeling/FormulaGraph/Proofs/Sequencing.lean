import FormulaGraph.Formula.Evaluation
import FormulaGraph.Formula.Value
import FormulaGraph.Proofs.Parts

/-!
# Properties that pass to whole evaluations

Evaluations and searches run the same few computations over and over, in an order
that depends on the answers.  A property of computations that holds of answers
given at once and passes to one computation after another is **hereditary**; it
holds of a search as soon as it holds of what the search asks (`Hereditary.run`).
If it also holds of reading a variable and passes to reading through a slot, it
holds of the evaluation of a node as soon as it holds of that of its children
(`Hereditary.evaluateIn`); and if it is indifferent to the values of variables and
to the numbers drawn, it holds of every evaluation (`EvaluationProperty.evaluateIn`).

A relation between computations and the answers they should give is **answering**
when the same can be said of it.  Then a search stands in it to the root found with
the answers alone (`Answering.run`), and the evaluation of a node to its value
(`Answering.evaluateIn`).
-/

namespace FormulaGraph

/-- A property of computations that holds of answers given at once, and of one
computation after another. -/
structure Hereditary {m : Type → Type} [Monad m] (K : (β : Type) → m β → Prop) : Prop where
  pure : ∀ {β : Type} (b : β), K β (Pure.pure b)
  bind : ∀ {β γ : Type} {x : m β} {f : β → m γ}, K β x → (∀ b, K γ (f b)) → K γ (x >>= f)

namespace Hereditary

open BracketSearch

variable {α : Type} [Scalar α] {m : Type → Type} [Monad m]
  {K : (β : Type) → m β → Prop} {past : α → m Bool} {value : α → m α}

theorem expand (hK : Hereditary K) (hpast : ∀ x, K Bool (past x)) (left : Nat) (b : Bracket α)
    (doublings : Nat) : K _ (BracketSearch.expand past left b doublings) := by
  induction left generalizing b doublings with
  | zero => exact hK.pure _
  | succ left ih =>
      refine hK.bind (hpast b.high) ?_
      intro found
      cases found with
      | true => exact hK.pure _
      | false => exact ih _ _

theorem bisect (hK : Hereditary K) (hpast : ∀ x, K Bool (past x)) (precision : α) (left : Nat)
    (b : Bracket α) (bisections : Nat) :
    K _ (BracketSearch.bisect past precision left b bisections) := by
  induction left generalizing b bisections with
  | zero => exact hK.pure _
  | succ left ih =>
      rw [BracketSearch.bisect]
      split
      · dsimp only
        split
        · exact hK.pure _
        · refine hK.bind (hpast _) ?_
          intro found
          cases found with
          | true => exact ih _ _
          | false => exact ih _ _
      · exact hK.pure _

/-- What holds of all that a search asks holds of the search. -/
theorem run (hK : Hereditary K) (hpast : ∀ x, K Bool (past x)) (hvalue : ∀ x, K α (value x))
    (low high precision : α) : K _ (BracketSearch.run low high precision past value) := by
  refine hK.bind (hpast low) ?_
  intro found
  cases found with
  | true => exact hK.pure _
  | false =>
      refine hK.bind (hK.expand hpast _ _ _) ?_
      intro expanded
      rcases expanded with ⟨_ | b, doublings⟩
      · exact hK.pure _
      · refine hK.bind (hK.bisect hpast _ _ _ _) ?_
        intro _
        refine hK.bind (hvalue _) ?_
        intro _
        exact hK.bind (hvalue _) fun _ => hK.pure _

end Hereditary

/-- A relation of computations to answers that holds of answers given at once, and of
one computation after another. -/
structure Answering {m : Type → Type} [Monad m] (K : (β : Type) → m β → β → Prop) : Prop where
  pure : ∀ {β : Type} (b : β), K β (Pure.pure b) b
  bind : ∀ {β γ : Type} {x : m β} {f : β → m γ} {b : β} {c : γ}, K β x b → K γ (f b) c →
    K γ (x >>= f) c

namespace Answering

/-- Answers that are given wherever an invariant holds, which holds on afterwards. -/
theorem of_invariant {σ : Type} (I : σ → Prop) : Answering (m := StateM σ) fun _ x b =>
    ∀ s, I s → (x.run s).1 = b ∧ I (x.run s).2 where
  pure _ := fun _ hs => ⟨rfl, hs⟩
  bind {β γ x f b c} hx hf := by
    intro s hs
    obtain ⟨hb, hs'⟩ := hx s hs
    have hrest := hf (x.run s).2 hs'
    rw [← hb] at hrest
    exact hrest

variable {α : Type} [Scalar α] {m : Type → Type} [Monad m] {K : (β : Type) → m β → β → Prop}
  {past : α → m Bool} {value : α → m α} {p : α → Bool} {f : α → α}

theorem expand (hK : Answering K) (hpast : ∀ x, K Bool (past x) (p x)) (left : Nat)
    (b : Bracket α) (doublings : Nat) :
    K _ (BracketSearch.expand past left b doublings)
      (BracketSearch.expand (m := Id) (fun x => p x) left b doublings) := by
  induction left generalizing b doublings with
  | zero => exact hK.pure _
  | succ left ih =>
      have hhigh := hpast b.high
      rw [BracketSearch.expand, BracketSearch.expand]
      refine hK.bind hhigh ?_
      show K _ _ (if p b.high = true then _ else _)
      cases p b.high with
      | true => exact hK.pure _
      | false => exact ih _ _

theorem bisect (hK : Answering K) (hpast : ∀ x, K Bool (past x) (p x)) (precision : α)
    (left : Nat) (b : Bracket α) (bisections : Nat) :
    K _ (BracketSearch.bisect past precision left b bisections)
      (BracketSearch.bisect (m := Id) (fun x => p x) precision left b bisections) := by
  induction left generalizing b bisections with
  | zero => exact hK.pure _
  | succ left ih =>
      rw [BracketSearch.bisect, BracketSearch.bisect]
      split
      · dsimp only
        split
        · exact hK.pure _
        · refine hK.bind (hpast _) ?_
          show K _ _ (if p _ = true then _ else _)
          cases p ((b.low + b.high) / Scalar.two) with
          | true => exact ih _ _
          | false => exact ih _ _
      · exact hK.pure _

/-- A search that is answered as a pure one would be finds what that finds. -/
theorem run (hK : Answering K) (hpast : ∀ x, K Bool (past x) (p x))
    (hvalue : ∀ x, K α (value x) (f x)) (low high precision : α) :
    K _ (BracketSearch.run low high precision past value)
      (BracketSearch.run (m := Id) low high precision (fun x => p x) fun x => f x) := by
  rw [BracketSearch.run, BracketSearch.run]
  refine hK.bind (hpast low) ?_
  show K _ _ (if p low = true then _ else _)
  cases p low with
  | true => exact hK.pure _
  | false =>
      refine hK.bind (hK.expand hpast _ _ _) ?_
      generalize BracketSearch.expand (m := Id) (fun x => p x) maxDoublings ⟨low, high⟩ 0 = found
      rcases found with ⟨_ | b, doublings⟩
      · exact hK.pure _
      · refine hK.bind (hK.bisect hpast _ _ _ _) ?_
        refine hK.bind (hvalue _) ?_
        exact hK.bind (hvalue _) (hK.pure _)

end Answering

/-- A search whose condition holds at the lower bound already finds nothing, and asks
nothing else. -/
theorem BracketSearch.run_past_low {α σ : Type} [Scalar α] {low high precision : α}
    {past : α → StateM σ Bool} {value : α → StateM σ α} {s t : σ}
    (h : (past low).run s = (true, t)) :
    (BracketSearch.run low high precision past value).run s = (⟨Scalar.nan, 0, 0⟩, t) := by
  rw [BracketSearch.run, StateT.run_bind, h]
  rfl

/-! ## Evaluation of a node from that of its children -/

namespace Hereditary

variable {α : Type} [Scalar α] {g : Generation} {K : (β : Type) → Evaluation α β → Prop}

open Formula (evaluateIn evaluateAllIn productIn guardHoldsIn)

theorem evaluateAllIn (hK : Hereditary K) {es : List (Formula α)}
    (h : ∀ e ∈ es, K α (evaluateIn g e)) : K _ (evaluateAllIn g es) := by
  induction es with
  | nil => exact hK.pure []
  | cons e es ih =>
      refine hK.bind (h e List.mem_cons_self) ?_
      intro v
      refine hK.bind (ih fun e' he' => h e' (List.mem_cons_of_mem e he')) ?_
      intro vs
      exact hK.pure _

theorem productIn (hK : Hereditary K) {es : List (Formula α)}
    (h : ∀ e ∈ es, K α (evaluateIn g e)) (acc : α) : K _ (productIn g acc es) := by
  induction es generalizing acc with
  | nil => exact hK.pure acc
  | cons e es ih =>
      refine hK.bind (h e List.mem_cons_self) ?_
      intro v
      dsimp only
      split
      · exact hK.pure _
      · exact ih (fun e' he' => h e' (List.mem_cons_of_mem e he')) _

/-- What holds of the evaluation of the children holds of that of the node, unless
it is a solver; provided that it holds of reading the variable the node may be, and
passes to reading through its slot. -/
theorem evaluateIn (hK : Hereditary K) {id : NodeId} {shape : Shape α (Formula α)}
    (notSolver : ∀ s, shape ≠ .solver s)
    (read : ∀ name, shape = .var name → K α (Evaluation.read id))
    (throughSlot : ∀ x, K α x → K α (Formula.throughSlot id g x))
    (h : ∀ c ∈ shape.children, K α (evaluateIn g c)) : K _ (evaluateIn g (.node id shape)) := by
  cases shape with
  | const v => exact hK.pure v
  | var name => exact read name rfl
  | unary op a =>
      have ha := h a (by simp [Shape.children])
      rw [Formula.evaluateIn]
      exact throughSlot _ (hK.bind ha fun _ => hK.pure _)
  | binary op a b =>
      have ha := h a (by simp [Shape.children])
      have hb := h b (by simp [Shape.children])
      rw [Formula.evaluateIn]
      refine throughSlot _ (hK.bind ha ?_)
      intro left
      split
      · exact hK.pure 0
      · exact hK.bind hb fun _ => hK.pure _
  | assoc op args =>
      cases op with
      | multiply => exact throughSlot _ (hK.productIn h 1)
      | add => exact throughSlot _ (hK.bind (hK.evaluateAllIn h) fun _ => hK.pure _)
      | hypot => exact throughSlot _ (hK.bind (hK.evaluateAllIn h) fun _ => hK.pure _)
  | conditional op c a b =>
      have hc := h c (by simp [Shape.children])
      have ha := h a (by simp [Shape.children])
      have hb := h b (by simp [Shape.children])
      rw [Formula.evaluateIn]
      refine throughSlot _ (hK.bind hc ?_)
      intro v
      split
      · exact ha
      · exact hb
  | tabulated mark t a =>
      have ha := h a (by simp [Shape.children])
      rw [Formula.evaluateIn]
      exact throughSlot _ (hK.bind ha fun _ => hK.pure _)
  | solver s => exact absurd rfl (notSolver s)

theorem guardHoldsIn (hK : Hereditary K) {x : α} {guard : Option (NodeId × Guard α (Formula α))}
    (h : ∀ e ∈ guard.toList.flatMap (·.2.refs), K α (Formula.evaluateIn g e)) :
    K Bool (guardHoldsIn g x guard) := by
  match guard with
  | none => exact hK.pure _
  | some (_, .custom _) => exact hK.pure _
  | some (_, .positive e) => exact hK.bind (h e (by simp [Guard.refs])) fun _ => hK.pure _

/-- The condition of a solver at a trial value. -/
theorem condition (hK : Hereditary K) {x : α} {body : Formula α}
    {guard : Option (NodeId × Guard α (Formula α))} (hbody : K α (Formula.evaluateIn g body))
    (hguard : ∀ e ∈ guard.toList.flatMap (·.2.refs), K α (Formula.evaluateIn g e)) :
    K Bool (do
      if ← Formula.guardHoldsIn g x guard then
        return Scalar.less (← Formula.evaluateIn g body) 0
      else
        return false) := by
  refine hK.bind (hK.guardHoldsIn hguard) ?_
  intro admitted
  split
  · exact hK.bind hbody fun _ => hK.pure _
  · exact hK.pure false

end Hereditary

/-- A hereditary property of what a pass in the generation `g` does. -/
structure PassProperty {α : Type} [Scalar α] (g : Generation)
    (K : (β : Type) → Evaluation α β → Prop) : Prop extends Hereditary K where
  read : ∀ v : NodeId, K α (Evaluation.read v)
  throughSlot : ∀ (id : NodeId) (x : Evaluation α α), K α x →
    K α (Formula.throughSlot id g x)

/-- What holds of the evaluation of the children holds of that of the node, unless
it is a solver. -/
theorem PassProperty.evaluateIn {α : Type} [Scalar α] {g : Generation}
    {K : (β : Type) → Evaluation α β → Prop} (hK : PassProperty g K) {id : NodeId}
    {shape : Shape α (Formula α)} (notSolver : ∀ s, shape ≠ .solver s)
    (h : ∀ c ∈ shape.children, K α (Formula.evaluateIn g c)) :
    K _ (Formula.evaluateIn g (.node id shape)) :=
  hK.toHereditary.evaluateIn notSolver (fun _ _ => hK.read id) (hK.throughSlot id) h

/-! ## Evaluation of every node -/

/-- A property of what passes do, whatever their generation and whatever the variables
hold. -/
structure EvaluationProperty {α : Type} [Scalar α]
    (K : Generation → (β : Type) → Evaluation α β → Prop) : Prop where
  pass : ∀ g, PassProperty g (K g)
  write : ∀ g v x, K g Unit (Evaluation.write v x)
  nextGeneration : ∀ g {β : Type} {f : Generation → Evaluation α β},
    (∀ trial, K trial β (f trial)) → K g β (Evaluation.nextGeneration >>= f)

namespace EvaluationProperty

variable {α : Type} [Scalar α] {K : Generation → (β : Type) → Evaluation α β → Prop}

/-- A trial of a solver: its variable is written, and a pass begun. -/
theorem trial (hK : EvaluationProperty K) (g : Generation) {β : Type} (v : NodeId) (x : α)
    {f : Generation → Evaluation α β} (hf : ∀ trial, K trial β (f trial)) :
    K g β (do Evaluation.write v x; f (← Evaluation.nextGeneration)) :=
  (hK.pass g).bind (hK.write g v x) fun _ => hK.nextGeneration g hf

/-- What holds of the evaluation of all that a node refers to holds of every
evaluation. -/
theorem evaluateIn (hK : EvaluationProperty K) (e : Formula α) :
    ∀ g, K g α (Formula.evaluateIn g e) := by
  induction e using Formula.inductionOnRefs with
  | h id shape ih =>
      intro g
      by_cases hsolver : ∃ s, shape = .solver s
      · obtain ⟨⟨body, bound, low, high, precision, guard⟩, rfl⟩ := hsolver
        have hP := hK.pass g
        have hlow := ih low (by simp [Shape.refs, Solver.refs, Solver.children]) g
        have hhigh := ih high (by simp [Shape.refs, Solver.refs, Solver.children]) g
        have hprecision := ih precision (by simp [Shape.refs, Solver.refs, Solver.children]) g
        have hbody := ih body (by simp [Shape.refs, Solver.refs, Solver.children])
        have hguard : ∀ e ∈ guard.toList.flatMap (·.2.refs), ∀ g, K g α (Formula.evaluateIn g e) :=
          fun e he => ih e (by
            simpa only [Shape.refs, Solver.refs] using List.mem_append_right _ he)
        rw [Formula.evaluateIn]
        refine hP.throughSlot _ _ (hP.bind hlow fun _ => hP.bind hhigh fun _ =>
          hP.bind hprecision fun _ => hP.bind (hP.run ?_ ?_ _ _ _) ?_)
        · intro x
          exact hK.trial g bound.id x fun trial =>
            (hK.pass trial).condition (hbody trial) fun e he => hguard e he trial
        · intro x
          exact hK.trial g bound.id x hbody
        · intro found
          split
          · exact hP.pure _
          · exact hP.bind (hK.write _ _ _) fun _ => hP.pure _
      · refine (hK.pass g).evaluateIn (fun s hs => hsolver ⟨s, hs⟩) ?_
        intro c hc
        exact ih c (Shape.mem_refs_of_mem_children hc) g

end EvaluationProperty

/-! ## Evaluation of a node to its value -/

/-- Where evaluation skips the divisor, the value is zero. -/
theorem Formula.value_of_skipped {α : Type} [Scalar α] {ρ : Valuation α} {op : BinaryOp}
    {a b : Formula α} {id : NodeId} (hskip : (op == .divide && a.value ρ == 0) = true) :
    value ρ (node id (.binary op a b)) = 0 := by
  obtain ⟨hop, hzero⟩ := Bool.and_eq_true_iff.mp hskip
  obtain rfl : op = .divide := by simpa using hop
  simp [value, BinaryOp.apply, Scalar.safeDiv, hzero]

namespace Answering

variable {α : Type} [Scalar α] {K : (β : Type) → Evaluation α β → β → Prop} {g : Generation}
  {ρ : Valuation α}

open Formula (evaluateIn evaluateAllIn productIn throughSlot)

/-- Several formulas are evaluated to what each of them is. -/
theorem evaluateAllIn_map (hK : Answering K) {F : Formula α → α} {es : List (Formula α)}
    (h : ∀ e ∈ es, K α (evaluateIn g e) (F e)) : K _ (evaluateAllIn g es) (es.map F) := by
  induction es with
  | nil => exact hK.pure []
  | cons e es ih =>
      have he := h e List.mem_cons_self
      have hes := ih fun e' he' => h e' (List.mem_cons_of_mem e he')
      exact hK.bind he (hK.bind hes (hK.pure _))

theorem productIn_map (hK : Answering K) {F : Formula α → α} {es : List (Formula α)}
    (h : ∀ e ∈ es, K α (evaluateIn g e) (F e)) (acc : α) :
    K _ (productIn g acc es) (Scalar.productUntilZero acc (es.map F)) := by
  induction es generalizing acc with
  | nil => exact hK.pure acc
  | cons e es ih =>
      have he := h e List.mem_cons_self
      refine hK.bind he ?_
      simp only [List.map_cons, Scalar.productUntilZero]
      by_cases hzero : (acc * F e == 0) = true
      · simp only [hzero, if_true]
        exact hK.pure _
      · simp only [hzero, if_false, Bool.false_eq_true]
        exact ih (fun e' he' => h e' (List.mem_cons_of_mem e he')) _

theorem evaluateAllIn (hK : Answering K) {es : List (Formula α)}
    (h : ∀ e ∈ es, K α (evaluateIn g e) (e.value ρ)) :
    K _ (evaluateAllIn g es) (Formula.values ρ es) := by
  rw [Formula.values_eq_map]
  exact hK.evaluateAllIn_map h

theorem productIn (hK : Answering K) {es : List (Formula α)}
    (h : ∀ e ∈ es, K α (evaluateIn g e) (e.value ρ)) (acc : α) :
    K _ (productIn g acc es) (Scalar.productUntilZero acc (Formula.values ρ es)) := by
  rw [Formula.values_eq_map]
  exact hK.productIn_map h acc

/-- If the children evaluate to their values, so does the node, unless it is a solver;
provided its slot, or the variable it is, answers as the relation has it. -/
theorem evaluateIn (hK : Answering K) {id : NodeId} {shape : Shape α (Formula α)}
    (notSolver : ∀ s, shape ≠ .solver s)
    (read : ∀ name, shape = .var name → K α (Evaluation.read id) (ρ id))
    (throughSlot : ∀ x, K α x (Formula.value ρ (.node id shape)) →
      K α (throughSlot id g x) (Formula.value ρ (.node id shape)))
    (h : ∀ c ∈ shape.children, K α (evaluateIn g c) (c.value ρ)) :
    K α (evaluateIn g (.node id shape)) (Formula.value ρ (.node id shape)) := by
  cases shape with
  | const v => exact hK.pure v
  | var name => exact read name rfl
  | unary op a =>
      have ha := h a (by simp [Shape.children])
      rw [Formula.evaluateIn]
      exact throughSlot _ (hK.bind ha (hK.pure _))
  | binary op a b =>
      have ha := h a (by simp [Shape.children])
      have hb := h b (by simp [Shape.children])
      rw [Formula.evaluateIn]
      refine throughSlot _ (hK.bind ha ?_)
      by_cases hskip : (op == .divide && a.value ρ == 0) = true
      · rw [Formula.value_of_skipped hskip]
        simp only [hskip, if_true]
        exact hK.pure 0
      · simp only [hskip, if_false, Bool.false_eq_true]
        exact hK.bind hb (hK.pure _)
  | assoc op args =>
      cases op with
      | multiply => exact throughSlot _ (hK.productIn h 1)
      | add => exact throughSlot _ (hK.bind (hK.evaluateAllIn h) (hK.pure _))
      | hypot => exact throughSlot _ (hK.bind (hK.evaluateAllIn h) (hK.pure _))
  | conditional op c a b =>
      have hc := h c (by simp [Shape.children])
      have ha := h a (by simp [Shape.children])
      have hb := h b (by simp [Shape.children])
      rw [Formula.evaluateIn]
      refine throughSlot _ (hK.bind hc ?_)
      simp only [Formula.value]
      by_cases hfirst : op.selectsFirst (c.value ρ) = true
      · simp only [hfirst, if_true]
        exact ha
      · simp only [hfirst, if_false, Bool.false_eq_true]
        exact hb
  | tabulated mark t a =>
      have ha := h a (by simp [Shape.children])
      rw [Formula.evaluateIn]
      exact throughSlot _ (hK.bind ha (hK.pure _))
  | solver s => exact absurd rfl (notSolver s)

end Answering

end FormulaGraph
