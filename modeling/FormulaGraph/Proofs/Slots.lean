import FormulaGraph.Formula.Value
import FormulaGraph.Proofs.Sequencing

/-!
# What a pass finds in the slots

An evaluation in the generation `g` reads the slots that hold `g` and fills
slots with `g`; it can be trusted as long as every slot that holds `g` holds the
value its node has now.  That is the invariant `Store.Agrees`.

Evaluating a solver-free formula writes no variable, draws no number and leaves
every slot it does not fill as it was, whatever it finds (`FillsOnly`).  Where the
invariant holds, it answers the value and keeps the invariant (`Computes`).
-/

namespace FormulaGraph

namespace Store

variable {α : Type} [Scalar α]

@[simp] theorem read_fill (s : Store α) (id : NodeId) (g : Generation) (v : α) :
    (s.fill id g v).read = s.read := rfl

@[simp] theorem generation_fill (s : Store α) (id : NodeId) (g : Generation) (v : α) :
    (s.fill id g v).generation = s.generation := rfl

@[simp] theorem slot_write (s : Store α) (v : NodeId) (x : α) (id : NodeId) :
    (s.write v x).slot id = s.slot id := rfl

omit [Scalar α] in
@[simp] theorem generation_write (s : Store α) (v : NodeId) (x : α) :
    (s.write v x).generation = s.generation := rfl

/-- Filling a slot changes this slot alone. -/
theorem slot_fill (s : Store α) (id j : NodeId) (g : Generation) (v : α) :
    (s.fill id g v).slot j = if id = j then (s.slot id).fill g v else s.slot j := by
  simp only [slot, fill, Std.HashMap.getD_insert, beq_iff_eq]

/-- Writing a variable changes this variable alone. -/
theorem read_write (s : Store α) (v : NodeId) (x : α) :
    (s.write v x).read = Valuation.set s.read v x := by
  funext w
  simp only [read, write, Std.HashMap.getD_insert, beq_iff_eq, Valuation.set]
  by_cases h : v = w
  · rw [if_pos h, if_pos h.symm]
  · rw [if_neg h, if_neg (Ne.symm h)]

/-- Every slot that holds the generation holds what its node is worth now. -/
def Agrees (D : Formula.Directory α) (g : Generation) (s : Store α) : Prop :=
  ∀ id, (s.slot id).holds g = true → (s.slot id).value = (D id).value s.read

/-- From `s` to `t` nothing happened but the filling of slots with `g`. -/
structure Passed (g : Generation) (s t : Store α) : Prop where
  read : t.read = s.read
  generation : t.generation = s.generation
  slot : ∀ id, t.slot id = s.slot id ∨ (t.slot id).generation = g

/-- Nothing has to happen in a pass. -/
theorem Passed.refl (g : Generation) (s : Store α) : s.Passed g s :=
  ⟨rfl, rfl, fun _ => Or.inl rfl⟩

/-- What happens in two parts of a pass happens in the pass. -/
theorem Passed.trans {g : Generation} {s t u : Store α} (hst : s.Passed g t)
    (htu : t.Passed g u) : s.Passed g u := by
  refine ⟨htu.read.trans hst.read, htu.generation.trans hst.generation, ?_⟩
  intro id
  rcases htu.slot id with h | h
  · rw [h]
    exact hst.slot id
  · exact Or.inr h

/-- Filling a slot is part of a pass. -/
theorem Passed.fill (g : Generation) (s : Store α) (id : NodeId) (v : α) :
    s.Passed g (s.fill id g v) := by
  refine ⟨rfl, rfl, ?_⟩
  intro j
  rw [slot_fill]
  by_cases h : id = j
  · exact Or.inr (by rw [if_pos h]; rfl)
  · exact Or.inl (if_neg h)

/-- Filling a slot with what its node is worth keeps agreement. -/
theorem Agrees.fill {D : Formula.Directory α} {g : Generation} {s : Store α}
    (hs : s.Agrees D g) (id : NodeId) : (s.fill id g ((D id).value s.read)).Agrees D g := by
  intro j hj
  rw [slot_fill] at hj ⊢
  by_cases h : id = j
  · subst h
    simp [Slot.fill]
  · rw [if_neg h] at hj ⊢
    exact hs j hj

/-- A slot that was not filled with `g` in a pass of `g'` holds what it held. -/
theorem Passed.holds {g g' : Generation} {s t : Store α} (h : s.Passed g' t) (hne : g ≠ g')
    {id : NodeId} (ht : (t.slot id).holds g = true) : t.slot id = s.slot id := by
  rcases h.slot id with heq | hgen
  · exact heq
  · have : g' = g := by
      simp only [Slot.holds, Bool.and_eq_true, beq_iff_eq] at ht
      rw [← hgen, ht.1]
    exact absurd this.symm hne

/-- A pass leaves the agreement of every other generation alone. -/
theorem Passed.agrees {D : Formula.Directory α} {g g' : Generation} {s t : Store α}
    (h : s.Passed g' t) (hne : g ≠ g') (hs : s.Agrees D g) : t.Agrees D g := by
  intro id ht
  have heq := h.holds hne ht
  rw [heq] at ht
  rw [heq, h.read]
  exact hs id ht

/-- No slot trusts generation zero. -/
theorem agrees_zero (D : Formula.Directory α) (s : Store α) : s.Agrees D 0 := by
  intro id h
  simp [Slot.holds] at h

end Store

/-! ## Computations of a pass -/

variable {α : Type} [Scalar α] {β γ : Type}

/-- A slot that holds the generation answers; otherwise the value is computed and stored. -/
theorem throughSlot_run (id : NodeId) (g : Generation) (x : Evaluation α α) (s : Store α) :
    (Formula.throughSlot id g x).run s =
      if (s.slot id).holds g then ((s.slot id).value, s)
      else ((x.run s).1, (x.run s).2.fill id g (x.run s).1) := by
  by_cases h : (s.slot id).holds g = true
  · simp [Formula.throughSlot, h]
    rfl
  · simp [Formula.throughSlot, h]
    rfl

/-- What is not in the slot is computed, and put there. -/
theorem throughSlot_run_of_unheld {id : NodeId} {g : Generation} {x : Evaluation α α}
    {s : Store α} (hheld : (s.slot id).holds g = false) :
    (Formula.throughSlot id g x).run s =
      ((x.run s).1, (x.run s).2.fill id g (x.run s).1) := by
  rw [throughSlot_run, if_neg (by simp [hheld])]

/-- Formulas are evaluated in order, each in the store the one before leaves. -/
theorem Formula.evaluateAllIn_cons_run {g : Generation} {e : Formula α} {es : List (Formula α)}
    {s t u : Store α} {v : α} {vs : List α} (h : (e.evaluateIn g).run s = (v, t))
    (hs : (evaluateAllIn g es).run t = (vs, u)) :
    (evaluateAllIn g (e :: es)).run s = (v :: vs, u) := by
  rw [evaluateAllIn, StateT.run_bind, h]
  show (evaluateAllIn g es >>= _).run t = _
  rw [StateT.run_bind, hs]
  rfl

/-- A square of a variable is read from its slot, or computed and stored. -/
theorem Formula.square_run (id v : NodeId) (name : String) (g : Generation) (s : Store α) :
    (evaluateIn g (node id (.unary .square (node v (.var name))))).run s =
      if (s.slot id).holds g then ((s.slot id).value, s)
      else (UnaryOp.square.apply (s.read v), s.fill id g (UnaryOp.square.apply (s.read v))) := by
  rw [evaluateIn, throughSlot_run, evaluateIn]
  rfl

/-- Whatever the slots hold, the computation does nothing but fill some with `g`. -/
def FillsOnly (g : Generation) (x : Evaluation α β) : Prop :=
  ∀ s : Store α, s.Passed g (x.run s).2

/-- Filling slots is a property of all steps of a pass. -/
theorem FillsOnly.passProperty {g : Generation} :
    PassProperty g (α := α) (fun _ => FillsOnly g) where
  pure _ := fun s => .refl g s
  bind {_ _ x _} hx hf := fun s => (hx s).trans (hf (x.run s).1 (x.run s).2)
  read _ := fun s => .refl g s
  throughSlot id x hx := by
    intro s
    rw [throughSlot_run]
    by_cases hheld : (s.slot id).holds g = true
    · rw [if_pos hheld]
      exact .refl g s
    · rw [if_neg hheld]
      exact (hx s).trans (.fill g _ id _)

/-- In the generation `g` and at the values `ρ`, the computation answers `b`,
provided the slots that hold `g` can be trusted; and they can be afterwards. -/
def Computes (D : Formula.Directory α) (g : Generation) (ρ : Valuation α)
    (x : Evaluation α β) (b : β) : Prop :=
  ∀ s : Store α, s.read = ρ → s.Agrees D g →
    (x.run s).1 = b ∧ (x.run s).2.read = ρ ∧ (x.run s).2.Agrees D g

namespace Computes

variable {D : Formula.Directory α} {g : Generation} {ρ : Valuation α}

/-- Computations that answer may be put one after another. -/
theorem answering : Answering (m := Evaluation α) (fun _ => Computes D g ρ) where
  pure _ := fun _ hρ hs => ⟨rfl, hρ, hs⟩
  bind {β γ x f b c} hx hf := by
    intro s hρ hs
    obtain ⟨hb, hρ', hs'⟩ := hx s hρ hs
    have hrest := hf (x.run s).2 hρ' hs'
    rw [← hb] at hrest
    exact hrest

/-- A variable is read from the store. -/
theorem read (v : NodeId) : Computes D g ρ (Evaluation.read v) (ρ v) :=
  fun _ hρ hs => ⟨congrFun hρ v, hρ, hs⟩

/-- Reading through the slot of a node is as good as computing its value. -/
theorem throughSlot {id : NodeId} {x : Evaluation α α}
    (hx : Computes D g ρ x ((D id).value ρ)) :
    Computes D g ρ (Formula.throughSlot id g x) ((D id).value ρ) := by
  intro s hρ hs
  rw [throughSlot_run]
  by_cases hheld : (s.slot id).holds g = true
  · rw [if_pos hheld]
    exact ⟨by rw [hs id hheld, hρ], hρ, hs⟩
  · obtain ⟨hv, hρ', hs'⟩ := hx s hρ hs
    rw [if_neg hheld, hv]
    refine ⟨rfl, hρ', ?_⟩
    rw [← hρ']
    exact hs'.fill id

end Computes

namespace Formula

variable {D : Directory α} {g : Generation} {ρ : Valuation α}

/-- Evaluating a solver-free formula does nothing but fill slots. -/
theorem evaluateIn_fillsOnly {e : Formula α} (hfree : e.SolverFree) :
    FillsOnly g (evaluateIn g e) := by
  induction hfree with
  | node notSolver _ ih => exact FillsOnly.passProperty.evaluateIn notSolver ih

/-- **A pass computes values.**  Where the slots that hold the generation can be
trusted, evaluating a solver-free formula answers its value. -/
theorem evaluateIn_computes {e : Formula α} (hfree : e.SolverFree) (hlisted : e.ListedIn D) :
    Computes D g ρ (evaluateIn g e) (value ρ e) := by
  induction hfree with
  | @node id shape notSolver _ ih =>
      have hentry : D id = node id shape := hlisted.entry
      refine Computes.answering.evaluateIn notSolver (fun _ _ => .read id) ?_
        fun c hc => ih c hc (hlisted.child hc)
      intro x hx
      rw [← hentry] at hx ⊢
      exact hx.throughSlot

end Formula

end FormulaGraph
