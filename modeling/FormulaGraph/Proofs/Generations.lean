import FormulaGraph.Proofs.Slots

/-!
# Generation numbers

A generation number is used only after it was drawn, so that no slot ever holds
one that is still to come (`Store.Issued`).  This is what makes a fresh
generation trustworthy: nothing that was ever evaluated, solvers included, can
have left a value under its number.
-/

namespace FormulaGraph

namespace Store

variable {α : Type} [Scalar α]

/-- Slots hold only numbers of generations that were drawn. -/
def Issued (s : Store α) : Prop :=
  ∀ id, (s.slot id).generation ≤ s.generation

/-- Without slots nothing is held. -/
theorem issued_empty : (empty : Store α).Issued := by
  intro id
  simp [empty, slot, Slot.empty]

/-- Writing a variable issues nothing. -/
theorem Issued.write {s : Store α} (hs : s.Issued) (v : NodeId) (x : α) :
    (s.write v x).Issued := hs

/-- A new generation is issued. -/
theorem Issued.next {s : Store α} (hs : s.Issued) :
    Issued (Evaluation.nextGeneration.run s).2 :=
  fun id => Nat.le_succ_of_le (hs id)

/-- Slots are filled in generations that were issued. -/
theorem Issued.fill {s : Store α} (hs : s.Issued) {g : Generation} (hg : g ≤ s.generation)
    (id : NodeId) (v : α) : (s.fill id g v).Issued := by
  intro j
  rw [slot_fill]
  by_cases h : id = j
  · rw [if_pos h]
    exact hg
  · rw [if_neg h]
    exact hs j

/-- The next generation finds nothing in the slots. -/
theorem Issued.not_holds_next {s : Store α} (hs : s.Issued) (id : NodeId) :
    ¬ (s.slot id).holds (s.generation + 1) = true := by
  intro hid
  have hle := hs id
  simp only [Slot.holds, Bool.and_eq_true, beq_iff_eq] at hid
  rw [hid.1] at hle
  exact Nat.not_succ_le_self _ hle

/-- In a pass of its own, what goes through a slot is computed and stored. -/
theorem Issued.evaluate_run {s : Store α} (hs : s.Issued) {e : Formula α}
    {x : Generation → Evaluation α α}
    (h : ∀ g, e.evaluateIn g = Formula.throughSlot e.id g (x g)) :
    e.evaluate.run s =
      (((x (s.generation + 1)).run (Evaluation.nextGeneration.run s).2).1,
        ((x (s.generation + 1)).run (Evaluation.nextGeneration.run s).2).2.fill e.id
          (s.generation + 1)
          ((x (s.generation + 1)).run (Evaluation.nextGeneration.run s).2).1) := by
  show (e.evaluateIn (s.generation + 1)).run (Evaluation.nextGeneration.run s).2 = _
  rw [h, throughSlot_run]
  exact if_neg (hs.not_holds_next e.id)

/-- In a new generation no slot can be wrong, for none is held. -/
theorem Issued.agrees_next {s : Store α} (hs : s.Issued) (D : Formula.Directory α) :
    s.Agrees D (s.generation + 1) :=
  fun id hid => absurd hid (hs.not_holds_next id)

end Store

/-! ## Evaluation draws numbers before it uses them -/

/-- From `s` to `t` numbers were drawn, and slots filled with `g` and with numbers drawn
on the way. -/
structure Store.Advanced {α : Type} [Scalar α] (g : Generation) (s t : Store α) : Prop where
  generation_le : s.generation ≤ t.generation
  slot : ∀ id, t.slot id = s.slot id ∨ (t.slot id).generation = g ∨
    (s.generation < (t.slot id).generation ∧ (t.slot id).generation ≤ t.generation)

namespace Store.Advanced

variable {α : Type} [Scalar α] {g : Generation} {s t u : Store α}

/-- A store is in advance of itself. -/
theorem refl (g : Generation) (s : Store α) : s.Advanced g s :=
  ⟨Nat.le_refl _, fun _ => .inl rfl⟩

/-- Advancing goes on from one store to the next. -/
theorem trans (hst : s.Advanced g t) (htu : t.Advanced g u) : s.Advanced g u := by
  refine ⟨Nat.le_trans hst.generation_le htu.generation_le, ?_⟩
  intro id
  rcases htu.slot id with h | h | ⟨hlt, hle⟩
  · rw [h]
    rcases hst.slot id with h' | h' | ⟨hlt', hle'⟩
    · exact .inl h'
    · exact .inr (.inl h')
    · exact .inr (.inr ⟨hlt', Nat.le_trans hle' htu.generation_le⟩)
  · exact .inr (.inl h)
  · exact .inr (.inr ⟨Nat.lt_of_le_of_lt hst.generation_le hlt, hle⟩)

/-- Filling a slot advances the pass. -/
theorem fill (g : Generation) (s : Store α) (id : NodeId) (v : α) :
    s.Advanced g (s.fill id g v) := by
  refine ⟨Nat.le_refl _, ?_⟩
  intro j
  rw [slot_fill]
  by_cases h : id = j
  · exact .inr (.inl (by rw [if_pos h]; rfl))
  · exact .inl (if_neg h)

/-- A pass in the generation just drawn fills slots with numbers drawn on the way. -/
theorem ofTrial (h : (Evaluation.nextGeneration.run s).2.Advanced (s.generation + 1) t) :
    s.Advanced g t := by
  have hle : s.generation + 1 ≤ t.generation := h.generation_le
  refine ⟨Nat.le_of_succ_le hle, ?_⟩
  intro id
  rcases h.slot id with h' | h' | ⟨hlt, hle'⟩
  · exact .inl h'
  · exact .inr (.inr (by rw [h']; exact ⟨Nat.lt_succ_self _, hle⟩))
  · exact .inr (.inr ⟨Nat.lt_of_succ_lt hlt, hle'⟩)

/-- No slot holds a number that was not drawn. -/
theorem issued (h : s.Advanced g t) (hs : s.Issued) (hg : g ≤ s.generation) : t.Issued := by
  intro id
  rcases h.slot id with h' | h' | ⟨_, hle⟩
  · rw [h']
    exact Nat.le_trans (hs id) h.generation_le
  · rw [h']
    exact Nat.le_trans hg h.generation_le
  · exact hle

/-- A pass in another generation, even with passes of its own within, does not touch the
slots of a generation drawn before unless it overwrites them. -/
theorem holds {g' : Generation} (h : s.Advanced g t) (hne : g' ≠ g) (hdrawn : g' ≤ s.generation)
    {id : NodeId} (ht : (t.slot id).holds g' = true) : t.slot id = s.slot id := by
  have hgen : (t.slot id).generation = g' := by
    simp only [Slot.holds, Bool.and_eq_true, beq_iff_eq] at ht
    exact ht.1
  rcases h.slot id with h' | h' | ⟨hlt, _⟩
  · exact h'
  · exact absurd (hgen.symm.trans h') hne
  · rw [hgen] at hlt
    exact absurd hdrawn (Nat.not_le_of_lt hlt)

end Store.Advanced

variable {α : Type} [Scalar α] {β γ : Type}

/-- Whatever it finds, the computation draws numbers and fills slots with `g` and with
these. -/
def Advances (g : Generation) (x : Evaluation α β) : Prop :=
  ∀ s : Store α, s.Advanced g (x.run s).2

/-- Every evaluation, solvers included, fills slots with its generation and with numbers
drawn on the way. -/
theorem Advances.evaluationProperty : EvaluationProperty (α := α) (fun g _ => Advances g) where
  pass g :=
    { pure := fun _ s => .refl g s
      bind := fun hx hf s => (hx s).trans (hf _ _)
      read := fun _ s => .refl g s
      throughSlot := by
        intro id x hx s
        rw [throughSlot_run]
        split
        · exact .refl g s
        · exact (hx s).trans (.fill g _ id _) }
  write g _ _ := fun _ => ⟨Nat.le_refl _, fun _ => .inl rfl⟩
  nextGeneration _ _ _ hf := fun s => .ofTrial (hf (s.generation + 1) _)

/-- In a generation that was drawn, the computation fills slots with drawn numbers
only, and it takes back none. -/
def KeepsIssued (g : Generation) (x : Evaluation α β) : Prop :=
  ∀ s : Store α, s.Issued → g ≤ s.generation →
    (x.run s).2.Issued ∧ s.generation ≤ (x.run s).2.generation

/-- Evaluation in a drawn generation leaves only drawn numbers in the slots. -/
theorem Formula.evaluateIn_keepsIssued (e : Formula α) (g : Generation) :
    KeepsIssued g (evaluateIn g e) := by
  intro s hs hg
  have hadvanced := Advances.evaluationProperty.evaluateIn e g s
  exact ⟨hadvanced.issued hs hg, hadvanced.generation_le⟩

/-! ## Reachable stores -/

/-- Stores that come about by giving values to variables, drawing numbers, and
evaluating formulas in generations that were drawn, or in none. -/
inductive Store.Reachable : Store α → Prop
  | empty : Reachable Store.empty
  | write {s : Store α} (hs : Reachable s) (v : NodeId) (x : α) : Reachable (s.write v x)
  | nextGeneration {s : Store α} (hs : Reachable s) :
      Reachable (Evaluation.nextGeneration.run s).2
  | evaluateIn {s : Store α} (hs : Reachable s) (e : Formula α) {g : Generation}
      (hg : g ≤ s.generation) : Reachable ((e.evaluateIn g).run s).2

/-- In a store that can be reached all generations are issued. -/
theorem Store.Reachable.issued {s : Store α} (hs : s.Reachable) : s.Issued := by
  induction hs with
  | empty => exact issued_empty
  | write _ v x ih => exact ih.write v x
  | nextGeneration _ ih => exact ih.next
  | evaluateIn _ e hg ih => exact (e.evaluateIn_keepsIssued _ _ ih hg).1

/-- **A pass of its own.**  In a reachable store, whatever is left in the slots,
evaluating a solver-free formula in a fresh generation answers its value at the
present values of the variables. -/
theorem Formula.evaluate_run {D : Directory α} {e : Formula α} (hfree : e.SolverFree)
    (hlisted : e.ListedIn D) {s : Store α} (hs : s.Reachable) :
    (e.evaluate.run s).1 = e.value s.read :=
  (evaluateIn_computes hfree hlisted (Evaluation.nextGeneration.run s).2 rfl
    (hs.issued.agrees_next D)).1

end FormulaGraph
