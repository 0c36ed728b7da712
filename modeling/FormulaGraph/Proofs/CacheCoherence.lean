import FormulaGraph.Proofs.Generations
import FormulaGraph.Scalar.Binary64

/-!
# Cached evaluation over whole runs

A run gives values to variables, draws generation numbers, and evaluates formulas
of one directory, in fresh generations, in generations drawn before, or in none.
Passes interleave freely, and every node has one slot, which any of them may
overwrite.

The main result says which answers of a run are the values of the formulas at the
values the variables have at that moment: those of fresh generations and of
generation zero always, and those of a generation drawn before as long as no
variable was written since the generation was first used.

The invariant carried along a run concerns one generation `g` at a time.  Until
`g` is used no slot holds it; from then on, and as long as no variable is
written, every slot that holds it can be trusted.  Both are instances of
`Store.Agrees`, the first because nothing has to be shown.
-/

namespace FormulaGraph

variable {α : Type}

/-- What can be asked of a family of formulas and their variables. -/
inductive Request (α : Type) where
  | write (v : NodeId) (x : α)
  | nextGeneration
  /-- Evaluation in a generation of its own. -/
  | evaluate (e : Formula α)
  | evaluateIn (e : Formula α) (g : Generation)

namespace Request

/-- The numbers drawn after a request, `n` being drawn before.  A pass of its own
draws one. -/
def drawn (n : Generation) : Request α → Generation
  | nextGeneration | evaluate _ => n + 1
  | write _ _ | evaluateIn _ _ => n

def drawnAll (n : Generation) : List (Request α) → Generation
  | [] => n
  | r :: rs => drawnAll (r.drawn n) rs

/-- Whether a request may be made when `n` numbers are drawn: a formula must be
solver-free and listed, a generation must be zero or drawn. -/
def Allowed (D : Formula.Directory α) (n : Generation) : Request α → Prop
  | write _ _ | nextGeneration => True
  | evaluate e => e.SolverFree ∧ e.ListedIn D
  | evaluateIn e g => e.SolverFree ∧ e.ListedIn D ∧ g ≤ n

/-- Whether every request of a run may be made at its turn. -/
def AllAllowed (D : Formula.Directory α) (n : Generation) : List (Request α) → Prop
  | [] => True
  | r :: rs => r.Allowed D n ∧ AllAllowed D (r.drawn n) rs

/-- The values of the variables after a run, by the writes alone. -/
def valuesAfter (ρ : Valuation α) : List (Request α) → Valuation α
  | [] => ρ
  | write v x :: rs => valuesAfter (ρ.set v x) rs
  | _ :: rs => valuesAfter ρ rs

/-- Whether the request evaluates in the generation `g` when `n` numbers are
drawn. -/
def Uses (g n : Generation) : Request α → Prop
  | evaluate _ => g = n + 1
  | evaluateIn _ g' => g = g'
  | write _ _ | nextGeneration => False

def IsWrite : Request α → Prop
  | write _ _ => True
  | nextGeneration | evaluate _ | evaluateIn _ _ => False

/-- No variable is written in the run once `g` has been used. -/
def UnwrittenSinceUse (g n : Generation) : List (Request α) → Prop
  | [] => True
  | r :: rs =>
    (r.Uses g n → ∀ r' ∈ rs, ¬ r'.IsWrite) ∧ UnwrittenSinceUse g (r.drawn n) rs

variable [Scalar α]

/-- The store after a request. -/
def perform (s : Store α) : Request α → Store α
  | write v x => s.write v x
  | nextGeneration => (Evaluation.nextGeneration.run s).2
  | evaluate e => (e.evaluate.run s).2
  | evaluateIn e g => ((e.evaluateIn g).run s).2

/-- The store after a run. -/
def performAll (s : Store α) : List (Request α) → Store α
  | [] => s
  | r :: rs => performAll (r.perform s) rs

/-! ## One request -/

variable {D : Formula.Directory α} {g : Generation} {s : Store α} {r : Request α}

theorem perform_generation (h : r.Allowed D s.generation) :
    (r.perform s).generation = r.drawn s.generation := by
  cases r with
  | write v x => rfl
  | nextGeneration => rfl
  | evaluate e => exact (Formula.evaluateIn_fillsOnly h.1 _).generation
  | evaluateIn e g' => exact (Formula.evaluateIn_fillsOnly h.1 s).generation

theorem perform_issued (h : r.Allowed D s.generation) (hs : s.Issued) : (r.perform s).Issued := by
  cases r with
  | write v x => exact hs.write v x
  | nextGeneration => exact hs.next
  | evaluate e =>
      exact (e.evaluateIn_keepsIssued (s.generation + 1) _ hs.next (Nat.le_refl _)).1
  | evaluateIn e g' => exact (e.evaluateIn_keepsIssued g' s hs h.2.2).1

/-- The values of the variables change by writes, and as these say. -/
theorem perform_read (h : r.Allowed D s.generation) :
    (r.perform s).read = valuesAfter s.read [r] := by
  cases r with
  | write v x => exact s.read_write v x
  | nextGeneration => rfl
  | evaluate e => exact (Formula.evaluateIn_fillsOnly h.1 _).read
  | evaluateIn e g' => exact (Formula.evaluateIn_fillsOnly h.1 s).read

/-- As long as no variable is written, the slots of a generation that can be
trusted can be trusted further on. -/
theorem perform_agrees (h : r.Allowed D s.generation) (hs : s.Issued) (hwrite : ¬ r.IsWrite)
    (hg : s.Agrees D g) : (r.perform s).Agrees D g := by
  cases r with
  | write v x => exact absurd trivial hwrite
  | nextGeneration => exact hg
  | evaluate e =>
      by_cases heq : g = s.generation + 1
      · subst heq
        exact (Formula.evaluateIn_computes h.1 h.2 (Evaluation.nextGeneration.run s).2 rfl
          (hs.agrees_next D)).2.2
      · exact (Formula.evaluateIn_fillsOnly h.1 _).agrees heq hg
  | evaluateIn e g' =>
      by_cases heq : g = g'
      · subst heq
        exact (Formula.evaluateIn_computes h.1 h.2.1 s rfl hg).2.2
      · exact (Formula.evaluateIn_fillsOnly h.1 s).agrees heq hg

/-- A generation that a request does not use stays out of the slots. -/
theorem perform_unheld (h : r.Allowed D s.generation) (huse : ¬ r.Uses g s.generation)
    (hg : ∀ id, (s.slot id).holds g = false) (id : NodeId) :
    ((r.perform s).slot id).holds g = false := by
  have hpass : ∀ {t u : Store α} {g'}, t.Passed g' u → g ≠ g' →
      (∀ id, (t.slot id).holds g = false) → (u.slot id).holds g = false := by
    intro t u g' hpassed hne ht
    apply Bool.eq_false_iff.mpr
    intro hheld
    have heq := hpassed.holds hne hheld
    rw [heq, ht id] at hheld
    exact Bool.noConfusion hheld
  cases r with
  | write v x => exact hg id
  | nextGeneration => exact hg id
  | evaluate e => exact hpass (Formula.evaluateIn_fillsOnly h.1 _) huse hg
  | evaluateIn e g' => exact hpass (Formula.evaluateIn_fillsOnly h.1 s) huse hg

/-! ## Runs -/

variable {rs : List (Request α)}

theorem AllAllowed.tail (h : AllAllowed D s.generation (r :: rs)) :
    AllAllowed D (r.perform s).generation rs := by
  rw [perform_generation h.1]
  exact h.2

theorem performAll_issued (h : AllAllowed D s.generation rs) (hs : s.Issued) :
    (performAll s rs).Issued := by
  induction rs generalizing s with
  | nil => exact hs
  | cons r rs ih => exact ih h.tail (perform_issued h.1 hs)

theorem performAll_read (h : AllAllowed D s.generation rs) :
    (performAll s rs).read = valuesAfter s.read rs := by
  induction rs generalizing s with
  | nil => rfl
  | cons r rs ih =>
      have hr := perform_read h.1
      have hrs := ih h.tail
      rw [hr] at hrs
      cases r <;> exact hrs

theorem performAll_agrees_of_unwritten (h : AllAllowed D s.generation rs) (hs : s.Issued)
    (hwrite : ∀ r ∈ rs, ¬ r.IsWrite) (hg : s.Agrees D g) : (performAll s rs).Agrees D g := by
  induction rs generalizing s with
  | nil => exact hg
  | cons r rs ih =>
      have hr : ¬ r.IsWrite := hwrite r List.mem_cons_self
      exact ih h.tail (perform_issued h.1 hs) (fun r' h' => hwrite r' (List.mem_cons_of_mem r h'))
        (perform_agrees h.1 hs hr hg)

/-- The slots of a generation not used yet can be trusted after any run that
writes no variable once it has used it. -/
theorem performAll_agrees (h : AllAllowed D s.generation rs) (hs : s.Issued)
    (hg : ∀ id, (s.slot id).holds g = false)
    (hunwritten : UnwrittenSinceUse g s.generation rs) : (performAll s rs).Agrees D g := by
  have hvacuous : s.Agrees D g := by
    intro id hheld
    rw [hg id] at hheld
    exact Bool.noConfusion hheld
  induction rs generalizing s with
  | nil => exact hvacuous
  | cons r rs ih =>
      show (performAll (r.perform s) rs).Agrees D g
      have hissued := perform_issued h.1 hs
      by_cases huse : r.Uses g s.generation
      · have hr : ¬ r.IsWrite := by
          intro hw
          cases r <;> simp [Uses, IsWrite] at huse hw
        exact performAll_agrees_of_unwritten h.tail hissued (hunwritten.1 huse)
          (perform_agrees h.1 hs hr hvacuous)
      · have hg' := perform_unheld h.1 huse hg
        have hrest : UnwrittenSinceUse g (r.perform s).generation rs := by
          rw [perform_generation h.1]
          exact hunwritten.2
        refine ih h.tail hissued hg' hrest ?_
        intro id hheld
        rw [hg' id] at hheld
        exact Bool.noConfusion hheld

end Request

variable [Scalar α]

open Request in
/-- **Cache coherence.**  After any run over a family of solver-free formulas that
share nodes in any way, a formula of the family evaluated in a fresh generation,
or in generation zero, answers its value at the values last written; and so it
does in any generation drawn before, if no variable was written since that was
first used, whatever passes came in between. -/
theorem evaluation_after_run (D : Formula.Directory α) (rs : List (Request α))
    (hrs : AllAllowed D 0 rs) (e : Formula α) (hfree : e.SolverFree)
    (hlisted : e.ListedIn D) :
    let s := performAll Store.empty rs
    let v := e.value (valuesAfter (fun _ => 0) rs)
    (e.evaluate.run s).1 = v ∧ ((e.evaluateIn 0).run s).1 = v ∧
      ∀ g, 0 < g → g ≤ drawnAll 0 rs → UnwrittenSinceUse g 0 rs →
        ((e.evaluateIn g).run s).1 = v := by
  intro s v
  have hread : s.read = valuesAfter (fun _ => 0) rs := by
    rw [performAll_read (s := Store.empty) hrs]
    congr
    funext w
    simp [Store.read, Store.empty]
  have hissued : s.Issued := performAll_issued (s := Store.empty) hrs Store.issued_empty
  have hvalue : ∀ {t : Store α} {g}, t.read = s.read → t.Agrees D g →
      ((e.evaluateIn g).run t).1 = v := by
    intro t g ht hg
    exact (Formula.evaluateIn_computes hfree hlisted t (ht.trans hread) hg).1
  refine ⟨?_, ?_, ?_⟩
  · exact hvalue (t := (Evaluation.nextGeneration.run s).2) rfl (hissued.agrees_next D)
  · exact hvalue rfl (s.agrees_zero D)
  · intro g _ _ hunwritten
    refine hvalue rfl (performAll_agrees (s := Store.empty) hrs Store.issued_empty ?_ hunwritten)
    intro id
    cases g <;> simp [Store.empty, Store.slot, Slot.empty, Slot.holds]

open Request in
/-- A generation drawn before may be used again after a write spoiled it; the slot
it overwrites does not mislead the generation that is still good. -/
theorem evaluation_after_spoiled_pass :
    let x : Formula Float := .node 10 (.var "x")
    let e : Formula Float := .node 11 (.unary .square x)
    let D : Formula.Directory Float := fun id => if id = 10 then x else e
    let rs : List (Request Float) :=
      [.write 10 2, .nextGeneration, .evaluateIn e 1, .write 10 3, .nextGeneration,
        .evaluateIn e 2, .evaluateIn e 1]
    AllAllowed D 0 rs ∧ e.SolverFree ∧ e.ListedIn D ∧ 2 ≤ drawnAll 0 rs ∧
      UnwrittenSinceUse 2 0 rs ∧
      ((e.evaluateIn 2).run (performAll Store.empty rs)).1 =
        e.value (valuesAfter (fun _ => 0) rs) := by
  intro x e D rs
  have hx : x.ListedIn D := .node rfl (by simp [Shape.refs, Shape.children])
  have hlisted : e.ListedIn D := .node rfl (by simpa [Shape.refs, Shape.children] using hx)
  have hfree : e.SolverFree := by
    refine .node (by simp) ?_
    simp only [Shape.children, List.mem_singleton, forall_eq]
    exact .node (by simp) (by simp [Shape.children])
  have hrs : AllAllowed D 0 rs :=
    ⟨trivial, trivial, ⟨hfree, hlisted, by decide⟩, trivial, trivial,
      ⟨hfree, hlisted, by decide⟩, ⟨hfree, hlisted, by decide⟩, trivial⟩
  have hunwritten : UnwrittenSinceUse 2 0 rs := by
    simp [UnwrittenSinceUse, rs, Uses, IsWrite]
  have hdrawn : 2 ≤ drawnAll 0 rs := by decide
  exact ⟨hrs, hfree, hlisted, hdrawn, hunwritten,
    (evaluation_after_run D rs hrs e hfree hlisted).2.2 2 (by decide) hdrawn hunwritten⟩

end FormulaGraph
