import FormulaGraph.Proofs.Generations
import FormulaGraph.Proofs.Scoping
import FormulaGraph.Proofs.WholeNumbers

/-!
# Solvers have lexical scope

A search writes its trial values into a variable that everybody can read, evaluates
in generations that overwrite the slots of shared nodes, and leaves the variable
changed.  Nevertheless the value that evaluation answers is the one found with an
environment handed down: a formula whose bound variables occur only where they are
bound evaluates to its value, whatever its bound variables held before.

A pass serves a scope: it can be trusted as long as the variables of the scope hold
what they should and every slot that holds the generation of the pass holds a value
that is right **for all values of the other variables** (`Store.Serves`).  A trial
begins a pass that serves the larger scope with the solver's variable in it, and
whatever happens in it, the scope around it is served as before: its variables are
not written, and its slots are at most overwritten with later generations
(`Delivers.trial`).
-/

namespace FormulaGraph

variable {α : Type} [Scalar α] {β γ : Type} {D : Formula.Directory α} {g : Generation}
  {S : Set NodeId} {ρ : Valuation α}

/-- A pass in the generation `g` can evaluate what is scoped in `S` as under `ρ`. -/
structure Store.Serves (D : Formula.Directory α) (g : Generation) (S : Set NodeId)
    (ρ : Valuation α) (s : Store α) : Prop where
  issued : s.Issued
  drawn : g ≤ s.generation
  read : ∀ v ∈ S, s.read v = ρ v
  slot : ∀ id, (s.slot id).holds g = true → ∀ ρ', (∀ v ∈ S, ρ' v = ρ v) →
    (s.slot id).value = (D id).value ρ'

/-- Wherever the scope `S` is served, the computation answers `b`, and `S` is served
afterwards. -/
def Delivers (D : Formula.Directory α) (g : Generation) (S : Set NodeId) (ρ : Valuation α)
    (x : Evaluation α β) (b : β) : Prop :=
  ∀ s : Store α, s.Serves D g S ρ → (x.run s).1 = b ∧ (x.run s).2.Serves D g S ρ

namespace Store

variable {s : Store α}

/-- A pass just begun serves any scope. -/
theorem Issued.serves_next (hs : s.Issued) (hread : ∀ v ∈ S, s.read v = ρ v) :
    (Evaluation.nextGeneration.run s).2.Serves D (s.generation + 1) S ρ where
  issued := hs.next
  drawn := Nat.le_refl _
  read := hread
  slot id hid := absurd hid (hs.not_holds_next id)

/-- Writing a variable that is not in the scope. -/
theorem Serves.write (hs : s.Serves D g S ρ) {v : NodeId} (hv : v ∉ S) (x : α) :
    (s.write v x).Serves D g S ρ where
  issued := hs.issued.write v x
  drawn := hs.drawn
  read := by
    intro w hw
    have hne : w ≠ v := fun h => hv (h ▸ hw)
    rw [read_write, Valuation.set, if_neg hne]
    exact hs.read w hw
  slot := hs.slot

/-- Storing the value of a formula that reads no variables but those of `S`. -/
theorem Serves.fill (hs : s.Serves D g S ρ) {id : NodeId} (hfree : ∀ v, (D id).Free v → v ∈ S) :
    (s.fill id g ((D id).value ρ)).Serves D g S ρ where
  issued := hs.issued.fill hs.drawn id _
  drawn := hs.drawn
  read := hs.read
  slot := by
    intro j hj ρ' hρ'
    rw [slot_fill] at hj ⊢
    by_cases h : id = j
    · subst h
      rw [if_pos rfl]
      exact Formula.value_congr fun v hv => (hρ' v (hfree v hv)).symm
    · rw [if_neg h] at hj ⊢
      exact hs.slot j hj ρ' hρ'

/-- Trusting no slots, a smaller scope is served as well. -/
theorem Serves.narrow (hs : s.Serves D g S ρ) {T : Set NodeId} (h : T ⊆ S) :
    s.Serves D 0 T ρ where
  issued := hs.issued
  drawn := Nat.zero_le _
  read v hv := hs.read v (h hv)
  slot := by simp [Slot.holds]

/-- After a trial the scope around it is served as before. -/
theorem Serves.ofTrial {t : Store α} {trial : Generation} {v : NodeId} {x : α} (hv : v ∉ S)
    (hs : s.Serves D g S ρ) (hadvanced : s.Advanced trial t) (hlater : s.generation < trial)
    (ht : t.Serves D trial (insert v S) (ρ.set v x)) : t.Serves D g S ρ where
  issued := ht.issued
  drawn := Nat.le_trans hs.drawn hadvanced.generation_le
  read := by
    intro w hw
    have hne : w ≠ v := fun h => hv (h ▸ hw)
    rw [ht.read w (Set.mem_insert_of_mem v hw), Valuation.set, if_neg hne]
  slot := by
    intro id hid ρ' hρ'
    have hne : g ≠ trial := Nat.ne_of_lt (Nat.lt_of_le_of_lt hs.drawn hlater)
    have hkept := hadvanced.holds hne hs.drawn hid
    rw [hkept] at hid ⊢
    exact hs.slot id hid ρ' hρ'

end Store

namespace Delivers

theorem answering : Answering (m := Evaluation α) (fun _ => Delivers D g S ρ) :=
  .of_invariant (Store.Serves D g S ρ)

/-- What is answered after what was delivered. -/
theorem answer_bind {x : Evaluation α β} {f : β → Evaluation α γ} {b : β} {c : γ}
    (hx : Delivers D g S ρ x b) (hf : ∀ s : Store α, s.Serves D g S ρ → ((f b).run s).1 = c)
    {s : Store α} (hs : s.Serves D g S ρ) : ((x >>= f).run s).1 = c := by
  obtain ⟨hb, hs'⟩ := hx s hs
  have hrest := hf (x.run s).2 hs'
  rw [← hb] at hrest
  exact hrest

theorem read {v : NodeId} (hv : v ∈ S) : Delivers D g S ρ (Evaluation.read v) (ρ v) :=
  fun _ hs => ⟨hs.read v hv, hs⟩

theorem write {v : NodeId} (hv : v ∉ S) (x : α) :
    Delivers D g S ρ (Evaluation.write v x) PUnit.unit :=
  fun _ hs => ⟨rfl, hs.write hv x⟩

theorem throughSlot {id : NodeId} {x : Evaluation α α} (hfree : ∀ v, (D id).Free v → v ∈ S)
    (hx : Delivers D g S ρ x ((D id).value ρ)) :
    Delivers D g S ρ (Formula.throughSlot id g x) ((D id).value ρ) := by
  intro s hs
  rw [throughSlot_run]
  by_cases hheld : (s.slot id).holds g = true
  · rw [if_pos hheld]
    exact ⟨hs.slot id hheld ρ fun _ _ => rfl, hs⟩
  · obtain ⟨hv, hs'⟩ := hx s hs
    rw [if_neg hheld, hv]
    exact ⟨rfl, hs'.fill hfree⟩

/-- **A trial.**  What a pass in the larger scope answers is what it answers after the
variable was written and the pass begun, and the scope around it is served on. -/
theorem trial {v : NodeId} (hv : v ∉ S) (x : α) {f : Generation → Evaluation α β} {b : β}
    (hadvances : ∀ trial, Advances trial (f trial))
    (hf : ∀ trial, Delivers D trial (insert v S) (ρ.set v x) (f trial) b) :
    Delivers D g S ρ (do Evaluation.write v x; f (← Evaluation.nextGeneration)) b := by
  intro s hs
  have hread : ∀ w ∈ insert v S, (s.write v x).read w = ρ.set v x w := by
    intro w hw
    rw [Store.read_write, Valuation.set, Valuation.set]
    by_cases h : w = v
    · rw [if_pos h, if_pos h]
    · rw [if_neg h, if_neg h]
      exact hs.read w (hw.resolve_left h)
  have hbegun : Store.Serves D (s.generation + 1) (insert v S) (ρ.set v x)
      (Evaluation.nextGeneration.run (s.write v x)).2 :=
    (hs.issued.write v x).serves_next hread
  obtain ⟨hb, hserves⟩ := hf (s.generation + 1) _ hbegun
  have hadvanced := Advances.evaluationProperty.trial (s.generation + 1) v x hadvances s
  exact ⟨hb, hs.ofTrial hv hadvanced (Nat.lt_succ_self _) hserves⟩

end Delivers

namespace Formula

/-- The evaluation of a formula in a pass delivers its value. -/
def DeliversValue (D : Directory α) (S : Set NodeId) (e : Formula α) : Prop :=
  ∀ (g : Generation) (ρ : Valuation α), Delivers D g S ρ (evaluateIn g e) (value ρ e)

theorem guardHoldsIn_delivers {guard : Option (NodeId × Guard α (Formula α))} {x : α}
    (h : ∀ e ∈ guard.toList.flatMap (·.2.refs), DeliversValue D S e) :
    Delivers D g S ρ (guardHoldsIn g x guard) (guardHolds ρ x guard) := by
  match guard with
  | none => exact Delivers.answering.pure _
  | some (_, .custom _) => exact Delivers.answering.pure _
  | some (_, .positive e) =>
      exact Delivers.answering.bind (h e (by simp [Guard.refs]) g ρ) (Delivers.answering.pure _)

/-- The condition of a solver at a trial value. -/
theorem condition_delivers {body : Formula α} {guard : Option (NodeId × Guard α (Formula α))}
    {x : α} (hbody : DeliversValue D S body)
    (hguard : ∀ e ∈ guard.toList.flatMap (·.2.refs), DeliversValue D S e) :
    Delivers D g S ρ (do
      if ← guardHoldsIn g x guard then
        return Scalar.less (← evaluateIn g body) 0
      else
        return false) (guardHolds ρ x guard && Scalar.less (value ρ body) 0) := by
  refine Delivers.answering.bind (guardHoldsIn_delivers hguard) ?_
  cases guardHolds ρ x guard with
  | true => exact Delivers.answering.bind (hbody g ρ) (Delivers.answering.pure _)
  | false => exact Delivers.answering.pure _

/-- The search between two numbers, which leaves its root in the variable. -/
def search (q : Solver α (Formula α)) (low high precision : α) : Evaluation α α := do
  let found ← BracketSearch.run low high precision
    (fun x => do
      Evaluation.write q.bound.id x
      let trial ← Evaluation.nextGeneration
      if ← guardHoldsIn trial x q.guard then
        return Scalar.less (← evaluateIn trial q.body) 0
      else
        return false)
    (fun x => do
      Evaluation.write q.bound.id x
      let trial ← Evaluation.nextGeneration
      evaluateIn trial q.body)
  if Scalar.isNaN found.root then
    return found.root
  else
    Evaluation.write q.bound.id found.root
    return found.root

/-- What holds of the trials of a solver and of leaving the root holds of the search. -/
theorem search_of {K : (β : Type) → Evaluation α β → Prop} (hK : Hereditary K)
    {q : Solver α (Formula α)}
    (hpast : ∀ x, K Bool (do
      Evaluation.write q.bound.id x
      let trial ← Evaluation.nextGeneration
      if ← guardHoldsIn trial x q.guard then
        return Scalar.less (← evaluateIn trial q.body) 0
      else
        return false))
    (hvalue : ∀ x, K α (do
      Evaluation.write q.bound.id x
      let trial ← Evaluation.nextGeneration
      evaluateIn trial q.body))
    (hwrite : ∀ x, K Unit (Evaluation.write q.bound.id x)) (low high precision : α) :
    K α (search q low high precision) := by
  refine hK.bind (hK.run hpast hvalue _ _ _) ?_
  intro found
  split
  · exact hK.pure _
  · exact hK.bind (hwrite _) fun _ => hK.pure _

/-- A solver is computed by a search between its bounds. -/
theorem evaluateIn_solver (g : Generation) (id : NodeId) (q : Solver α (Formula α)) :
    evaluateIn g (node id (.solver q)) = throughSlot id g (do
      let low ← evaluateIn g q.low
      let high ← evaluateIn g q.high
      let precision ← evaluateIn g q.precision
      search q low high precision) := by
  obtain ⟨body, bound, low, high, precision, guard⟩ := q
  rw [evaluateIn]
  rfl

theorem search_delivers {s : Solver α (Formula α)} (hbound : s.bound.id ∉ S)
    (htrial : ∀ c ∈ s.trialParts, DeliversValue D (insert s.bound.id S) c)
    (low high precision : α) :
    Delivers D g S ρ (search s low high precision) (s.rootBetween ρ low high precision) := by
  have hbody := htrial s.body List.mem_cons_self
  have hguard : ∀ e ∈ s.guard.toList.flatMap (·.2.refs),
      DeliversValue D (insert s.bound.id S) e := fun e he => htrial e (List.mem_cons_of_mem _ he)
  have hadvances := Advances.evaluationProperty (α := α)
  refine Delivers.answering.bind (Delivers.answering.run (p := s.isPast ρ) (f := s.bodyAt ρ)
    ?_ ?_ _ _ _) ?_
  · intro x
    exact .trial hbound x
      (fun trial => (hadvances.pass trial).condition (hadvances.evaluateIn s.body trial)
        fun e _ => hadvances.evaluateIn e trial)
      fun trial => condition_delivers hbody hguard
  · intro x
    exact .trial hbound x (fun trial => hadvances.evaluateIn s.body trial)
      fun trial => hbody trial _
  · split
    · exact Delivers.answering.pure _
    · exact Delivers.answering.bind (.write hbound _) (Delivers.answering.pure _)

/-- **Evaluation has lexical scope.**  Where a scope is served, a formula scoped in it
evaluates to its value. -/
theorem evaluateIn_delivers {e : Formula α} (hscoped : e.Scoped S) (hlisted : e.ListedIn D) :
    DeliversValue D S e := by
  induction e using inductionOnRefs generalizing S with
  | h id shape ih =>
      intro g ρ
      have hentry : D id = node id shape := hlisted.entry
      have hpass : ∀ c ∈ shape.passParts, DeliversValue D S c := fun c hc =>
        ih c (Shape.mem_refs_of_mem_passParts hc) (hscoped.pass hc)
          (hlisted.ref (Shape.mem_refs_of_mem_passParts hc))
      have hslot : ∀ x, Delivers D g S ρ x (value ρ (node id shape)) →
          Delivers D g S ρ (throughSlot id g x) (value ρ (node id shape)) := by
        rw [← hentry] at hscoped ⊢
        exact fun _ hx => .throughSlot (fun _ => hscoped.mem_of_free) hx
      by_cases hsolver : ∃ s, shape = .solver s
      · obtain ⟨s, rfl⟩ := hsolver
        have htrial : ∀ c ∈ s.trialParts, DeliversValue D (insert s.bound.id S) c := fun c hc =>
          ih c (Shape.mem_refs_of_mem_trialParts hc) (hscoped.trial rfl hc)
            (hlisted.ref (Shape.mem_refs_of_mem_trialParts hc))
        have hsearch := search_delivers (g := g) (ρ := ρ) (hscoped.bound rfl) htrial
        have hlow := hpass s.low (by simp [Shape.passParts]) g ρ
        have hhigh := hpass s.high (by simp [Shape.passParts]) g ρ
        have hprecision := hpass s.precision (by simp [Shape.passParts]) g ρ
        rw [evaluateIn_solver]
        refine hslot _ (Delivers.answering.bind hlow ?_)
        refine Delivers.answering.bind hhigh ?_
        refine Delivers.answering.bind hprecision ?_
        rw [value_solver]
        exact hsearch _ _ _
      · have hfree : ∀ s, shape ≠ .solver s := fun s hs => hsolver ⟨s, hs⟩
        rw [Shape.passParts_eq_children hfree] at hpass
        exact Delivers.answering.evaluateIn hfree (fun name hname => .read (hscoped.var hname))
          hslot fun c hc => hpass c hc g ρ

/-- In a reachable store, a formula scoped in `S` evaluates to its value under any
assignment that agrees with the store on `S`. -/
theorem evaluate_scoped {e : Formula α} (hscoped : e.Scoped S) (hlisted : e.ListedIn D)
    {s : Store α} (hs : s.Reachable) (hρ : ∀ v ∈ S, s.read v = ρ v) :
    (e.evaluate.run s).1 = e.value ρ :=
  (evaluateIn_delivers hscoped hlisted _ ρ _ (hs.issued.serves_next hρ)).1

/-- Evaluating a formula scoped in `S` leaves the variables of `S` as they are. -/
theorem read_evaluate_scoped {e : Formula α} (hscoped : e.Scoped S) (hlisted : e.ListedIn D)
    {s : Store α} (hs : s.Reachable) {v : NodeId} (hv : v ∈ S) :
    (e.evaluate.run s).2.read v = s.read v :=
  (evaluateIn_delivers hscoped hlisted _ s.read _
    (hs.issued.serves_next fun _ _ => rfl)).2.read v hv

/-- A solver on its own may be scoped in more variables where its bounds are than in its
trials, for nothing follows them in its pass. -/
theorem evaluate_solver {id : NodeId} {q : Solver α (Formula α)} {T : Set NodeId} (hsub : T ⊆ S)
    (hbound : q.bound.id ∉ T) (hpass : ∀ c ∈ (Shape.solver q).passParts, c.Scoped S)
    (htrial : ∀ c ∈ q.trialParts, c.Scoped (insert q.bound.id T))
    (hlisted : (node id (.solver q)).ListedIn D) {s : Store α} (hs : s.Reachable) :
    ((node id (.solver q)).evaluate.run s).1 = value s.read (node id (.solver q)) := by
  have hserves := hs.issued.serves_next (D := D) (S := S) fun v _ => rfl
  have hdelivers : ∀ c ∈ (Shape.solver q).passParts,
      Delivers D (s.generation + 1) S s.read (evaluateIn (s.generation + 1) c) (value s.read c) :=
    fun c hc => evaluateIn_delivers (hpass c hc)
      (hlisted.ref (Shape.mem_refs_of_mem_passParts hc)) _ _
  have hsearch := search_delivers (D := D) (g := 0) (ρ := s.read) hbound fun c hc =>
    evaluateIn_delivers (htrial c hc) (hlisted.ref (Shape.mem_refs_of_mem_trialParts hc))
  have hlow := hdelivers q.low (by simp [Shape.passParts])
  have hhigh := hdelivers q.high (by simp [Shape.passParts])
  have hprecision := hdelivers q.precision (by simp [Shape.passParts])
  rw [hs.issued.evaluate_run fun g => evaluateIn_solver g id q, value_solver]
  refine hlow.answer_bind (fun s₁ h₁ => ?_) hserves
  refine hhigh.answer_bind (fun s₂ h₂ => ?_) h₁
  refine hprecision.answer_bind (fun s₃ h₃ => ?_) h₂
  exact (hsearch _ _ _ s₃ (h₃.narrow hsub)).1

/-! ## What a solver leaves behind -/

/-- An answer that is a number is left in the variable. -/
def LeavesAnswer (v : NodeId) (x : Evaluation α α) : Prop :=
  ∀ s : Store α, Scalar.isNaN (x.run s).1 = false → (x.run s).2.read v = (x.run s).1

theorem LeavesAnswer.bind {v : NodeId} {x : Evaluation α β} {f : β → Evaluation α α}
    (hf : ∀ b, LeavesAnswer v (f b)) : LeavesAnswer v (x >>= f) :=
  fun s => hf (x.run s).1 (x.run s).2

theorem search_leaves (q : Solver α (Formula α)) (low high precision : α) :
    LeavesAnswer q.bound.id (search q low high precision) := by
  refine .bind fun found s => ?_
  by_cases hnan : Scalar.isNaN found.root = true
  · rw [if_pos hnan]
    exact fun hroot => absurd (hnan.symm.trans hroot) (by simp)
  · rw [if_neg hnan]
    intro _
    show (s.write q.bound.id found.root).read q.bound.id = found.root
    rw [Store.read_write, Valuation.set, if_pos rfl]

/-- A solver that finds a root leaves it in its variable, for all who read it later. -/
theorem read_evaluate_solver {s : Store α} (hs : s.Reachable) {id : NodeId}
    {q : Solver α (Formula α)}
    (hroot : Scalar.isNaN ((node id (.solver q)).evaluate.run s).1 = false) :
    ((node id (.solver q)).evaluate.run s).2.read q.bound.id =
      ((node id (.solver q)).evaluate.run s).1 := by
  rw [hs.issued.evaluate_run fun g => evaluateIn_solver g id q] at hroot ⊢
  refine LeavesAnswer.bind (fun low => ?_) _ hroot
  refine .bind fun high => .bind fun precision => ?_
  exact search_leaves q low high precision

/-- Read beside a solver, its variable is the root. -/
theorem evaluate_beside_solver {s : Store α} (hs : s.Reachable) {id i : NodeId}
    {q : Solver α (Formula α)} {name : String} {root : α}
    (hroot : ((node i (.solver q)).evaluate.run s).1 = root) (hnumber : Scalar.isNaN root = false) :
    ((node id (.assoc .add [node i (.solver q), node q.bound.id (.var name)])).evaluate.run s).1 =
      Scalar.sum [root, root] := by
  have hsum : ∀ (args : List (Formula α)) g,
      evaluateIn g (node id (.assoc .add args)) = throughSlot id g (do
        let vs ← evaluateAllIn g args
        return Scalar.sum vs) := by
    intro args g
    rw [evaluateIn]
    · rfl
    · simp
  have hsolver : (evaluateIn (s.generation + 1) (node i (.solver q))).run
      (Evaluation.nextGeneration.run s).2 =
        (root, ((node i (.solver q)).evaluate.run s).2) := Prod.ext hroot rfl
  have hvar : (evaluateIn (s.generation + 1) (node q.bound.id (.var name))).run
      ((node i (.solver q)).evaluate.run s).2 =
        (root, ((node i (.solver q)).evaluate.run s).2) := by
    rw [evaluateIn]
    exact Prod.ext ((read_evaluate_solver hs (hroot ▸ hnumber)).trans hroot) rfl
  have hall := evaluateAllIn_cons_run hsolver (evaluateAllIn_cons_run hvar (by
    rw [evaluateAllIn]
    rfl))
  rw [hs.issued.evaluate_run (hsum _), StateT.run_bind, hall]
  rfl

/-! ## The theorem -/

/-- **Solvers have lexical scope.**  Let the variables bound in a formula occur only in
the trials of solvers that bind them, and no solver in the trials of another that binds
the same variable.  Then the formula evaluates to its value, the one found by searches
with an environment handed down, in every store that evaluations and assignments lead
to and whatever its bound variables hold there. -/
theorem evaluate_lexicallyScoped (D : Directory α) (e : Formula α) (hlisted : e.ListedIn D)
    (hscoped : e.LexicallyScoped) (s : Store α) (hs : s.Reachable) (ρ : Valuation α)
    (hρ : ∀ v, ¬ e.Binds v → ρ v = s.read v) : (e.evaluate.run s).1 = e.value ρ :=
  evaluate_scoped hscoped.scoped hlisted hs fun v hv => (hρ v hv).symm

/-- A solver for `t` whose body searches for the root of `5 - u` in every trial.  Neither
the values `t` and `u` were given nor those an earlier evaluation left there matter. -/
theorem evaluate_nested_solvers :
    let low : Formula Int := node 4 (.const 0)
    let high : Formula Int := node 5 (.const 9)
    let five : Formula Int := node 6 (.const 5)
    let innerBody : Formula Int := node 7 (.binary .subtract five (node 3 (.var "u")))
    let inner : Formula Int := node 8 (.solver
      { body := innerBody, bound := ⟨3, "u"⟩, low, high, precision := five, guard := none })
    let outerBody : Formula Int := node 9 (.binary .subtract inner (node 2 (.var "t")))
    let outer : Formula Int := node 10 (.solver
      { body := outerBody, bound := ⟨2, "t"⟩, low, high, precision := five, guard := none })
    let D : Directory Int := fun id =>
      match id with
      | 2 => node 2 (.var "t")
      | 3 => node 3 (.var "u")
      | 4 => low
      | 5 => high
      | 6 => five
      | 7 => innerBody
      | 8 => inner
      | 9 => outerBody
      | _ => outer
    let s := (outer.evaluate.run ((Store.empty.write 2 8).write 3 1)).2
    outer.LexicallyScoped ∧ outer.ListedIn D ∧ s.Reachable ∧
      (outer.evaluate.run s).1 = outer.value (fun _ => 0) ∧ outer.value (fun _ => 0) = 5 := by
  intro low high five innerBody inner outerBody outer D s
  have hinScope : outer.Scoped ∅ := by
    simp [outer, outerBody, inner, innerBody, low, high, five, scoped_iff, Shape.passParts,
      Solver.trialParts, Shape.children]
  have hscoped : outer.LexicallyScoped := hinScope.lexicallyScoped
  have hlisted : outer.ListedIn D := by
    simp [listedIn_node, D, outer, outerBody, inner, innerBody, low, high, five, Shape.refs,
      Shape.children, Solver.refs, Solver.children, Variable.formula]
  have hwritten : ((Store.empty.write 2 8).write 3 1 : Store Int).Reachable :=
    .write (.write .empty 2 8) 3 1
  have hreachable : s.Reachable := .evaluateIn (.nextGeneration hwritten) outer (Nat.le_refl _)
  refine ⟨hscoped, hlisted, hreachable, ?_, by decide⟩
  refine evaluate_lexicallyScoped D outer hlisted hscoped s hreachable _ ?_
  intro v hv
  have houterBound : v ≠ 2 := fun h => hv (h ▸ binds_bound _ _)
  have hinnerBound : v ≠ 3 := fun h =>
    hv (h ▸ .of_part (.inr List.mem_cons_self) (.of_part (.inl List.mem_cons_self)
      (binds_bound _ _)))
  rw [read_evaluate_scoped hscoped.scoped hlisted hwritten hv, Store.read_write,
    Store.read_write, Valuation.set, Valuation.set, if_neg hinnerBound, if_neg houterBound]
  simp [Store.read, Store.empty]

end Formula

end FormulaGraph
