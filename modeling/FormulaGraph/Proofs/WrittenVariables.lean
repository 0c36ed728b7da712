import FormulaGraph.Proofs.LingeringRoots
import FormulaGraph.Proofs.SessionDerivatives
import Mathlib.Control.Monad.Writer

/-!
# What an evaluation writes

An evaluation writes variables on the way: a solver tries values in the variable it binds, and
leaves the root there.  A variable that no solver within the formula binds is kept, whatever the
slots hold, for a slot that is read only leaves something out (`evaluate_keeps`).  A guard may be
any condition, so that it writes nothing is a premise of its own (`QuietGuards`).

What a solver leaves behind when no number is found is the last value it tried, so the search is
run once more with a note taken of every value (`Solver.probing`).  It is the same search, as
forgetting the notes is compatible with everything a search does (`Matching.run`); and the last
note is what the variable holds, since each note is taken of a value just written
(`Solver.getLast_probes`).

A comparison of a derivative with differences sets its variable on its way, and gives it back its
value also where it stops early (`compareWithDifferences_run`).
-/

namespace FormulaGraph

open Formula

variable {α : Type} [Scalar α] {β γ : Type} {v : NodeId}

/-! ## Keeping a variable -/

/-- Whatever the store, the computation leaves the variable as it is. -/
def Keeps (v : NodeId) (x : Evaluation α β) : Prop :=
  ∀ s : Store α, (x.run s).2.read v = s.read v

namespace Keeps

/-- Keeping a variable is a property of all steps of a computation. -/
theorem hereditary (v : NodeId) : Hereditary (m := Evaluation α) (fun _ => Keeps v) where
  pure _ := fun _ => rfl
  bind {_ _ x _} hx hf := fun s => (hf (x.run s).1 (x.run s).2).trans (hx s)

/-- Writing another variable keeps this one. -/
theorem write {w : NodeId} (h : w ≠ v) (x : α) : Keeps v (Evaluation.write w x) := by
  intro s
  show (s.write w x).read v = s.read v
  rw [Store.read_write, Valuation.set, if_neg h.symm]

/-- Answering through a slot keeps what computing the answer keeps. -/
theorem throughSlot (id : NodeId) (g : Generation) {x : Evaluation α α} (hx : Keeps v x) :
    Keeps v (Formula.throughSlot id g x) := by
  intro s
  rw [throughSlot_run]
  split
  · rfl
  · exact hx s

/-- Issuing a generation keeps every variable. -/
theorem nextGeneration {f : Generation → Evaluation α β} (hf : ∀ g, Keeps v (f g)) :
    Keeps v (do f (← Evaluation.nextGeneration)) :=
  (hereditary v).bind (fun _ => rfl) hf

end Keeps

namespace Formula

/-- The guards of the solvers within the formula write nothing. -/
def QuietGuards (e : Formula α) : Prop :=
  e.Everywhere fun _ shape => ∀ q, shape = .solver q →
    ∀ d ∈ q.guard.toList.flatMap (·.2.refs), ∀ g v, Keeps v (evaluateIn g d)

/-- A solver within the formula binds the variable. -/
def BindsWithin (e : Formula α) (v : NodeId) : Prop :=
  ∃ id q, (node id (.solver q)).Within e ∧ q.bound.id = v

/-- The guards within a node are its own and those within its children. -/
theorem quietGuards_node {id : NodeId} {shape : Shape α (Formula α)} :
    (node id shape).QuietGuards ↔ (∀ q, shape = .solver q →
      ∀ d ∈ q.guard.toList.flatMap (·.2.refs), ∀ g v, Keeps v (evaluateIn g d)) ∧
        ∀ c ∈ shape.children, c.QuietGuards :=
  everywhere_node

omit [Scalar α] in
/-- The variables bound within a node are its own and those bound within its children. -/
theorem bindsWithin_node {id : NodeId} {shape : Shape α (Formula α)} :
    (node id shape).BindsWithin v ↔ (∃ q, shape = .solver q ∧ q.bound.id = v) ∨
      ∃ c ∈ shape.children, c.BindsWithin v := by
  refine ⟨?_, ?_⟩
  · rintro ⟨id', q, hwithin, hv⟩
    obtain heq | ⟨c, hc, hwithin⟩ := within_node.mp hwithin
    · cases heq
      exact .inl ⟨q, rfl, hv⟩
    · exact .inr ⟨c, hc, id', q, hwithin, hv⟩
  · rintro (⟨q, rfl, hv⟩ | ⟨c, hc, id', q, hwithin, hv⟩)
    · exact ⟨id, q, .refl _, hv⟩
    · exact ⟨id', q, .child hc hwithin, hv⟩

/-- Without solvers there are no guards. -/
theorem SolverFree.quietGuards {e : Formula α} (he : e.SolverFree) : e.QuietGuards :=
  he.imp fun _ _ h q hq => absurd hq (h q)

/-- **An evaluation keeps the variables that no solver within the formula binds.** -/
theorem evaluateIn_keeps {e : Formula α} (hquiet : e.QuietGuards) (hv : ¬ e.BindsWithin v)
    (g : Generation) : Keeps v (evaluateIn g e) := by
  induction hquiet generalizing g with
  | @node id shape here _ ih =>
      have hchildren : ∀ c ∈ shape.children, ∀ g, Keeps v (evaluateIn g c) := fun c hc =>
        ih c hc fun hbinds => hv (bindsWithin_node.mpr (.inr ⟨c, hc, hbinds⟩))
      have hK := Keeps.hereditary (α := α) v
      by_cases hsolver : ∃ q, shape = .solver q
      · obtain ⟨q, rfl⟩ := hsolver
        have hne : q.bound.id ≠ v := fun h => hv ⟨id, q, .refl _, h⟩
        have hbody := hchildren q.body (by simp [Shape.children, Solver.children])
        have hlow := hchildren q.low (by simp [Shape.children, Solver.children]) g
        have hhigh := hchildren q.high (by simp [Shape.children, Solver.children]) g
        have hprecision := hchildren q.precision (by simp [Shape.children, Solver.children]) g
        rw [evaluateIn_solver]
        refine .throughSlot id g (hK.bind hlow fun _ => hK.bind hhigh fun _ =>
          hK.bind hprecision fun _ => search_of hK ?_ ?_ (Keeps.write hne) _ _ _)
        · intro x
          exact hK.bind (.write hne x) fun _ => .nextGeneration fun trial =>
            hK.condition (hbody trial) fun d hd => here q rfl d hd trial v
        · intro x
          exact hK.bind (.write hne x) fun _ => .nextGeneration hbody
      · exact hK.evaluateIn (fun q hq => hsolver ⟨q, hq⟩) (fun _ _ _ => rfl)
          (fun _ hx => .throughSlot id g hx) fun c hc => hchildren c hc g

/-- A pass of one's own keeps what an evaluation keeps. -/
theorem evaluate_keeps {e : Formula α} (hquiet : e.QuietGuards) (hv : ¬ e.BindsWithin v) :
    Keeps v e.evaluate :=
  .nextGeneration (evaluateIn_keeps hquiet hv)

end Formula

/-! ## Searches that take notes -/

/-- A relation of computations in two monads that holds of the same answer given at once, and of
one computation after another. -/
structure Matching {m n : Type → Type} [Monad m] [Monad n]
    (R : (β : Type) → m β → n β → Prop) : Prop where
  pure : ∀ {β : Type} (b : β), R β (Pure.pure b) (Pure.pure b)
  bind : ∀ {β γ : Type} {x : m β} {x' : n β} {f : β → m γ} {f' : β → n γ},
    R β x x' → (∀ b, R γ (f b) (f' b)) → R γ (x >>= f) (x' >>= f')

namespace Matching

variable {m n : Type → Type} [Monad m] [Monad n] {R : (β : Type) → m β → n β → Prop}
  {past : α → m Bool} {past' : α → n Bool} {value : α → m α} {value' : α → n α}

/-- Searches that ask alike expand alike. -/
theorem expand (hR : Matching R) (hpast : ∀ x, R Bool (past x) (past' x)) (left : Nat)
    (b : Bracket α) (doublings : Nat) :
    R _ (BracketSearch.expand past left b doublings)
      (BracketSearch.expand past' left b doublings) := by
  induction left generalizing b doublings with
  | zero => exact hR.pure _
  | succ left ih =>
      refine hR.bind (hpast b.high) fun found => ?_
      cases found with
      | true => exact hR.pure _
      | false => exact ih _ _

/-- Searches that ask alike bisect alike. -/
theorem bisect (hR : Matching R) (hpast : ∀ x, R Bool (past x) (past' x)) (precision : α)
    (left : Nat) (b : Bracket α) (bisections : Nat) :
    R _ (BracketSearch.bisect past precision left b bisections)
      (BracketSearch.bisect past' precision left b bisections) := by
  induction left generalizing b bisections with
  | zero => exact hR.pure _
  | succ left ih =>
      rw [BracketSearch.bisect, BracketSearch.bisect]
      split
      · dsimp only
        split
        · exact hR.pure _
        · refine hR.bind (hpast _) fun found => ?_
          cases found with
          | true => exact ih _ _
          | false => exact ih _ _
      · exact hR.pure _

/-- Searches match if what they ask does. -/
theorem run (hR : Matching R) (hpast : ∀ x, R Bool (past x) (past' x))
    (hvalue : ∀ x, R α (value x) (value' x)) (low high precision : α) :
    R _ (BracketSearch.run low high precision past value)
      (BracketSearch.run low high precision past' value') := by
  refine hR.bind (hpast low) fun found => ?_
  cases found with
  | true => exact hR.pure _
  | false =>
      refine hR.bind (hR.expand hpast _ _ _) fun expanded => ?_
      rcases expanded with ⟨_ | b, doublings⟩
      · exact hR.pure _
      · refine hR.bind (hR.bisect hpast _ _ _ _) fun _ => ?_
        exact hR.bind (hvalue _) fun _ => hR.bind (hvalue _) fun _ => hR.pure _

end Matching

/-- Asks, and takes a note of what is asked for. -/
def noting (ask : α → Evaluation α β) (x : α) : WriterT (List α) (Evaluation α) β := do
  tell [x]
  ask x

/-- Without its notes, the first computation is the second. -/
def Forgets (y : WriterT (List α) (Evaluation α) β) (x : Evaluation α β) : Prop :=
  ∀ s : Store α, x.run s = ((y.run.run s).1.1, (y.run.run s).2)

omit [Scalar α] in
/-- Forgetting the notes commutes with every step. -/
theorem Forgets.matching : Matching (m := WriterT (List α) (Evaluation α)) (n := Evaluation α)
    (fun _ => Forgets) where
  pure _ := fun _ => rfl
  bind {_ _ y x f f'} hx hf := by
    intro s
    rw [StateT.run_bind, hx s]
    exact hf (y.run.run s).1.1 (y.run.run s).2

omit [Scalar α] in
/-- Noting what is asked does not change the answer. -/
theorem forgets_noting (ask : α → Evaluation α β) (x : α) : Forgets (noting ask x) (ask x) :=
  fun _ => rfl

/-- Of the notes taken so far, the last is what the variable holds; and so it is afterwards. -/
def NotesLast (v : NodeId) (y : WriterT (List α) (Evaluation α) β) : Prop :=
  ∀ (notes : List α) (s : Store α), notes.getLast? = some (s.read v) →
    (notes ++ (y.run.run s).1.2).getLast? = some ((y.run.run s).2.read v)

/-- The last note is the value of the variable, through every step. -/
theorem NotesLast.hereditary (v : NodeId) :
    Hereditary (m := WriterT (List α) (Evaluation α)) (fun _ => NotesLast v) where
  pure _ := by
    intro notes s h
    show (notes ++ []).getLast? = some (s.read v)
    rwa [List.append_nil]
  bind {_ _ y f} hy hf := by
    intro notes s h
    have hrest := hf (y.run.run s).1.1 _ _ (hy notes s h)
    rw [List.append_assoc] at hrest
    exact hrest

/-- Asking notes the value that is written. -/
theorem NotesLast.noting {ask : α → Evaluation α β} (hask : ∀ x (s : Store α),
    ((ask x).run s).2.read v = x) (x : α) : NotesLast v (noting ask x) := by
  intro notes s _
  show (notes ++ [x]).getLast? = some (((ask x).run s).2.read v)
  rw [hask, List.getLast?_append_of_ne_nil _ (by simp)]
  rfl

/-! ## The variable of a solver -/

namespace Solver

variable (q : Solver α (Formula α))

/-- The condition of the search, asked at a trial value. -/
def trialCondition (x : α) : Evaluation α Bool := do
  Evaluation.write q.bound.id x
  let trial ← Evaluation.nextGeneration
  if ← guardHoldsIn trial x q.guard then
    return Scalar.less (← evaluateIn trial q.body) 0
  else
    return false

/-- The value of the body, asked for at a trial value. -/
def trialValue (x : α) : Evaluation α α := do
  Evaluation.write q.bound.id x
  let trial ← Evaluation.nextGeneration
  evaluateIn trial q.body

/-- The bounds and the precision, evaluated in a pass. -/
def bounds (g : Generation) : Evaluation α (α × α × α) := do
  let low ← evaluateIn g q.low
  let high ← evaluateIn g q.high
  let precision ← evaluateIn g q.precision
  return (low, high, precision)

/-- The search between two numbers, with a note taken of every trial value. -/
def probing (low high precision : α) : WriterT (List α) (Evaluation α) (SearchResult α) :=
  BracketSearch.run low high precision (noting q.trialCondition) (noting q.trialValue)

variable {q}

/-- Without its notes, the probing search is the search. -/
theorem forgets_probing (low high precision : α) : Forgets (q.probing low high precision)
    (BracketSearch.run low high precision q.trialCondition q.trialValue) :=
  Forgets.matching.run (forgets_noting _) (forgets_noting _) low high precision

/-- A search probes at least one value. -/
theorem probes_ne_nil (low high precision : α) (s : Store α) :
    ((q.probing low high precision).run.run s).1.2 ≠ [] :=
  List.cons_ne_nil _ _

section

variable (hbody : ∀ g, Keeps q.bound.id (evaluateIn g q.body))
  (hguard : ∀ e ∈ q.guard.toList.flatMap (·.2.refs), ∀ g, Keeps q.bound.id (evaluateIn g e))

include hbody

/-- The trial value stays in the variable, if neither the body nor the guard writes it. -/
theorem read_trialValue (x : α) (s : Store α) :
    ((q.trialValue x).run s).2.read q.bound.id = x := by
  have hkept := Keeps.nextGeneration hbody (s.write q.bound.id x)
  refine hkept.trans ?_
  rw [Store.read_write, Valuation.set, if_pos rfl]

include hguard

/-- A trial leaves its value in the variable. -/
theorem read_trialCondition (x : α) (s : Store α) :
    ((q.trialCondition x).run s).2.read q.bound.id = x := by
  have hcondition : ∀ trial, Keeps q.bound.id _ := fun trial =>
    (Keeps.hereditary q.bound.id).condition (x := x) (hbody trial) fun e he => hguard e he trial
  refine (Keeps.nextGeneration hcondition (s.write q.bound.id x)).trans ?_
  rw [Store.read_write, Valuation.set, if_pos rfl]

/-- After a search, the value probed last is in the variable. -/
theorem getLast_probes (low high precision : α) (s : Store α) :
    ((q.probing low high precision).run.run s).1.2.getLast? =
      some (((q.probing low high precision).run.run s).2.read q.bound.id) := by
  have hlast : NotesLast q.bound.id (q.probing low high precision) :=
    (NotesLast.hereditary q.bound.id).run (.noting (read_trialCondition hbody hguard))
      (.noting (read_trialValue hbody)) low high precision
  have hall := hlast [s.read q.bound.id] s rfl
  rwa [List.getLast?_append_of_ne_nil _ (probes_ne_nil low high precision s)] at hall

end

end Solver

namespace Formula

/-- The root found by a search is left in the variable, if it is a number. -/
theorem search_run (q : Solver α (Formula α)) (low high precision : α) (s : Store α) :
    (search q low high precision).run s =
      let probed := (q.probing low high precision).run.run s
      (probed.1.1.root, if Scalar.isNaN probed.1.1.root then probed.2
        else probed.2.write q.bound.id probed.1.1.root) := by
  have hsearch : search q low high precision = (do
      let found ← BracketSearch.run low high precision q.trialCondition q.trialValue
      if Scalar.isNaN found.root then
        return found.root
      else
        Evaluation.write q.bound.id found.root
        return found.root) := rfl
  rw [hsearch, StateT.run_bind, Solver.forgets_probing low high precision s]
  generalize (q.probing low high precision).run.run s = probed
  show (if Scalar.isNaN probed.1.1.root = true then Pure.pure probed.1.1.root
    else do
      Evaluation.write q.bound.id probed.1.1.root
      Pure.pure probed.1.1.root : Evaluation α α).run probed.2 = _
  by_cases hnan : Scalar.isNaN probed.1.1.root = true
  · simp only [if_pos hnan]
    rfl
  · simp only [if_neg hnan]
    rfl

/-- A solver whose slot does not hold the pass is computed by a search. -/
theorem evaluateIn_solver_run {id : NodeId} {q : Solver α (Formula α)} {g : Generation}
    {s : Store α} (hheld : (s.slot id).holds g = false) :
    (evaluateIn g (node id (.solver q))).run s =
      let bounds := (q.bounds g).run s
      let found := (search q bounds.1.1 bounds.1.2.1 bounds.1.2.2).run bounds.2
      (found.1, found.2.fill id g found.1) := by
  rw [evaluateIn_solver, throughSlot_run_of_unheld hheld]
  rfl

/-- **What a solver leaves in its variable** when it is computed: the root it answers, if that is
a number, and else the value it probed last. -/
theorem solver_leaves {id : NodeId} {q : Solver α (Formula α)} {g : Generation} {s : Store α}
    (hquiet : (node id (.solver q)).QuietGuards) (hbody : ¬ q.body.BindsWithin q.bound.id)
    (hheld : (s.slot id).holds g = false) :
    let bounds := (q.bounds g).run s
    let probed := (q.probing bounds.1.1 bounds.1.2.1 bounds.1.2.2).run.run bounds.2
    let answer := (evaluateIn g (node id (.solver q))).run s
    answer.1 = probed.1.1.root ∧
      (Scalar.isNaN answer.1 = false → answer.2.read q.bound.id = answer.1) ∧
      (Scalar.isNaN answer.1 = true → probed.1.2.getLast? = some (answer.2.read q.bound.id)) := by
  intro bounds probed answer
  have hkept : ∀ g, Keeps q.bound.id (evaluateIn g q.body) := evaluateIn_keeps
    (hquiet.child (c := q.body) (by simp [Formula.children, Shape.children, Solver.children])) hbody
  have hlast := Solver.getLast_probes hkept (fun e he g => hquiet.here q rfl e he g _)
    bounds.1.1 bounds.1.2.1 bounds.1.2.2 bounds.2
  have hanswer := evaluateIn_solver_run (q := q) hheld
  simp only [search_run] at hanswer
  have hroot : answer.1 = probed.1.1.root := congrArg Prod.fst hanswer
  have hread : answer.2.read q.bound.id = (if Scalar.isNaN probed.1.1.root then probed.2
      else probed.2.write q.bound.id probed.1.1.root).read q.bound.id :=
    congrArg (fun r => r.2.read q.bound.id) hanswer
  refine ⟨hroot, read_evaluateIn_solver hheld, fun hnan => ?_⟩
  rw [hread, if_pos (by rwa [← hroot])]
  exact hlast

/-! ## Comparing a derivative with differences -/

section Compare

variable {e derivative : Formula α} {x : Variable}

/-- The store after the evaluations at one point. -/
def compareAt (e derivative : Formula α) (x : Variable) (step point : α) (s : Store α) :
    Store α :=
  let forward := (e.evaluate.run (s.write x.id (point + step))).2
  let backward := (e.evaluate.run (forward.write x.id (point - step))).2
  (derivative.evaluate.run (backward.write x.id point)).2

/-- Comparing with differences keeps all variables but its own. -/
theorem read_compareAt (he : Keeps v e.evaluate) (hd : Keeps v derivative.evaluate)
    (hv : v ≠ x.id) (step point : α) (s : Store α) :
    (compareAt e derivative x step point s).read v = s.read v := by
  have hwrite : ∀ (t : Store α) (y : α), (t.write x.id y).read v = t.read v := fun t y => by
    rw [Store.read_write, Valuation.set, if_neg hv]
  rw [compareAt, hd, hwrite, he, hwrite, he, hwrite]

/-- The comparison answers, whether it ends at the last point or where the difference is
undefined, and changes nothing but the store. -/
theorem compareFrom_run (e derivative : Formula α) (x : Variable) (step : α) (points : List α)
    (worst : α) (s : Session α) :
    ∃ answer store,
      (compareWithDifferences.compareFrom e x step derivative points worst).run.run s =
        (.ok answer, { s with store }) ∧
      ∀ v ≠ x.id, Keeps v e.evaluate → Keeps v derivative.evaluate →
        store.read v = s.store.read v := by
  induction points generalizing worst s with
  | nil => exact ⟨worst, s.store, rfl, fun _ _ _ _ => rfl⟩
  | cons point points ih =>
      have hread := fun v (hv : v ≠ x.id) (he : Keeps v e.evaluate)
        (hd : Keeps v derivative.evaluate) => read_compareAt he hd hv step point s.store
      have hstep : ∃ difference,
          (compareWithDifferences.compareFrom e x step derivative (point :: points) worst).run.run
            s = (if Scalar.isNaN difference then Pure.pure Scalar.nan else
              compareWithDifferences.compareFrom e x step derivative points
                (Scalar.larger worst difference) : Action α α).run.run
                  { s with store := compareAt e derivative x step point s.store } := ⟨_, rfl⟩
      obtain ⟨difference, hstep⟩ := hstep
      rw [hstep]
      by_cases hnan : Scalar.isNaN difference = true
      · rw [if_pos hnan]
        exact ⟨_, _, rfl, hread⟩
      · rw [if_neg hnan]
        obtain ⟨answer, store, hrun, hrest⟩ := ih (Scalar.larger worst difference)
          { s with store := compareAt e derivative x step point s.store }
        exact ⟨answer, store, hrun, fun v hv he hd => (hrest v hv he hd).trans (hread v hv he hd)⟩

/-- A comparison gives the variable its value back. -/
theorem compareWithDifferences_run (e : Formula α) (x : Variable) (points : List α)
    (step tolerance : α) (s : Session α) :
    ∃ answer s', (e.compareWithDifferences x points step tolerance).run.run s = (.ok answer, s') ∧
      s'.store.read x.id = s.store.read x.id ∧
      ∀ v ≠ x.id, Keeps v e.evaluate → Keeps v ((s.bench []).derivative e x.id).evaluate →
        s'.store.read v = s.store.read v := by
  let derivative := (s.bench []).derivative e x.id
  obtain ⟨n, r, hderivative⟩ : ∃ n r, (e.differentiate x.id : Action α (Formula α)).run.run s =
      (.ok derivative, { s with nextId := n, recollection := r }) := ⟨_, _, rfl⟩
  obtain ⟨worst, store, hcompare, hread⟩ :=
    compareFrom_run e derivative x step points 0 { s with nextId := n, recollection := r }
  let saved := s.store.read x.id
  have hrun : (do
      let derivative ← e.differentiate x.id
      let saved ← x.get
      let worst ← compareWithDifferences.compareFrom e x step derivative points 0
      x.set saved
      return (worst, Scalar.less worst tolerance) : Action α (α × Bool)).run.run s =
        (.ok (worst, Scalar.less worst tolerance),
          ⟨n, store.write x.id saved, s.labels, r⟩) := by
    rw [Action.run_bind_ok hderivative, Action.run_bind_ok (x.get_run _),
      Action.run_bind_ok hcompare]
    rfl
  rw [compareWithDifferences, Session.briefly_run, hrun]
  refine ⟨_, _, rfl, ?_, fun v hv he hd => ?_⟩
  · show (store.write x.id saved).read x.id = saved
    rw [Store.read_write, Valuation.set, if_pos rfl]
  · show (store.write x.id saved).read v = s.store.read v
    rw [Store.read_write, Valuation.set, if_neg hv]
    exact hread v hv he hd

end Compare

/-! ## The theorem -/

/-- **An evaluation writes bound variables and no others**, whatever the slots hold, if the guards
write nothing; and a comparison of a derivative with differences changes no others either, for it
gives its variable the value back.  A solver that is computed, with none for the same variable in
its body, leaves the root it answers in its variable, if that is a number, and else the value it
probed last. -/
theorem evaluation_writes_bound :
    (∀ (α : Type) [Scalar α] (e : Formula α) (v : NodeId) (s : Store α), e.QuietGuards →
      ¬ e.BindsWithin v → (e.evaluate.run s).2.read v = s.read v ∧
        ∀ g, ((evaluateIn g e).run s).2.read v = s.read v) ∧
    (∀ (α : Type) [Scalar α] (e : Formula α) (x : Variable) (points : List α)
      (step tolerance : α) (s : Session α),
      let derivative := (s.bench []).derivative e x.id
      e.QuietGuards → derivative.QuietGuards →
      ∃ answer s',
        (e.compareWithDifferences x points step tolerance).run.run s = (.ok answer, s') ∧
        s'.store.read x.id = s.store.read x.id ∧
        ∀ v ≠ x.id, ¬ e.BindsWithin v → ¬ derivative.BindsWithin v →
          s'.store.read v = s.store.read v) ∧
    ∀ (α : Type) [Scalar α] (id : NodeId) (q : Solver α (Formula α)) (g : Generation)
      (s : Store α), (node id (.solver q)).QuietGuards → ¬ q.body.BindsWithin q.bound.id →
      (s.slot id).holds g = false →
      let bounds := (q.bounds g).run s
      let probed := (q.probing bounds.1.1 bounds.1.2.1 bounds.1.2.2).run.run bounds.2
      let answer := (evaluateIn g (node id (.solver q))).run s
      answer.1 = probed.1.1.root ∧
        (Scalar.isNaN answer.1 = false → answer.2.read q.bound.id = answer.1) ∧
        (Scalar.isNaN answer.1 = true →
          probed.1.2.getLast? = some (answer.2.read q.bound.id)) := by
  refine ⟨?_, ?_, fun α _ id q g s => solver_leaves⟩
  · intro α _ e v s hquiet hv
    exact ⟨evaluate_keeps hquiet hv s, fun g => evaluateIn_keeps hquiet hv g s⟩
  · intro α _ e x points step tolerance s derivative he hd
    obtain ⟨answer, s', hrun, hback, hkept⟩ :=
      compareWithDifferences_run e x points step tolerance s
    refine ⟨answer, s', hrun, hback, fun v hv hve hvd => ?_⟩
    exact hkept v hv (evaluate_keeps he hve) (evaluate_keeps hd hvd)

/-- A solver for `t` whose body searches for the root of `5 - u` in every trial, and the square
of a variable that neither of them binds. -/
theorem evaluation_writes_bound_of_nested_solvers :
    let x : Formula Int := node 2 (.var "x")
    let e : Formula Int := node 3 (.unary .square x)
    let low : Formula Int := node 6 (.const 0)
    let high : Formula Int := node 7 (.const 9)
    let five : Formula Int := node 8 (.const 5)
    let innerBody : Formula Int := node 9 (.binary .subtract five (node 5 (.var "u")))
    let inner : Formula Int := node 10 (.solver
      { body := innerBody, bound := ⟨5, "u"⟩, low, high, precision := five, guard := none })
    let outerBody : Formula Int := node 11 (.binary .subtract inner (node 4 (.var "t")))
    let q : Solver Int (Formula Int) :=
      { body := outerBody, bound := ⟨4, "t"⟩, low, high, precision := five, guard := none }
    let outer : Formula Int := node 12 (.solver q)
    let s : Store Int := (Store.empty.write 2 7).write 4 8
    let session : Session Int := { Session.start with nextId := 4, store := s }
    let derivative := (session.bench []).derivative e 2
    ((outer.evaluate.run s).2.read 2 = s.read 2 ∧
      ∀ g, ((evaluateIn g outer).run s).2.read 2 = s.read 2) ∧
    (∃ answer s', (e.compareWithDifferences ⟨2, "x"⟩ [1, 2] 1 1).run.run session =
        (.ok answer, s') ∧ s'.store.read 2 = session.store.read 2 ∧
      ∀ v ≠ 2, ¬ e.BindsWithin v → ¬ derivative.BindsWithin v →
        s'.store.read v = session.store.read v) ∧
    let bounds := (q.bounds 1).run s
    let probed := (q.probing bounds.1.1 bounds.1.2.1 bounds.1.2.2).run.run bounds.2
    let answer := (evaluateIn 1 outer).run s
    answer.1 = probed.1.1.root ∧
      (Scalar.isNaN answer.1 = false → answer.2.read 4 = answer.1) ∧
      (Scalar.isNaN answer.1 = true → probed.1.2.getLast? = some (answer.2.read 4)) := by
  intro x e low high five innerBody inner outerBody q outer s session derivative
  have hquiet : outer.QuietGuards := by
    simp [outer, q, outerBody, inner, innerBody, low, high, five, quietGuards_node,
      Shape.children, Solver.children]
  have hbody : ¬ outerBody.BindsWithin 4 := by
    simp [outerBody, inner, innerBody, low, high, five, bindsWithin_node, Shape.children,
      Solver.children]
  have hkept : ¬ outer.BindsWithin 2 := by
    simp [outer, q, outerBody, inner, innerBody, low, high, five, bindsWithin_node, Shape.children,
      Solver.children]
  have helementary : e.Elementary := by
    refine .node trivial fun c hc => ?_
    obtain rfl : c = x := by simpa [Shape.children] using hc
    exact .node trivial (by simp [Shape.children])
  have hd : derivative.QuietGuards := by
    have hvariable : Workbench.Reachable (α := Int) ⟨[x, zero, one], 3, .empty⟩ :=
      Workbench.Reachable.start.perform (a := .node (.var "x"))
        (by simp [Workbench.Admits, Shape.refs, Shape.children])
    have hw : (session.bench [e, x, zero, one]).Reachable :=
      hvariable.perform (a := .node (.unary .square x))
        (by simp [Workbench.Admits, Shape.refs, Shape.children])
    have hderivative : derivative.Elementary :=
      hw.bequeaths List.mem_cons_self 2 Elementary elementary_inherited helementary
    exact hderivative.solverFree.quietGuards
  have hheld : (s.slot 12).holds 1 = false := by
    show ((Store.empty : Store Int).slot 12).holds 1 = false
    simp [Store.slot, Store.empty, Slot.empty, Slot.holds]
  exact ⟨evaluation_writes_bound.1 Int outer 2 s hquiet hkept,
    evaluation_writes_bound.2.1 Int e ⟨2, "x"⟩ [1, 2] 1 1 session
      helementary.solverFree.quietGuards hd,
    evaluation_writes_bound.2.2 Int 12 q 1 s hquiet hbody hheld⟩

end Formula

end FormulaGraph
