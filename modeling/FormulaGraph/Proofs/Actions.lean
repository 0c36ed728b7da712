import FormulaGraph.Session

/-!
# Running actions

An action is run on a session and may be refused.  What is done in order is peeled off one action
after the other (`Action.run_bind_ok`, `Action.run_bind_error`).  Building formulas, giving them
labels, reading and setting a variable and evaluating a formula are such steps, and each of them
changes one part of the session.
-/

namespace FormulaGraph

variable {α : Type}

namespace Action

variable {β γ : Type} {x : Action α β} {f : β → Action α γ} {s s' : Session α}

/-- What follows an action that succeeds runs in the session it leaves. -/
theorem run_bind_ok {b : β} (h : x.run.run s = (.ok b, s')) :
    (x >>= f).run.run s = (f b).run.run s' := by
  rw [ExceptT.run_bind, StateT.run_bind, h]
  rfl

/-- What follows an action that fails is not run. -/
theorem run_bind_error {fault : Fault α} (h : x.run.run s = (.error fault, s')) :
    (x >>= f).run.run s = (.error fault, s') := by
  rw [ExceptT.run_bind, StateT.run_bind, h]
  rfl

end Action

/-! ## Numbers and labels -/

namespace Session

/-- The session after the numbers below `n` were drawn. -/
def drawnTo (s : Session α) (n : NodeId) : Session α := { s with nextId := n }

/-- The session after a node was given a label, or lost it; the shared zero and one never have
one. -/
def relabelled (s : Session α) (e : Formula α) (text : Option String) : Session α :=
  if e.id < Formula.firstFree then s
  else
    match text with
    | some t => { s with labels := s.labels.insert e.id t }
    | none => { s with labels := s.labels.erase e.id }

variable {s : Session α} {e : Formula α} {text : Option String} {id : NodeId}

/-- Numbers are drawn up to the given one. -/
@[simp] theorem drawnTo_nextId (n : NodeId) : (s.drawnTo n).nextId = n := rfl

@[simp] theorem drawnTo_labelling (n : NodeId) : (s.drawnTo n).labelling = s.labelling := rfl

/-- Labelling a node draws no number. -/
@[simp] theorem relabelled_nextId : (s.relabelled e text).nextId = s.nextId := by
  unfold relabelled
  split
  · rfl
  · cases text <;> rfl

/-- A node is labelled with the text given, or loses its label if none is; the constants zero
and one are never labelled. -/
theorem labelling_relabelled :
    (s.relabelled e text).labelling id =
      if e.id = id ∧ Formula.firstFree ≤ id then text else s.labelling id := by
  unfold relabelled
  split
  · next hshared =>
      rw [if_neg]
      rintro ⟨rfl, hfree⟩
      exact Nat.not_lt.mpr hfree hshared
  · next hfree =>
      by_cases heq : e.id = id
      · subst heq
        rw [if_pos ⟨rfl, Nat.not_lt.mp hfree⟩]
        cases text <;> simp [labelling]
      · rw [if_neg fun h => heq h.1]
        cases text <;>
          simp [labelling, Std.HashMap.getElem?_insert, Std.HashMap.getElem?_erase, heq]

/-- A node that may be labelled has the label it was given. -/
theorem labelling_relabelled_self (h : Formula.firstFree ≤ e.id) :
    (s.relabelled e text).labelling e.id = text := by
  rw [labelling_relabelled, if_pos ⟨rfl, h⟩]

/-- Labelling a node keeps the labels of all others. -/
theorem labelling_relabelled_of_ne (h : e.id ≠ id) :
    (s.relabelled e text).labelling id = s.labelling id := by
  rw [labelling_relabelled, if_neg fun hand => h hand.1]

end Session

/-- Building draws numbers and changes nothing else. -/
theorem Fresh.lifted_run {β : Type} (x : Fresh β) (s : Session α) :
    (x : Action α β).run.run s = (.ok (x.run s.nextId).1, s.drawnTo (x.run s.nextId).2) := rfl

/-- Setting a label always succeeds, and changes the labels alone. -/
theorem Formula.setLabel_run (e : Formula α) (text : Option String) (s : Session α) :
    (e.setLabel text).run.run s = (.ok (), s.relabelled e text) := by
  unfold setLabel Session.relabelled
  split
  · rfl
  · cases text <;> rfl

/-! ## Variables and values -/

variable [Scalar α]

/-- The session with the values of the variables changed. -/
def Session.write (s : Session α) (v : NodeId) (x : α) : Session α :=
  { s with store := s.store.write v x }

/-- Reading a variable changes nothing. -/
theorem Variable.get_run (v : Variable) (s : Session α) :
    v.get.run.run s = (.ok (s.store.read v.id), s) := rfl

/-- The value of a variable is read from the store. -/
theorem Formula.getValue_run {e : Formula α} (he : e.isVariable = true) (s : Session α) :
    e.getValue.run.run s = (.ok (s.store.read e.id), s) := by
  obtain ⟨id, shape⟩ := e
  cases shape with
  | var name => rfl
  | _ => cases he

/-- A variable is set in the store. -/
theorem Formula.setValue_run {e : Formula α} (he : e.isVariable = true) (x : α)
    (s : Session α) : (e.setValue x).run.run s = (.ok ⟨⟩, s.write e.id x) := by
  obtain ⟨id, shape⟩ := e
  cases shape with
  | var name => rfl
  | _ => cases he

/-- An evaluation changes the store alone, and does not fail. -/
theorem Formula.evaluate_lifted_run (e : Formula α) (s : Session α) :
    (e.evaluate : Action α α).run.run s =
      (.ok (e.evaluate.run s.store).1, { s with store := (e.evaluate.run s.store).2 }) := rfl

end FormulaGraph
