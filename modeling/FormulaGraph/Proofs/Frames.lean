import FormulaGraph.Proofs.LexicalScope
import FormulaGraph.Proofs.Ledger

/-!
# What an evaluation leaves alone

An evaluation reads and fills the slots of the nodes it comes to, and those have numbers.  Slots
with later numbers it neither sees nor touches (`evaluateIn_staysBelow`), solvers included.  So
what is built on top of a formula may be evaluated around it, however much the evaluation of the
formula itself changes the variables.

The next time a formula is evaluated in a pass, it answers the same, and nothing changes any more
(`evaluateIn_again`).
-/

namespace FormulaGraph

variable {α : Type} [Scalar α] {β : Type} {n : NodeId} {s t u : Store α}

namespace Store

/-- The stores differ in slots from `n` on, if at all. -/
structure AlikeBelow (n : NodeId) (s t : Store α) : Prop where
  read : s.read = t.read
  generation : s.generation = t.generation
  slot : ∀ id < n, s.slot id = t.slot id

/-- A store is like itself. -/
theorem AlikeBelow.refl (n : NodeId) (s : Store α) : s.AlikeBelow n s := ⟨rfl, rfl, fun _ _ => rfl⟩

/-- Likeness below a number is transitive. -/
theorem AlikeBelow.trans (hst : s.AlikeBelow n t) (htu : t.AlikeBelow n u) : s.AlikeBelow n u :=
  ⟨hst.read.trans htu.read, hst.generation.trans htu.generation, fun id hid =>
    (hst.slot id hid).trans (htu.slot id hid)⟩

/-- The same value written into both keeps them alike. -/
theorem AlikeBelow.write (h : s.AlikeBelow n t) (v : NodeId) (x : α) :
    (s.write v x).AlikeBelow n (t.write v x) :=
  ⟨by rw [read_write, read_write, h.read], h.generation, h.slot⟩

/-- The same value stored in a slot of both keeps them alike. -/
theorem AlikeBelow.fill (h : s.AlikeBelow n t) (id : NodeId) (g : Generation) (x : α) :
    (s.fill id g x).AlikeBelow n (t.fill id g x) := by
  refine ⟨h.read, h.generation, fun j hj => ?_⟩
  rw [slot_fill, slot_fill]
  by_cases hid : id = j
  · rw [if_pos hid, if_pos hid, h.slot id (hid ▸ hj)]
  · rw [if_neg hid, if_neg hid, h.slot j hj]

/-- Filling a slot from `n` on. -/
theorem alikeBelow_fill {id : NodeId} (hid : n ≤ id) (s : Store α) (g : Generation) (x : α) :
    (s.fill id g x).AlikeBelow n s := by
  refine ⟨rfl, rfl, fun j hj => ?_⟩
  rw [slot_fill, if_neg (Nat.ne_of_gt (Nat.lt_of_lt_of_le hj hid))]

end Store

/-- The computation neither looks at the slots from `n` on nor fills them. -/
structure StaysBelow (n : NodeId) (x : Evaluation α β) : Prop where
  answer : ∀ {s t : Store α}, s.AlikeBelow n t → (x.run s).1 = (x.run t).1
  alike : ∀ {s t : Store α}, s.AlikeBelow n t → (x.run s).2.AlikeBelow n (x.run t).2
  slot : ∀ (s : Store α), ∀ id ≥ n, (x.run s).2.slot id = s.slot id

namespace StaysBelow

/-- Staying below is kept by sequencing, branching and search. -/
theorem hereditary : Hereditary (m := Evaluation α) (fun _ => StaysBelow n) where
  pure _ := ⟨fun _ => rfl, fun h => h, fun _ _ _ => rfl⟩
  bind {β γ x f} hx hf := by
    refine ⟨fun {s t} h => ?_, fun {s t} h => ?_, fun s id hid => ?_⟩
    · rw [StateT.run_bind, StateT.run_bind]
      show ((f (x.run s).1).run (x.run s).2).1 = ((f (x.run t).1).run (x.run t).2).1
      rw [← hx.answer h]
      exact (hf _).answer (hx.alike h)
    · rw [StateT.run_bind, StateT.run_bind]
      show ((f (x.run s).1).run (x.run s).2).2.AlikeBelow n ((f (x.run t).1).run (x.run t).2).2
      rw [← hx.answer h]
      exact (hf _).alike (hx.alike h)
    · exact ((hf (x.run s).1).slot _ id hid).trans (hx.slot s id hid)

/-- Reading a variable looks at its value alone. -/
theorem read (v : NodeId) : StaysBelow n (Evaluation.read (α := α) v) :=
  ⟨fun h => congrFun h.read v, fun h => h, fun _ _ _ => rfl⟩

/-- Writing a variable changes no slot. -/
theorem write (v : NodeId) (x : α) : StaysBelow n (Evaluation.write v x) :=
  ⟨fun _ => rfl, fun h => h.write v x, fun _ _ _ => rfl⟩

/-- A new generation changes no slot. -/
theorem nextGeneration : StaysBelow n (Evaluation.nextGeneration (α := α)) :=
  ⟨fun h => congrArg (· + 1) h.generation,
    fun h => ⟨h.read, congrArg (· + 1) h.generation, h.slot⟩, fun _ _ _ => rfl⟩

/-- A slot below the number is filled alike in both stores. -/
theorem throughSlot {id : NodeId} (hid : id < n) (g : Generation) {x : Evaluation α α}
    (hx : StaysBelow n x) : StaysBelow n (Formula.throughSlot id g x) := by
  have hslot : ∀ {s t : Store α}, s.AlikeBelow n t → s.slot id = t.slot id := fun h => h.slot id hid
  refine ⟨fun {s t} h => ?_, fun {s t} h => ?_, fun s j hj => ?_⟩
  · rw [throughSlot_run, throughSlot_run, hslot h]
    split
    · rfl
    · exact hx.answer h
  · rw [throughSlot_run, throughSlot_run, hslot h]
    split
    · exact h
    · rw [hx.answer h]
      exact (hx.alike h).fill id g _
  · rw [throughSlot_run]
    split
    · rfl
    · rw [Store.slot_fill, if_neg (Nat.ne_of_lt (Nat.lt_of_lt_of_le hid hj)), hx.slot s j hj]

end StaysBelow

namespace Formula

/-- **An evaluation keeps to the numbers that are known**, and so do the trials of solvers. -/
theorem evaluateIn_staysBelow {L : Ledger α} {e : Formula α} (he : e.KnownTo L) (g : Generation) :
    StaysBelow L.next (evaluateIn g e) := by
  induction e using inductionOnRefs generalizing g with
  | h id shape ih =>
      have hK := StaysBelow.hereditary (α := α) (n := L.next)
      have hslot : ∀ x : Evaluation α α, StaysBelow L.next x →
          StaysBelow L.next (throughSlot id g x) := fun _ => .throughSlot he.id_lt g
      by_cases hsolver : ∃ q, shape = .solver q
      · obtain ⟨q, rfl⟩ := hsolver
        have hpass : ∀ c ∈ (Shape.solver q).passParts, StaysBelow L.next (evaluateIn g c) :=
          fun c hc => ih c (Shape.mem_refs_of_mem_passParts hc)
            (he.ref (Shape.mem_refs_of_mem_passParts hc)) g
        have htrial : ∀ c ∈ q.trialParts, ∀ g, StaysBelow L.next (evaluateIn g c) :=
          fun c hc => ih c (Shape.mem_refs_of_mem_trialParts hc)
            (he.ref (Shape.mem_refs_of_mem_trialParts hc))
        rw [evaluateIn_solver]
        refine hslot _ (hK.bind (hpass _ (by simp [Shape.passParts])) fun low =>
          hK.bind (hpass _ (by simp [Shape.passParts])) fun high =>
          hK.bind (hpass _ (by simp [Shape.passParts])) fun precision => ?_)
        refine search_of hK (fun x => ?_) (fun x => ?_) (fun _ => .write _ _) _ _ _
        · exact hK.bind (.write _ x) fun _ => hK.bind (.nextGeneration (α := α)) fun trial =>
            hK.condition (htrial _ List.mem_cons_self trial) fun e he =>
              htrial e (List.mem_cons_of_mem _ he) trial
        · exact hK.bind (.write _ x) fun _ => hK.bind (.nextGeneration (α := α)) fun trial =>
            htrial _ List.mem_cons_self trial
      · exact hK.evaluateIn (fun q hq => hsolver ⟨q, hq⟩) (fun _ _ => .read id) hslot fun c hc =>
          ih c (Shape.mem_refs_of_mem_children hc) (he.ref (Shape.mem_refs_of_mem_children hc)) g

/-- A node is a leaf, or answers through its slot. -/
theorem evaluateIn_cases (g : Generation) (e : Formula α) :
    (∀ s, ((evaluateIn g e).run s).2 = s) ∨ ∃ x, evaluateIn g e = throughSlot e.id g x := by
  obtain ⟨id, shape⟩ := e
  cases shape with
  | const v => exact .inl fun s => by rw [evaluateIn]; rfl
  | var name => exact .inl fun s => by rw [evaluateIn]; rfl
  | solver q => exact .inr ⟨_, evaluateIn_solver g id q⟩
  | assoc op args => cases op <;> exact .inr ⟨_, rfl⟩
  | _ => exact .inr ⟨_, by rw [evaluateIn]; rfl⟩

/-- **The second time nothing happens.** -/
theorem evaluateIn_again {g : Generation} (hg : g ≠ 0) (e : Formula α) (s : Store α) :
    (evaluateIn g e).run ((evaluateIn g e).run s).2 = (evaluateIn g e).run s := by
  obtain hleaf | ⟨x, hx⟩ := evaluateIn_cases g e
  · rw [hleaf]
  · rw [hx, throughSlot_run, throughSlot_run]
    by_cases hheld : (s.slot e.id).holds g = true
    · rw [if_pos hheld, if_pos hheld]
    · rw [if_neg hheld]
      have hfilled : (((x.run s).2.fill e.id g (x.run s).1).slot e.id).holds g = true := by
        simp [Store.slot_fill, Slot.fill, Slot.holds, hg]
      rw [if_pos hfilled, Store.slot_fill, if_pos rfl]
      rfl

end Formula

end FormulaGraph
