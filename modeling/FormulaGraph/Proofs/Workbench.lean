import FormulaGraph.Proofs.RememberedDerivatives

/-!
# A workbench

Formulas come about one by one: a node as it stands or a simple one is built over
formulas that are **at hand**, a part of one is taken, a number is used up for a
table or a guard, a derivative is asked for, and now and then it is told anew which
formulas are held.  Whole passes over a graph do nothing else.

At every moment there is a ledger that accounts for all that is at hand and for all
that is remembered (`Reachable.accounted`).  So what is proved of known formulas
holds of every formula, however it was assembled.
-/

namespace FormulaGraph

open Formula

/-- The formulas at hand, the number free next, and the derivatives remembered. -/
structure Workbench (α : Type) where
  atHand : List (Formula α)
  next : NodeId
  recollection : Recollection α

/-- What can be done at a workbench. -/
inductive Work (α : Type) where
  /-- Builds the node of a shape as it stands. -/
  | node (shape : Shape α (Formula α))
  /-- Builds the simple node for a shape. -/
  | simple (shape : Shape α (Formula α))
  /-- Takes a formula that another one refers to. -/
  | part (of e : Formula α)
  /-- Uses up a number for a table or a guard. -/
  | number
  /-- Takes the derivative with respect to a variable. -/
  | derivative (e : Formula α) (x : NodeId)
  /-- Tells which formulas are held. -/
  | hold (held : List (Formula α))

variable {α : Type} [Scalar α]

namespace Workbench

def start : Workbench α := ⟨[zero, one], firstFree, .empty⟩

/-- The derivative of a formula with respect to a variable, taken now. -/
def derivative (w : Workbench α) (e : Formula α) (x : NodeId) : Formula α :=
  (((differentiate e x).run w.recollection).run w.next).1.1

/-- Puts a formula at hand that is built now. -/
def place (w : Workbench α) (x : Fresh (Formula α)) : Workbench α :=
  { w with atHand := (x.run w.next).1 :: w.atHand, next := (x.run w.next).2 }

/-- The formula frozen now. -/
def frozen (w : Workbench α) (values : NodeId → α) (excluded : List NodeId) (e : Formula α) :
    Formula α :=
  ((e.freeze values excluded).run w.next).1

/-- The formula with others substituted now. -/
def substituted (w : Workbench α) (pairs : List (NodeId × Formula α)) (e : Formula α) :
    Formula α :=
  ((e.substitute pairs).run w.next).1

/-- Work that uses only formulas at hand. -/
def Admits (w : Workbench α) : Work α → Prop
  | .node shape | .simple shape => ∀ r ∈ shape.refs, r ∈ w.atHand
  | .part of e => of ∈ w.atHand ∧ e ∈ of.shape.refs
  | .derivative e _ => e ∈ w.atHand
  | .number | .hold _ => True

def perform (w : Workbench α) : Work α → Workbench α
  | .node shape =>
    let (e, next) := (new shape).run w.next
    { w with atHand := e :: w.atHand, next }
  | .simple shape =>
    let (e, next) := (ofShape shape).run w.next
    { w with atHand := e :: w.atHand, next }
  | .part _ e => { w with atHand := e :: w.atHand }
  | .number => { w with next := w.next + 1 }
  | .derivative e x =>
    let ((d, recollection), next) := ((differentiate e x).run w.recollection).run w.next
    ⟨d :: w.atHand, next, recollection⟩
  | .hold held => { w with recollection := { w.recollection with held } }

/-- Workbenches that come about by work in any order. -/
inductive Reachable : Workbench α → Prop
  | start : Reachable start
  | perform {w : Workbench α} (hw : Reachable w) {a : Work α} (ha : w.Admits a) :
      Reachable (w.perform a)

variable {V : NodeId → Formula α → Formula α → Prop}

/-- The ledger accounts for all formulas at hand and for all derivatives
remembered. -/
structure AccountedBy (V : NodeId → Formula α → Formula α → Prop) (w : Workbench α)
    (L : Ledger α) : Prop where
  next_eq : L.next = w.next
  known : ∀ e ∈ w.atHand, e.KnownTo L
  sound : w.recollection.Sound (IsDerivative V) L

theorem start_accounted : (start : Workbench α).AccountedBy V Ledger.initial where
  next_eq := rfl
  known := by
    intro e he
    rcases List.mem_cons.mp he with rfl | he
    · exact zero_known _
    · rw [List.mem_singleton.mp he]
      exact one_known _
  sound := Recollection.sound_empty

/-- Putting a formula that was built at hand. -/
theorem AccountedBy.place {w : Workbench α} {L : Ledger α} (h : w.AccountedBy V L)
    {x : Fresh (Formula α)} (hx : Builds x L fun L' e => e.KnownTo L') :
    ∃ L', (w.place x).AccountedBy V L' := by
  obtain ⟨L', hL, hnext, he⟩ := hx
  rw [h.next_eq] at hnext he
  refine ⟨L', hnext, ?_, recollection_lasting hL h.sound⟩
  intro d hd
  rcases List.mem_cons.mp hd with rfl | hd
  · exact he
  · exact (h.known d hd).mono hL

/-- One piece of work can be accounted for. -/
theorem AccountedBy.perform (hV : HandedOn V) {w : Workbench α} {L : Ledger α}
    (h : w.AccountedBy V L) {a : Work α} (ha : w.Admits a) :
    ∃ L', (w.perform a).AccountedBy V L' := by
  cases a with
  | node shape => exact h.place (.new fun r hr => h.known r (ha r hr))
  | simple shape => exact h.place (ofShape_known fun r hr => h.known r (ha r hr))
  | part of e =>
      refine ⟨L, h.next_eq, ?_, h.sound⟩
      intro d hd
      rcases List.mem_cons.mp hd with rfl | hd
      · exact (h.known of ha.1).ref ha.2
      · exact h.known d hd
  | number =>
      refine ⟨L.skip, congrArg (· + 1) h.next_eq, ?_,
        recollection_lasting L.extends_skip h.sound⟩
      exact fun e he => (h.known e he).mono L.extends_skip
  | derivative e x =>
      obtain ⟨L', hL, hnext, hsound, hderivative⟩ :=
        differentiate_carries hV (h.known e ha) x w.recollection h.sound
      rw [h.next_eq] at hnext hsound hderivative
      refine ⟨L', hnext, ?_, hsound⟩
      intro d hd
      rcases List.mem_cons.mp hd with rfl | hd
      · exact hderivative.known
      · exact (h.known d hd).mono hL
  | hold held => exact ⟨L, h.next_eq, h.known, h.sound.of_eq rfl rfl⟩

/-- **There is always a ledger.** -/
theorem Reachable.accounted (hV : HandedOn V) {w : Workbench α} (hw : w.Reachable) :
    ∃ L, w.AccountedBy V L := by
  induction hw with
  | start => exact ⟨_, start_accounted⟩
  | perform _ ha ih =>
      obtain ⟨L, hL⟩ := ih
      exact hL.perform hV ha

/-- The derivative of a formula at hand is one to which the rules have handed on. -/
theorem AccountedBy.isDerivative (hV : HandedOn V) {w : Workbench α} {L : Ledger α}
    (h : w.AccountedBy V L) {e : Formula α} (he : e ∈ w.atHand) (x : NodeId) :
    ∃ L' : Ledger α, e.KnownTo L' ∧ IsDerivative V x e L' (w.derivative e x) := by
  obtain ⟨L', hext, _, _, hderivative⟩ :=
    differentiate_carries hV (h.known e he) x w.recollection h.sound
  rw [h.next_eq] at hderivative
  exact ⟨L', (h.known e he).mono hext, hderivative⟩

theorem Reachable.isDerivative (hV : HandedOn V) {w : Workbench α} (hw : w.Reachable)
    {e : Formula α} (he : e ∈ w.atHand) (x : NodeId) :
    ∃ L : Ledger α, e.KnownTo L ∧ IsDerivative V x e L (w.derivative e x) := by
  obtain ⟨L, hL⟩ := hw.accounted hV
  exact hL.isDerivative hV he x

end Workbench

end FormulaGraph
