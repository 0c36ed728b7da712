import FormulaGraph.Proofs.DerivativeBuilding

/-!
# Remembered derivatives can be trusted

A derivative is found again under the number of a node and of a variable, and a
number belongs to one node.  So what holds between a node, a variable and a
derivative when it is remembered (`R`) holds of the derivative recalled, whoever
asked first, whatever was held meanwhile, and whatever was forgotten.

From this and the rules for each kind of node it follows that all derivatives are
as they should be (`derivative_carries`).  The rules enter as what their answers
have to satisfy: `V x e d` may say anything about a derivative `d` of `e` for the
variable `x` that the rules hand on from the children (`HandedOn`).  Besides, a
derivative inherits from the formula it is taken of: it has no table, no solver, no
variable of a kind the formula is free of.
-/

namespace FormulaGraph

variable {α : Type} [Scalar α] {L L' : Ledger α}

/-! ## The memory -/

/-- What is remembered for a number is a derivative of a node that bears it. -/
structure Recollection.Sound (R : NodeId → Formula α → Ledger α → Formula α → Prop)
    (L : Ledger α) (r : Recollection α) : Prop where
  kept : ∀ (id x : NodeId) (d : Formula α), (x, d) ∈ r.keptWith id →
    ∃ e, e.KnownTo L ∧ e.id = id ∧ R x e L d
  transient : ∀ (id x : NodeId) (d : Formula α), r.transient[(id, x)]? = some d →
    ∃ e, e.KnownTo L ∧ e.id = id ∧ R x e L d

namespace Recollection

variable {R : NodeId → Formula α → Ledger α → Formula α → Prop} {r : Recollection α}

/-- An empty memory is sound. -/
theorem sound_empty : (empty : Recollection α).Sound R L := by
  refine ⟨?_, ?_⟩
  · intro id x d h
    simp [empty, keptWith] at h
  · intro id x d h
    simp [empty] at h

/-- A sound memory stays sound while more is built. -/
theorem sound_lasting (hR : ∀ x e, Lasting (R x e)) : Lasting (Sound R) := by
  intro L L' r hL h
  refine ⟨?_, ?_⟩
  · intro id x d hd
    obtain ⟨e, hknown, hid, hrel⟩ := h.kept id x d hd
    exact ⟨e, hknown.mono hL, hid, hR x e hL hrel⟩
  · intro id x d hd
    obtain ⟨e, hknown, hid, hrel⟩ := h.transient id x d hd
    exact ⟨e, hknown.mono hL, hid, hR x e hL hrel⟩

/-- What is held, and where a derivative was begun, is beside the point. -/
theorem Sound.of_eq {r' : Recollection α} (h : r.Sound R L) (hkept : r'.kept = r.kept)
    (htransient : r'.transient = r.transient) : r'.Sound R L := by
  refine ⟨?_, ?_⟩
  · intro id x d hd
    rw [keptWith, hkept] at hd
    exact h.kept id x d hd
  · intro id x d hd
    rw [htransient] at hd
    exact h.transient id x d hd

/-- A derivative of a known formula may be kept. -/
theorem Sound.keep (h : r.Sound R L) {e d : Formula α} {x : NodeId} (he : e.KnownTo L)
    (hd : R x e L d) : (r.keep e.id x d).Sound R L := by
  have hinsert : Sound R L { r with kept := r.kept.insert e.id ((x, d) :: r.keptWith e.id) } := by
    refine ⟨?_, h.transient⟩
    intro id y d' hd'
    rw [keptWith, Std.HashMap.getD_insert] at hd'
    by_cases hid : e.id = id
    · rw [if_pos (beq_iff_eq.mpr hid)] at hd'
      rcases List.mem_cons.mp hd' with hnew | hold
      · cases hnew
        exact ⟨e, he, hid, hd⟩
      · exact h.kept id y d' (hid ▸ hold)
    · rw [if_neg (by simpa using hid)] at hd'
      exact h.kept id y d' hd'
  rw [Recollection.keep]
  split
  · exact hinsert.of_eq rfl rfl
  · exact hinsert

/-- A derivative of a known formula may be kept while the formula is in use. -/
theorem Sound.keepWhileInUse (h : r.Sound R L) {e d : Formula α} {x : NodeId}
    (he : e.KnownTo L) (hd : R x e L d) : (r.keepWhileInUse e.id x d).Sound R L := by
  refine ⟨h.kept, ?_⟩
  intro id y d' hd'
  rw [Recollection.keepWhileInUse, Std.HashMap.getElem?_insert] at hd'
  by_cases hid : (e.id, x) = (id, y)
  · rw [if_pos (beq_iff_eq.mpr hid)] at hd'
    cases hid
    rw [← Option.some.inj hd']
    exact ⟨e, he, rfl, hd⟩
  · rw [if_neg (by simpa using hid)] at hd'
    exact h.transient id y d' hd'

/-- Recalling changes nothing that is remembered, and recalls some of it. -/
theorem Sound.remembered (h : r.Sound R L) (id x : NodeId) :
    Sound R L (remembered? id x r).2 ∧
      ∀ d ∈ (remembered? id x r).1, ∃ e, e.KnownTo L ∧ e.id = id ∧ R x e L d := by
  unfold remembered?
  split
  · next _ d hlookup =>
      obtain ⟨before, after, hsplit, _⟩ := List.lookup_eq_some_iff.mp hlookup
      have hmem : (x, d) ∈ r.keptWith id := by simp [hsplit]
      refine ⟨h, ?_⟩
      intro _ heq
      obtain ⟨rfl⟩ := heq
      exact h.kept id x d hmem
  · next d _ hfound =>
      split
      · refine ⟨h.of_eq rfl rfl, ?_⟩
        intro _ heq
        obtain ⟨rfl⟩ := heq
        exact h.transient id x d hfound
      · exact ⟨h, by simp⟩
  · exact ⟨h, by simp⟩

end Recollection

/-! ## Derivatives handed on -/

namespace Shape

/-- Neither a table nor a solver. -/
def IsElementary : Shape α (Formula α) → Prop
  | .tabulated .. | .solver _ => False
  | _ => True

end Shape

namespace Formula

/-- Neither a table nor a solver is within the formula. -/
abbrev Elementary : Formula α → Prop :=
  Everywhere fun _ shape => shape.IsElementary

omit [Scalar α] in
/-- Elementary formulas have no solvers. -/
theorem Elementary.solverFree {e : Formula α} (he : e.Elementary) : e.SolverFree := by
  refine he.imp ?_
  intro _ _ here s heq
  obtain rfl := heq
  exact here

/-- Properties that a derivative has from the formula it is taken of: besides being one of
operations, it passes from a table to what the derivative of the table is made of, and is
not one of solvers. -/
structure Inherited (A : Formula α → Prop) : Prop extends AdmitsOperations A where
  tabulated : ∀ {id mark : NodeId} {t a}, A (node id (.tabulated mark t a)) →
    A a ∧ (∀ d ∈ t.derivative, A d) ∧
      (t.derivative = none → ∀ id mark, A (node id (.tabulated mark t.finiteDifference a)))
  solver : ∀ {id s}, ¬ A (node id (.solver s))

/-- Whatever can be inherited from `e`, the formula `d` has it. -/
def Bequeaths (e d : Formula α) : Prop := ∀ A, Inherited A → A e → A d

/-- What is remembered of a derivative. -/
structure IsDerivative (V : NodeId → Formula α → Formula α → Prop) (x : NodeId)
    (e : Formula α) (L : Ledger α) (d : Formula α) : Prop where
  known : d.KnownTo L
  inherits : e.Bequeaths d
  handedOn : V x e d

/-- The terms are what the arguments contribute, for some derivatives of theirs. -/
inductive DerivativeTerms (V : NodeId → Formula α → Formula α → Prop) (x : NodeId)
    (op : AssocOp) : (before args terms : List (Formula α)) → Prop
  | nil {before : List (Formula α)} : DerivativeTerms V x op before [] []
  | cons {before args terms : List (Formula α)} {e d : Formula α} (hd : V x e d) (n : NodeId)
      (rest : DerivativeTerms V x op (before ++ [e]) args terms) :
      DerivativeTerms V x op before (e :: args)
        (((derivativeTerm op before e args d).run n).1 :: terms)

/-- The rules for each kind of node hand on `V` from the derivatives of the children
to that of the node. -/
structure HandedOn (V : NodeId → Formula α → Formula α → Prop) : Prop where
  const : ∀ x id v, V x (node id (.const v)) zero
  var_self : ∀ x name, V x (node x (.var name)) one
  var_other : ∀ x id name, id ≠ x → V x (node id (.var name)) zero
  unary : ∀ {x id op a d}, V x a d → Yields (unaryDerivative (node id (.unary op a)) op a d)
    (V x (node id (.unary op a)))
  binary : ∀ {x id op a b da db}, V x a da → V x b db →
    Yields (binaryDerivative op a b da db) (V x (node id (.binary op a b)))
  assoc : ∀ {x id op args terms}, DerivativeTerms V x op [] args terms →
    Yields (assocDerivative (node id (.assoc op args)) op terms) (V x (node id (.assoc op args)))
  conditional : ∀ {x id op c a b da db}, V x a da → V x b db →
    Yields (conditional op c da db) (V x (node id (.conditional op c a b)))
  tabulated : ∀ {x id mark t a d}, V x a d →
    Yields (tabulatedDerivative t a d) (V x (node id (.tabulated mark t a)))
  solver_bound : ∀ {id s}, V s.bound.id (node id (.solver s)) zero
  solver_level : ∀ {x id s d}, V x s.body d → d.isConstantValue 0 = true →
    V x (node id (.solver s)) zero
  solver_slope : ∀ {x id s d d'} {L : Ledger α}, (node id (.solver s)).KnownTo L →
    s.bound.id ≠ x → d.isConstantValue 0 = false → IsDerivative V x s.body L d →
    IsDerivative V s.bound.id s.body L d' →
    Builds (rootSlope (node id (.solver s)) s.bound.id d d') L fun _ => V x (node id (.solver s))

/-- Any two formulas are derivatives of each other as far as nothing is asked of them. -/
theorem trivial_handedOn :
    HandedOn (fun _ _ _ => True : NodeId → Formula α → Formula α → Prop) where
  const _ _ _ := trivial
  var_self _ _ := trivial
  var_other _ _ _ _ := trivial
  unary _ _ := trivial
  binary _ _ _ := trivial
  assoc _ _ := trivial
  conditional _ _ _ := trivial
  tabulated _ _ := trivial
  solver_bound := trivial
  solver_level _ _ := trivial
  solver_slope he _ _ hd hd' :=
    (rootSlope_builds _ he hd.known hd'.known).mono fun _ _ _ _ => trivial

variable {V : NodeId → Formula α → Formula α → Prop}

/-- A derivative stays one while more is built. -/
theorem isDerivative_lasting (x : NodeId) (e : Formula α) : Lasting (IsDerivative V x e) :=
  fun _ _ _ hL h => ⟨h.known.mono hL, h.inherits, h.handedOn⟩

/-- A sound memory of derivatives stays sound while more is built. -/
theorem recollection_lasting :
    Lasting (Recollection.Sound (IsDerivative V) : Ledger α → Recollection α → Prop) :=
  Recollection.sound_lasting isDerivative_lasting

/-- A derivative recalled is one of this node, since no other bears its number. -/
theorem recollect_carries {e : Formula α} (he : e.KnownTo L) {x : NodeId}
    {build : Differentiation α (Formula α)}
    (hbuild : Carries (Recollection.Sound (IsDerivative V)) build L (IsDerivative V x e)) :
    Carries (Recollection.Sound (IsDerivative V)) (recollect e x build) L
      (IsDerivative V x e) := by
  rw [recollect]
  refine .bind (.of_modifyGet
    (P := fun L' (found : Option (Formula α)) => L' = L ∧ ∀ d ∈ found, IsDerivative V x e L d)
    ?_) ?_
  · intro r hr
    obtain ⟨hsound, hfound⟩ := hr.remembered e.id x
    refine ⟨hsound, rfl, ?_⟩
    intro d hd
    obtain ⟨e', he', hid, hderivative⟩ := hfound d hd
    rwa [← he'.eq_of_id_eq he hid]
  · intro L' found hL hboth
    obtain ⟨rfl, hfound⟩ := hboth
    cases found with
    | some d => exact .pure (hfound d rfl)
    | none =>
        refine .bind hbuild ?_
        intro L'' d hL' hd
        refine .bind (.of_modify (P := fun L₃ _ => L₃ = L'') ?_ rfl) ?_
        · intro r hr
          split
          · exact hr.keepWhileInUse (he.mono hL') hd
          · exact hr.keep (he.mono hL') hd
        · intro L₃ _ _ heq
          obtain rfl := heq
          exact .pure hd

/-- Holding a formula meanwhile changes nothing that is remembered. -/
theorem holding_carries {β : Type} {e : Formula α} {x : Differentiation α β}
    {P : Ledger α → β → Prop} (hx : Carries (Recollection.Sound (IsDerivative V)) x L P) :
    Carries (Recollection.Sound (IsDerivative V)) (Differentiation.holding e x) L P := by
  rw [Differentiation.holding]
  refine .bind (.of_get (P := fun L' _ => L' = L) fun _ _ => rfl) ?_
  intro L' r _ heq
  obtain rfl := heq
  refine .bind (.of_modify (P := fun L₁ _ => L₁ = L') (fun r hr => hr.of_eq rfl rfl) rfl) ?_
  intro L₁ _ _ heq
  obtain rfl := heq
  refine .bind hx ?_
  intro L₂ b _ hb
  refine .bind (.of_modify (P := fun L₃ _ => L₃ = L₂) (fun r hr => hr.of_eq rfl rfl) rfl) ?_
  intro L₃ _ _ heq
  obtain rfl := heq
  exact .pure hb

/-! ## All derivatives -/

/-- Derivatives of elementary formulas are elementary. -/
theorem elementary_inherited : Inherited (Elementary (α := α)) where
  toAdmitsOperations := everywhere_admitsOperations (fun _ _ => trivial) fun _ shape hshape => by
    cases shape with
    | tabulated mark t a => exact hshape.elim
    | solver s => exact hshape.elim
    | _ => trivial
  tabulated h := h.here.elim
  solver h := h.here

/-- What all parts satisfy is inherited, if operations satisfy it, a table of differences
does where the table does, and solvers do not. -/
theorem throughout_inherited {B : NodeId → Shape α (Formula α) → Prop}
    (hconst : ∀ id v, B id (.const v)) (hoperation : ∀ id shape, shape.IsOperation → B id shape)
    (hdifferences : ∀ id mark t a, B id (.tabulated mark t a) →
      ∀ id mark, B id (.tabulated mark t.finiteDifference a))
    (hsolver : ∀ id s, ¬ B id (.solver s)) : Inherited (Throughout B) where
  const id v := .node (hconst id v) (by simp [Shape.refs, Shape.children])
  operation hshape := by
    rw [← refs_of_isOperation hshape]
    exact ⟨fun h r hr => h.ref hr, fun h => .node (hoperation _ _ hshape) h⟩
  tabulated {id mark t a} h := by
    have ha : a.Throughout B := h.ref List.mem_cons_self
    refine ⟨ha, fun d hd => h.ref (by simpa [Shape.refs] using .inr hd), fun _ id' mark' => ?_⟩
    refine .node (hdifferences id mark t a h.here id' mark') ?_
    simpa [Shape.refs, Table.finiteDifference] using ha
  solver h := hsolver _ _ h.here

/-- Derivatives of formulas without solvers have none. -/
theorem solverless_inherited : Inherited (Solverless (α := α)) :=
  throughout_inherited (by simp) (by rintro _ _ hshape s rfl; exact hshape) (by simp) (by simp)

/-- The remembered derivative of an elementary formula is elementary. -/
theorem IsDerivative.elementary {x : NodeId} {e d : Formula α} (h : IsDerivative V x e L d)
    (he : e.Elementary) : d.Elementary :=
  h.inherits _ elementary_inherited he

/-- What a formula passes on to its derivative respects operations. -/
theorem Bequeaths.admitsOperations (e : Formula α) : AdmitsOperations e.Bequeaths where
  const id v _ hA _ := hA.const id v
  operation hshape :=
    ⟨fun h c hc A hA he => (hA.operation hshape).mp (h A hA he) c hc,
      fun h A hA he => (hA.operation hshape).mpr fun c hc => h c hc A hA he⟩

/-- Passing on goes from one formula to the next. -/
theorem Bequeaths.trans {e c d : Formula α} (h : e.Bequeaths c) (h' : c.Bequeaths d) :
    e.Bequeaths d :=
  fun A hA he => h' A hA (h A hA he)

/-- A child inherits from its node; a solver has nothing to bequeath. -/
theorem bequeaths_child {e c : Formula α} (hc : c ∈ e.children) : e.Bequeaths c := by
  intro A hA he
  obtain ⟨id, shape⟩ := e
  have hoperation : shape.IsOperation → A c := fun h => (hA.operation h).mp he c hc
  cases shape with
  | tabulated mark t a =>
      rw [List.mem_singleton.mp hc]
      exact (hA.tabulated he).1
  | solver s => exact absurd he hA.solver
  | const v => cases hc
  | var name => cases hc
  | _ => exact hoperation trivial

/-- What is built of members and handed on is a derivative. -/
theorem isDerivative_of_builds {e : Formula α} {x : NodeId} {build : Fresh (Formula α)}
    (hbuild : Builds build L fun L' d => d.Member e.Bequeaths L')
    (hV : Yields build (V x e)) : Builds build L (IsDerivative V x e) :=
  (hbuild.and_yields hV).mono fun _ _ _ h => ⟨h.1.known, h.1.holds, h.2⟩

/-- Zero is a derivative, where it is one in value. -/
theorem isDerivative_zero {e : Formula α} {x : NodeId} (h : V x e zero) :
    IsDerivative V x e L zero :=
  ⟨zero_known L, (zero_member (Bequeaths.admitsOperations e) (L := L)).holds, h⟩

/-- One is a derivative, where it is one in value. -/
theorem isDerivative_one {e : Formula α} {x : NodeId} (h : V x e one) :
    IsDerivative V x e L one :=
  ⟨one_known L, (one_member (Bequeaths.admitsOperations e) (L := L)).holds, h⟩

/-- The derivative of a variable is one or zero. -/
theorem isDerivative_var (hV : HandedOn V) (x id : NodeId) (name : String) :
    IsDerivative V x (node id (.var name)) L (if id = x then one else zero) := by
  by_cases hid : id = x
  · rw [if_pos hid]
    exact isDerivative_one (hid ▸ hV.var_self id name)
  · rw [if_neg hid]
    exact isDerivative_zero (hV.var_other x id name hid)

/-- The derivative of a child, seen from the node. -/
theorem IsDerivative.member {e c d : Formula α} {x : NodeId} (h : IsDerivative V x c L d)
    (hc : c ∈ e.children) : d.Member e.Bequeaths L :=
  ⟨h.known, Bequeaths.trans (bequeaths_child hc) h.inherits⟩

/-- The terms of an operation, one argument after the other. -/
theorem derivativeTerms_carries {e₀ : Formula α} {x : NodeId} {op : AssocOp}
    {before args : List (Formula α)}
    (hderivative : ∀ a ∈ args, ∀ L : Ledger α, a.KnownTo L →
      Carries (Recollection.Sound (IsDerivative V)) (derivative x a) L (IsDerivative V x a))
    (hbefore : ∀ a ∈ before, a.Member e₀.Bequeaths L)
    (hargs : ∀ a ∈ args, a.Member e₀.Bequeaths L) :
    Carries (Recollection.Sound (IsDerivative V)) (derivativeTerms x op before args) L
      fun L' terms => (∀ t ∈ terms, t.Member e₀.Bequeaths L') ∧
        DerivativeTerms V x op before args terms := by
  induction args generalizing before L with
  | nil => exact .pure ⟨by simp, .nil⟩
  | cons e es ih =>
      have he := hargs e List.mem_cons_self
      have hes : ∀ a ∈ es, a.Member e₀.Bequeaths L := fun a ha =>
        hargs a (List.mem_cons_of_mem e ha)
      rw [derivativeTerms]
      refine .bind (hderivative e List.mem_cons_self L he.known) ?_
      intro L₁ d hL₁ hd
      have hdMember : d.Member e₀.Bequeaths L₁ :=
        ⟨hd.known, Bequeaths.trans he.holds hd.inherits⟩
      have hterm := (derivativeTerm_builds (Bequeaths.admitsOperations e₀) op
        (Member.all_mono hbefore hL₁) (he.mono hL₁) (Member.all_mono hes hL₁)
        hdMember).and_yields (R := fun t => ∃ n, t = ((derivativeTerm op before e es d).run n).1)
        fun n => ⟨n, rfl⟩
      refine .bind (.lift recollection_lasting hterm) ?_
      intro L₂ _ hL₂ hfound
      obtain ⟨ht, n, rfl⟩ := hfound
      have hL := hL₁.trans hL₂
      refine .bind (holding_carries (ih (fun a ha => hderivative a (List.mem_cons_of_mem e ha))
        (List.forall_mem_append.mpr ⟨Member.all_mono hbefore hL, by simpa using he.mono hL⟩)
        (Member.all_mono hes hL))) ?_
      intro L₃ terms hL₃ hboth
      obtain ⟨hterms, hrest⟩ := hboth
      exact .pure ⟨by simpa using ⟨ht.mono hL₃, hterms⟩, .cons hd.handedOn n hrest⟩

/-- The derivative of a node by the rule for its shape. -/
theorem shapeDerivative_carries (hV : HandedOn V) {id : NodeId} {shape : Shape α (Formula α)}
    (ih : ∀ r ∈ shape.refs, ∀ (x : NodeId) (L : Ledger α), r.KnownTo L →
      Carries (Recollection.Sound (IsDerivative V)) (derivative x r) L (IsDerivative V x r))
    {x : NodeId} (he : (node id shape).KnownTo L) :
    Carries (Recollection.Sound (IsDerivative V)) (shapeDerivative x (node id shape) shape) L
      (IsDerivative V x (node id shape)) := by
  have hA := Bequeaths.admitsOperations (node id shape)
  have hself : (node id shape).Member (node id shape).Bequeaths L := ⟨he, fun _ _ h => h⟩
  have hchild : ∀ c ∈ shape.children,
      c.Member (node id shape).Bequeaths L := fun c hc => ⟨he.child hc, bequeaths_child hc⟩
  cases shape with
  | const v => exact .pure (isDerivative_zero (hV.const x id v))
  | var name => exact .pure (isDerivative_var hV x id name)
  | unary op a =>
      have ha : a ∈ (node id (.unary op a)).children := List.mem_singleton_self a
      refine .bind (ih a ha x L (he.child ha)) fun L' d hL hd => ?_
      refine .lift recollection_lasting (isDerivative_of_builds ?_ (hV.unary hd.handedOn))
      exact unaryDerivative_builds hA op (hself.mono hL) ((hchild a ha).mono hL) (hd.member ha)
  | binary op a b =>
      have ha : a ∈ (node id (.binary op a b)).children := by simp [Shape.children]
      have hb : b ∈ (node id (.binary op a b)).children := by simp [Shape.children]
      refine .bind (ih a ha x L (he.child ha)) fun L₁ da hL₁ hda => ?_
      refine .bind (holding_carries (ih b hb x L₁ ((he.child hb).mono hL₁)))
        fun L₂ db hL₂ hdb => ?_
      have hL := hL₁.trans hL₂
      refine .lift recollection_lasting
        (isDerivative_of_builds ?_ (hV.binary hda.handedOn hdb.handedOn))
      exact binaryDerivative_builds hA op ((hchild a ha).mono hL) ((hchild b hb).mono hL)
        ((hda.member ha).mono hL₂) (hdb.member hb)
  | assoc op args =>
      have hnone : ∀ b ∈ ([] : List (Formula α)),
          b.Member (node id (.assoc op args)).Bequeaths L := by simp
      refine .bind (derivativeTerms_carries (fun a ha L => ih a ha x L) hnone
        hchild) ?_
      intro L' terms hL hboth
      obtain ⟨hterms, hrest⟩ := hboth
      refine .lift recollection_lasting (isDerivative_of_builds ?_ (hV.assoc hrest))
      exact assocDerivative_builds hA op (hself.mono hL) hterms
  | conditional op c a b =>
      have hc : c ∈ (node id (.conditional op c a b)).children := by simp [Shape.children]
      have ha : a ∈ (node id (.conditional op c a b)).children := by simp [Shape.children]
      have hb : b ∈ (node id (.conditional op c a b)).children := by simp [Shape.children]
      refine .bind (ih a ha x L (he.child ha)) fun L₁ da hL₁ hda => ?_
      refine .bind (holding_carries (ih b hb x L₁ ((he.child hb).mono hL₁)))
        fun L₂ db hL₂ hdb => ?_
      refine .lift recollection_lasting
        (isDerivative_of_builds ?_ (hV.conditional hda.handedOn hdb.handedOn))
      exact conditional_builds hA ((hchild c hc).mono (hL₁.trans hL₂))
        ((hda.member ha).mono hL₂) (hdb.member hb)
  | tabulated mark t a =>
      refine .bind (ih a List.mem_cons_self x L (he.ref List.mem_cons_self)) fun L' d hL hd => ?_
      refine .lift recollection_lasting (isDerivative_of_builds ?_ (hV.tabulated hd.handedOn))
      exact tabulatedDerivative_builds hA (fun r hr => (he.ref hr).mono hL)
        (fun d hd A hA h => (hA.tabulated h).2.1 d hd)
        (fun hnone id mark A hA h => (hA.tabulated h).2.2 hnone id mark)
        (hd.member List.mem_cons_self)
  | solver s =>
      obtain ⟨body, bound, low, high, precision, guard⟩ := s
      have hbody : body ∈ (Shape.solver ⟨body, bound, low, high, precision, guard⟩).refs :=
        Shape.mem_refs_of_mem_children (by simp [Shape.children, Solver.children])
      rw [shapeDerivative]
      split
      · next hbound =>
          exact .pure (isDerivative_zero (hbound ▸ hV.solver_bound
            (s := ⟨body, bound, low, high, precision, guard⟩)))
      · next hbound =>
          refine .bind (ih body hbody x L (he.ref hbody)) fun L₁ d hL₁ hd => ?_
          split
          · next hlevel => exact .pure (isDerivative_zero (hV.solver_level hd.handedOn hlevel))
          · next hlevel =>
              refine .bind (holding_carries
                (ih body hbody bound.id L₁ ((he.ref hbody).mono hL₁))) fun L₂ d' hL₂ hd' => ?_
              have he₂ := he.mono (hL₁.trans hL₂)
              have hd₂ := isDerivative_lasting x body hL₂ hd
              have hslope := hV.solver_slope he₂ hbound (by simpa using hlevel) hd₂ hd'
              refine .lift recollection_lasting
                (((rootSlope_builds bound.id he₂ hd₂.known hd'.known).and_holds hslope).mono ?_)
              exact fun _ _ _ h => ⟨h.1, fun A hA h => absurd h hA.solver, h.2⟩

/-- **All derivatives are as the rules have them.**  Whatever is remembered, the
derivative of a known formula is one to which the rules have handed on `V`. -/
theorem derivative_carries (hV : HandedOn V) (e : Formula α) (x : NodeId) {L : Ledger α}
    (he : e.KnownTo L) :
    Carries (Recollection.Sound (IsDerivative V)) (derivative x e) L (IsDerivative V x e) := by
  induction e using inductionOnRefs generalizing x L with
  | h id shape ih =>
      have hshape := shapeDerivative_carries hV (fun r hr x L => ih r hr x) (x := x) he
      cases shape with
      | const v => exact .pure (isDerivative_zero (hV.const x id v))
      | var name => exact .pure (isDerivative_var hV x id name)
      | _ => exact recollect_carries he hshape

/-- The derivative that is asked for. -/
theorem differentiate_carries (hV : HandedOn V) {e : Formula α} (he : e.KnownTo L)
    (x : NodeId) :
    Carries (Recollection.Sound (IsDerivative V)) (differentiate e x) L (IsDerivative V x e) := by
  rw [differentiate]
  have hnext : Builds (get : Fresh NodeId) L fun L' _ => L' = L := ⟨L, .refl L, rfl, rfl⟩
  refine .bind (.lift recollection_lasting hnext) ?_
  intro L₁ next _ heq
  obtain rfl := heq
  refine .bind (.of_modify (P := fun L₂ _ => L₂ = L₁) (fun r hr => hr.of_eq rfl rfl) rfl) ?_
  intro L₂ _ _ heq
  obtain rfl := heq
  refine .bind (holding_carries (derivative_carries hV e x he)) ?_
  intro L₃ d _ hd
  refine .bind (.of_modify (P := fun L₄ _ => L₄ = L₃) (fun r hr => hr.of_eq rfl rfl) rfl) ?_
  intro L₄ _ _ heq
  obtain rfl := heq
  exact .pure hd

end Formula

end FormulaGraph
