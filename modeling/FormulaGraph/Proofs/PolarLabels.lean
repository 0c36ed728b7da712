import FormulaGraph.ComplexFormula
import FormulaGraph.Proofs.Actions
import FormulaGraph.Proofs.NestedSums
import FormulaGraph.Proofs.SafeDivision

/-!
# Labels of the polar form

The length, the angle and the normal form of a complex formula are labelled after the number as
soon as they are built.  A label belongs to a node, and a node may stand in many formulas.  So
what is labelled should be a node of its own, or one of the shared constants, which never bear a
label (`Session.LabelsOwn`): then nothing that was there before is shown differently.

Lengths and angles are nodes of their own, whatever their components are (`hypot_new`).  A
component of the normal form is a quotient, and there are rules by which a quotient is not built
but found.  By a constant, a component is divided by multiplying it with the reciprocal, and a
reciprocal that is one is dropped; what is left is the component itself.  That a length is constant
although a component is not happens in one way only: the component is a length without arguments,
which simplifying leaves as it is and which contributes nothing to the length it is part of.  Such
a component is **given back** (`GivesBack`), and labelled (`normal_relabels_component`).  All other
components of normal forms are nodes of their own, and this is the only exception
(`polar_labels`).
-/

namespace FormulaGraph

variable {α : Type} [Scalar α]

/-- Dividing by the number changes nothing: the reciprocal is a factor that is dropped. -/
structure Scalar.DividesAsOne (d : α) : Prop where
  nonzero : (d == 0) = false
  reciprocal_nonzero : (1 / d == 0) = false
  dropped : (1 * (1 / d) == 1) = true

namespace Formula

variable {n n' : NodeId} {a b e q : Formula α} {args : List (Formula α)} {d : α}

/-- A node with a number from `n` on, or one of the shared constants. -/
def NewOrShared (n : NodeId) (e : Formula α) : Prop := n ≤ e.id ∨ e.id < firstFree

omit [Scalar α] in
/-- What is new later is new now. -/
theorem NewOrShared.mono (he : e.NewOrShared n') (h : n ≤ n') : e.NewOrShared n :=
  he.imp_left h.trans

/-- The common constants are shared by everyone. -/
theorem zero_newOrShared (n : NodeId) : (zero : Formula α).NewOrShared n := .inr Nat.zero_lt_two

/-! ## What a length amounts to -/

/-- A length without arguments; no rule builds one. -/
def IsEmptyLength (e : Formula α) : Prop := e.shape = .assoc .hypot []

/-- All are constants, or lengths without arguments, which contribute nothing to a length. -/
def OnlyNumbers (args : List (Formula α)) : Prop :=
  ∀ c ∈ args, c.isConstant = true ∨ c.IsEmptyLength

omit [Scalar α] in
/-- An empty length is no constant. -/
theorem IsEmptyLength.isConstant (h : e.IsEmptyLength) : e.isConstant = false := by
  obtain ⟨id, shape⟩ := e
  obtain rfl : shape = .assoc .hypot [] := h
  rfl

omit [Scalar α] in
/-- An empty length has no components to be taken apart into. -/
theorem IsEmptyLength.argumentsOf (h : e.IsEmptyLength) : argumentsOf .hypot e = [] := by
  obtain ⟨id, shape⟩ := e
  obtain rfl : shape = .assoc .hypot [] := h
  rfl

omit [Scalar α] in
/-- A constant is its own only argument. -/
theorem argumentsOf_of_isConstant (op : AssocOp) (h : e.isConstant = true) :
    argumentsOf op e = [e] := by
  obtain ⟨v, hv⟩ := eq_const_of_isConstant h
  rw [hv]
  rfl

/-- A simple formula that is more than a number contributes more than numbers to a length. -/
theorem exists_argumentsOf_hypot (he : e.shape.IsSimple) (hconst : e.isConstant = false)
    (hempty : ¬ e.IsEmptyLength) : ∃ c ∈ argumentsOf .hypot e, c.isConstant = false := by
  cases hassoc : e.isAssoc .hypot with
  | false =>
      rw [argumentsOf_of_not_isAssoc hassoc]
      exact ⟨e, List.mem_singleton_self e, hconst⟩
  | true =>
      obtain ⟨id, shape⟩ := e
      cases shape with
      | assoc op args =>
          obtain rfl : op = .hypot := by simpa [isAssoc] using hassoc
          have hne : args ≠ [] := fun hnil => hempty (congrArg (Shape.assoc .hypot) hnil)
          obtain ⟨hterm, hnested⟩ := arguments_of_isCanonical (Shape.IsSimple.canonical he hne)
          rw [Formula.argumentsOf, if_pos (by rfl), argumentsOfAll_of_not_isAssoc hnested]
          exact hterm
      | _ => cases hassoc

/-- Nothing but constants is left of the arguments of a length exactly if they are numbers. -/
theorem terms_eq_nil_iff (hargs : ∀ c ∈ args, c.shape.IsSimple) :
    (argumentsOfAll .hypot args).filter (fun c => !c.isConstant) = [] ↔ OnlyNumbers args := by
  rw [List.filter_eq_nil_iff, argumentsOfAll_eq_flatMap]
  constructor
  · intro h c hc
    by_contra hnot
    rw [not_or, Bool.not_eq_true] at hnot
    obtain ⟨d, hd, hdconst⟩ := exists_argumentsOf_hypot (hargs c hc) hnot.1 hnot.2
    exact h d (List.mem_flatMap.mpr ⟨c, hc, hd⟩) (by simp [hdconst])
  · intro h d hd
    obtain ⟨c, hc, hd⟩ := List.mem_flatMap.mp hd
    rcases h c hc with hconst | hempty
    · rw [argumentsOf_of_isConstant _ hconst, List.mem_singleton] at hd
      simp [hd, hconst]
    · rw [hempty.argumentsOf] at hd
      cases hd

omit [Scalar α] in
/-- If only numbers are left, taking apart finds no further constants. -/
theorem OnlyNumbers.constants (h : OnlyNumbers args) :
    (argumentsOfAll .hypot args).filterMap asConstant = args.filterMap asConstant := by
  induction args with
  | nil => rfl
  | cons c cs ih =>
      have htail := ih fun d hd => h d (List.mem_cons_of_mem c hd)
      rw [argumentsOfAll, List.filterMap_append, htail]
      rcases h c List.mem_cons_self with hconst | hempty
      · rw [argumentsOf_of_isConstant _ hconst]
        exact (List.filterMap_append ..).symm
      · rw [hempty.argumentsOf, List.filterMap_cons_none (asConstant_eq_none hempty.isConstant)]
        rfl

/-- Whether the length `l` is a constant, and which. -/
structure IsLengthOf (args : List (Formula α)) (l : Formula α) : Prop where
  number : OnlyNumbers args → l.asConstant = some (Scalar.hypot (args.filterMap asConstant))
  formula : ¬ OnlyNumbers args → l.isConstant = false

/-- Flattening the components of a length builds a new node, or hands one of them back. -/
theorem flatten_hypot_new (hargs : ∀ c ∈ args, c.shape.IsSimple) :
    YieldsFrom n (flatten .hypot args) fun l => n ≤ l.id ∧ IsLengthOf args l := by
  rw [flatten, if_neg (by simp)]
  split
  · next hnil =>
      have hnumbers := (terms_eq_nil_iff hargs).mp (List.isEmpty_iff.mp hnil)
      rw [hnumbers.constants]
      exact .new fun id hid => ⟨hid, fun _ => rfl, fun hnot => absurd hnumbers hnot⟩
  · next hne =>
      have hformula : ¬ OnlyNumbers args := fun h =>
        hne (List.isEmpty_iff.mpr ((terms_eq_nil_iff hargs).mpr h))
      have hadd : YieldsFrom n (addConstant .hypot
          (AssocOp.hypot.combine ((argumentsOfAll .hypot args).filterMap asConstant))
          ((argumentsOfAll .hypot args).filter fun c => !c.isConstant)) fun _ => True := by
        rw [addConstant]
        split
        · exact .pure trivial
        · exact .bind (.new fun _ _ => trivial : YieldsFrom n _ fun _ => True) fun _ _ =>
            .pure trivial
      refine .bind hadd fun terms _ => ?_
      exact .new fun id hid => ⟨hid, fun h => absurd h hformula, fun _ => rfl⟩

/-- **A length is always a new node**, and a constant exactly if its arguments are numbers. -/
theorem hypot_new (hargs : ∀ c ∈ args, c.shape.IsSimple) :
    YieldsFrom n (hypot args) fun l => n ≤ l.id ∧ IsLengthOf args l := by
  rw [hypot, assoc]
  cases hfold : foldConstants (.assoc .hypot args) with
  | some v =>
      have hconst : ∀ c ∈ args, c.isConstant = true := fun c hc =>
        isConstant_of_foldConstants hfold hc
      have hvalue : v = Scalar.hypot (args.filterMap asConstant) := by
        have hread : ∀ c ∈ args, c.asConstant = some (c.value fun _ => 0) := by
          intro c hc
          obtain ⟨u, hu⟩ := Option.isSome_iff_exists.mp (hconst c hc)
          rw [hu, value_of_asConstant hu]
        rw [← value_of_foldConstants hfold (fun _ => 0) 0, value, values_eq_map,
          List.filterMap_congr hread, List.filterMap_eq_map']
        rfl
      rw [build, hfold, hvalue]
      exact .new fun id hid => ⟨hid, fun _ => rfl, fun hnot =>
        absurd (fun c hc => .inl (hconst c hc)) hnot⟩
  | none =>
      rw [build, hfold, assocRule]
      cases hcanonical : isCanonical .hypot args with
      | false => exact flatten_hypot_new hargs
      | true =>
          obtain ⟨⟨c, hc, hcconst⟩, hnested⟩ := arguments_of_isCanonical hcanonical
          refine .new fun id hid => ⟨hid, fun h => ?_, fun _ => rfl⟩
          rcases h c hc with hconst | hempty
          · rw [hcconst] at hconst
            cases hconst
          · exact absurd hempty (isAssoc_eq_false (hnested c hc) [])

/-- An angle is built anew, for there are no rules but folding. -/
theorem angle_new (a b : Formula α) : YieldsFrom n (binary .atan2 a b) fun q => n ≤ q.id := by
  rw [binary, build]
  cases foldConstants (.binary .atan2 a b) with
  | some v => exact .new fun id hid => hid
  | none => exact .new fun id hid => hid

/-! ## Quotients by a length -/

/-- A quotient that is not built as a product is a new node or zero. -/
theorem divide_new (h : a.isConstant = true ∨ b.isConstant = false) :
    YieldsFrom n (divide a b) (NewOrShared n) := by
  rw [divide, binary]
  cases hfold : foldConstants (.binary .divide a b) with
  | some v =>
      rw [build, hfold]
      exact .new fun id hid => .inl hid
  | none =>
      have hsymbolic : b.isConstant = false := by
        refine h.elim (fun ha => ?_) fun hb => hb
        simpa [foldConstants, Shape.children, ha] using hfold
      rw [build, hfold, binaryRule, asConstant_eq_none hsymbolic]
      by_cases hzero : (a.isConstantValue 0 || b.isConstantValue 0) = true
      · rw [if_pos hzero]
        exact .pure (zero_newOrShared n)
      · rw [if_neg hzero]
        exact .new fun id hid => .inl hid

/-- An empty length divided by a constant is handed back or built anew. -/
theorem divide_emptyLength (he : e.IsEmptyLength) (hb : b.asConstant = some d) :
    YieldsFrom n (divide e b) fun q =>
      Scalar.DividesAsOne d ∧ q = e ∨ ¬ Scalar.DividesAsOne d ∧ q.NewOrShared n := by
  obtain ⟨hconstants, hothers⟩ : constantFactors e = [] ∧ otherFactors e = [e] := by
    obtain ⟨id, shape⟩ := e
    obtain rfl : shape = .assoc .hypot [] := he
    exact ⟨rfl, rfl⟩
  have hleading : leadingFactor e d = 1 * (1 / d) := by
    rw [leadingFactor, hconstants]
    rfl
  cases hzero : d == 0 with
  | true =>
      have hdivisor : b.isConstantValue 0 = true := by
        rw [isConstantValue, hb]
        exact hzero
      rw [divide, binary,
        build_of_not_isConstant (c := e) _ (by simp [Shape.children]) he.isConstant,
        binaryRule, hdivisor, Bool.or_true, if_pos rfl]
      refine .pure (.inr ⟨fun hone => ?_, zero_newOrShared n⟩)
      rw [hone.nonzero] at hzero
      cases hzero
  | false =>
      rw [divide_of_reciprocal ⟨hb, hzero, he.isConstant⟩]
      refine (timesReciprocal_builds he.isConstant n).mono fun q hq => ?_
      cases hq with
      | zero hany =>
          rw [hconstants] at hany
          exact .inr ⟨fun hone => by simp [hone.reciprocal_nonzero] at hany, zero_newOrShared n⟩
      | constant _ _ hnil => simp [hothers] at hnil
      | single hnonzero hone hsingle =>
          rw [hconstants] at hnonzero
          rw [hleading] at hone
          rw [hothers] at hsingle
          exact .inl ⟨⟨hzero, by simpa using hnonzero, hone⟩, (List.singleton_inj.mp hsingle).symm⟩
      | several _ _ _ hseveral => simp [hothers] at hseveral
      | scaled hid _ hkept _ =>
          refine .inr ⟨fun hone => ?_, .inl hid⟩
          rw [hleading, hone.dropped] at hkept
          cases hkept

/-- Dividing the component `e` by the length of all gives `e` itself. -/
structure GivesBack (args : List (Formula α)) (e : Formula α) : Prop where
  emptyLength : e.IsEmptyLength
  onlyNumbers : OnlyNumbers args
  dividesAsOne : Scalar.DividesAsOne (Scalar.hypot (args.filterMap asConstant))

/-- What the component `e` divided by the length of all is: the component, if it is given back, or
else a node from `n` on or zero. -/
inductive IsPortion (n : NodeId) (args : List (Formula α)) (e : Formula α) : Formula α → Prop
  | back (h : GivesBack args e) : IsPortion n args e e
  | own {q : Formula α} (h : ¬ GivesBack args e) (hq : q.NewOrShared n) : IsPortion n args e q

/-- Portions stay portions when numbers are drawn. -/
theorem IsPortion.mono (hq : IsPortion n' args e q) (h : n ≤ n') : IsPortion n args e q := by
  cases hq with
  | back hback => exact .back hback
  | own hnot hq => exact .own hnot (hq.mono h)

/-- A portion is new, unless the component itself is given back. -/
theorem IsPortion.newOrShared (hq : IsPortion n args e q) (h : ¬ GivesBack args e) :
    q.NewOrShared n := by
  cases hq with
  | back hback => exact absurd hback h
  | own _ hq => exact hq

/-- A known component that is given back is neither new nor shared. -/
theorem IsPortion.not_givesBack {L : Ledger α} (hq : IsPortion L.next args e q)
    (he : e.KnownTo L) (hown : q.NewOrShared L.next) : ¬ GivesBack args e := by
  intro hback
  cases hq with
  | own hnot _ => exact hnot hback
  | back _ =>
      have hconst := hback.emptyLength.isConstant
      rcases hown with hnew | hshared
      · exact Nat.not_lt.mpr hnew he.id_lt
      · obtain h | h : e.id = 0 ∨ e.id = 1 := Nat.le_one_iff_eq_zero_or_eq_one.mp
          (Nat.le_of_lt_succ hshared)
        · rw [he.eq_of_id_eq (zero_known L) h] at hconst
          cases hconst
        · rw [he.eq_of_id_eq (one_known L) h] at hconst
          cases hconst

/-- A component divided by the length is a portion of it. -/
theorem divide_by_length {l : Formula α} (hl : IsLengthOf args l) (he : e ∈ args) :
    YieldsFrom n (divide e l) (IsPortion n args e) := by
  by_cases hnumbers : OnlyNumbers args
  · rcases hnumbers e he with hconst | hempty
    · refine (divide_new (.inl hconst)).mono fun q hq => .own (fun hback => ?_) hq
      rw [hback.emptyLength.isConstant] at hconst
      cases hconst
    · refine (divide_emptyLength hempty (hl.number hnumbers)).mono fun q hq => ?_
      rcases hq with ⟨hone, rfl⟩ | ⟨hnot, hq⟩
      · exact .back ⟨hempty, hnumbers, hone⟩
      · exact .own (fun hback => hnot hback.dividesAsOne) hq
  · exact (divide_new (.inr (hl.formula hnumbers))).mono fun q hq =>
      .own (fun hback => hnumbers hback.onlyNumbers) hq

end Formula

open Formula

/-! ## Labels given to new nodes -/

namespace Session

/-- The labels given are of new nodes or of shared ones, all but the latter bear them afterwards,
and every node from before bears the label it bore. -/
structure LabelsOwn (s : Session α) (given : List (Formula α × String)) (s' : Session α) :
    Prop where
  newOrShared : ∀ g ∈ given, g.1.NewOrShared s.nextId
  given : ∀ g ∈ given, firstFree ≤ g.1.id → s'.labelling g.1.id = some g.2
  kept : ∀ id < s.nextId, s'.labelling id = s.labelling id

variable {s : Session α} {n id : NodeId} {args : List (Formula α)} {e q : Formula α}
  {text : Option String}

omit [Scalar α] in
/-- Labelling what is new or shared labels nothing that was there before. -/
theorem labelling_relabelled_of_lt (he : e.NewOrShared n) (h : id < n) :
    (s.relabelled e text).labelling id = s.labelling id := by
  rw [labelling_relabelled, if_neg]
  rintro ⟨rfl, hfree⟩
  exact he.elim (Nat.not_le.mpr h) (Nat.not_lt.mpr hfree)

/-- Labelling a portion labels nothing that was there before, except a component given back. -/
theorem labelling_relabelled_portion (hq : IsPortion n args e q) (h : id < n)
    (hne : GivesBack args e → e.id ≠ id) :
    (s.relabelled q text).labelling id = s.labelling id := by
  cases hq with
  | back hback => exact labelling_relabelled_of_ne (hne hback)
  | own _ hq => exact labelling_relabelled_of_lt hq h

omit [Scalar α] in
/-- A new node that is built and labelled. -/
theorem labelsOwn_of_new {x : Fresh (Formula α)} (text : String)
    (hnew : s.nextId ≤ (x.run s.nextId).1.id) :
    s.LabelsOwn [((x.run s.nextId).1, text)]
      ((s.drawnTo (x.run s.nextId).2).relabelled (x.run s.nextId).1 (some text)) := by
  refine ⟨?_, ?_, fun id hid => labelling_relabelled_of_lt (.inl hnew) hid⟩
  · simpa using .inl hnew
  · simpa using labelling_relabelled_self

end Session

/-! ## The polar form -/

namespace ComplexFormula

section Normal

variable {z : ComplexFormula (Formula α)}

/-- The components of `w` are those of `z` divided by its length, with numbers from `n` on for new
nodes.  They are two nodes, unless the second is given back or shared. -/
structure IsNormal (n : NodeId) (z w : ComplexFormula (Formula α)) : Prop where
  re : IsPortion n z.toList z.re w.re
  im : IsPortion n z.toList z.im w.im
  distinct : ¬ GivesBack z.toList z.im → w.im.NewOrShared (w.re.id + 1)

/-- Both components divided by the length make the normal form. -/
theorem divReal_isNormal {L : Ledger α} {n : NodeId} {l : Formula α}
    (hz : ∀ e ∈ z.toList, e.KnownTo L) (hl : l.KnownTo L) (hlength : IsLengthOf z.toList l)
    (hn : n ≤ L.next) : Builds (z.divReal l) L fun _ w => IsNormal n z w := by
  have hdivide : ∀ L', L.Extends L' → ∀ e ∈ z.toList, Builds (divide e l) L' fun L'' q =>
      q.KnownTo L'' ∧ IsPortion L'.next z.toList e q := by
    intro L' hL' e he
    have hbuilds : Builds (divide e l) L' fun L'' q => q.Member (fun _ => True) L'' :=
      binary_builds trivial_admitsOperations .divide (member_trivial ((hz e he).mono hL'))
        (member_trivial (hl.mono hL'))
    exact (hbuilds.and_yieldsFrom (Nat.le_refl _) (divide_by_length hlength he)).mono
      fun _ _ _ h => ⟨h.1.known, h.2⟩
  rw [divReal, mapM]
  refine .bind (hdivide L (.refl L) z.re (by simp [toList])) fun L₁ re hL₁ hre => ?_
  refine .bind (hdivide L₁ hL₁ z.im (by simp [toList])) fun L₂ im hL₂ him => ?_
  refine .pure ⟨hre.2.mono hn, him.2.mono (hn.trans hL₁.next_le), fun hnot => ?_⟩
  exact (him.2.newOrShared hnot).mono (Nat.succ_le_of_lt hre.1.id_lt)

end Normal

variable [ScalarText α] {s : Session α} {z : ComplexFormula (Formula α)} {name : String}

/-- The number is called `name` in the session, and wherever its real component is labelled as it
is there. -/
def IsCalled (z : ComplexFormula (Formula α)) (s : Session α) (name : String) : Prop :=
  ∀ s', s'.labelling z.re.id = s.labelling z.re.id → z.name.run.run s' = (.ok name, s')

/-- A label of the right form gives the name. -/
theorem isCalled_of_label (h : (s.labelling z.re.id).bind nameInLabel? = some name) :
    z.IsCalled s name := by
  intro s' hs'
  have hlabel : z.re.label.run.run s' = (.ok (s'.labelling z.re.id), s') := rfl
  rw [ComplexFormula.name, Action.run_bind_ok hlabel, hs', h]
  rfl

/-- Without a label the components are shown instead. -/
theorem isCalled_of_no_label (h : (s.labelling z.re.id).bind nameInLabel? = none) :
    z.IsCalled s (z.re.display ++ "; " ++ z.im.display) := by
  intro s' hs'
  have hlabel : z.re.label.run.run s' = (.ok (s'.labelling z.re.id), s') := rfl
  rw [ComplexFormula.name, Action.run_bind_ok hlabel, hs', h]
  rfl

/-- Every complex number is called something. -/
theorem exists_isCalled (z : ComplexFormula (Formula α)) (s : Session α) :
    ∃ name, z.IsCalled s name := by
  cases hname : (s.labelling z.re.id).bind nameInLabel? with
  | some name => exact ⟨name, isCalled_of_label hname⟩
  | none => exact ⟨_, isCalled_of_no_label hname⟩

/-- A quantity is built, and then labelled after the number. -/
theorem labelled_run (hname : z.IsCalled s name) (x : Fresh (Formula α)) (f : String → String) :
    (do
      let q ← x
      q.setLabel (some (f (← z.name)))
      return q : Action α (Formula α)).run.run s =
      (.ok (x.run s.nextId).1,
        (s.drawnTo (x.run s.nextId).2).relabelled (x.run s.nextId).1 (some (f name))) := by
  have hcalled : z.name.run.run (s.drawnTo (x.run s.nextId).2) =
      (.ok name, s.drawnTo (x.run s.nextId).2) := hname _ rfl
  rw [Action.run_bind_ok (Fresh.lifted_run x s), Action.run_bind_ok hcalled,
    Action.run_bind_ok (setLabel_run _ _ _)]
  rfl

/-- The normal form is built, and then its components are labelled. -/
theorem normal_run (hname : z.IsCalled s name) (hre : z.re.id < s.nextId) {l : Formula α}
    {w : ComplexFormula (Formula α)} {n₁ n₂ : NodeId}
    (hl : (hypot z.toList).run s.nextId = (l, n₁)) (hnew : s.nextId ≤ l.id)
    (hw : (z.divReal l).run n₁ = (w, n₂)) :
    z.normal.run.run s =
      (.ok w, ((((s.drawnTo n₁).relabelled l (some ("Len(" ++ name ++ ")"))).drawnTo n₂).relabelled
        w.re (some ("Re(" ++ ("Normal(" ++ name ++ ")") ++ ")"))).relabelled
          w.im (some ("Im(" ++ ("Normal(" ++ name ++ ")") ++ ")"))) := by
  have hlength : z.length.run.run s =
      (.ok l, (s.drawnTo n₁).relabelled l (some ("Len(" ++ name ++ ")"))) := by
    have h := labelled_run hname (hypot z.toList) fun name => "Len(" ++ name ++ ")"
    rwa [hl] at h
  generalize hs' : (s.drawnTo n₁).relabelled l (some ("Len(" ++ name ++ ")")) = s' at hlength
  have hnext : s'.nextId = n₁ := by rw [← hs', Session.relabelled_nextId, Session.drawnTo_nextId]
  have hdivide : (z.divReal l : Action α _).run.run s' = (.ok w, s'.drawnTo n₂) := by
    have h := Fresh.lifted_run (z.divReal l) s'
    rwa [hnext, hw] at h
  -- the label of the length is on a node of its own, so the number is called as before
  have hcalled : z.name.run.run (s'.drawnTo n₂) = (.ok name, s'.drawnTo n₂) := by
    refine hname _ ?_
    rw [Session.drawnTo_labelling, ← hs', Session.labelling_relabelled_of_lt (.inl hnew) hre,
      Session.drawnTo_labelling]
  rw [normal, Action.run_bind_ok hlength, Action.run_bind_ok hdivide, Action.run_bind_ok hcalled,
    setLabel, bind_assoc, Action.run_bind_ok (setLabel_run _ _ _),
    Action.run_bind_ok (setLabel_run _ _ _)]
  rfl

/-- The labels after the normal form of a number over simple components was built. -/
theorem normal_labels {L : Ledger α} (hs : s.nextId = L.next)
    (hknown : ∀ e ∈ z.toList, e.KnownTo L) (hsimple : ∀ e ∈ z.toList, e.shape.IsSimple)
    (hname : z.IsCalled s name) :
    ∃ w s', z.normal.run.run s = (.ok w, s') ∧ IsNormal s.nextId z w ∧
      ((∀ e ∈ z.toList, ¬ GivesBack z.toList e) →
        s.LabelsOwn [(w.re, "Re(" ++ ("Normal(" ++ name ++ ")") ++ ")"),
          (w.im, "Im(" ++ ("Normal(" ++ name ++ ")") ++ ")")] s') ∧
      ∀ id < s.nextId, (∀ e ∈ z.toList, GivesBack z.toList e → e.id ≠ id) →
        s'.labelling id = s.labelling id := by
  have hre : z.re ∈ z.toList := by simp [toList]
  have him : z.im ∈ z.toList := by simp [toList]
  have hbuilds : Builds (hypot z.toList) L fun L' l => l.Member (fun _ => True) L' :=
    assoc_builds trivial_admitsOperations .hypot fun e he => member_trivial (hknown e he)
  obtain ⟨L₁, hL₁, hnext, ⟨hl, -⟩, hnew, hlength⟩ :=
    hbuilds.and_yieldsFrom (Nat.le_of_eq hs) (hypot_new hsimple)
  rw [← hs] at hnext hl hnew hlength
  generalize hrun : (hypot z.toList).run s.nextId = r at hnext hl hnew hlength
  obtain ⟨l, n₁⟩ := r
  obtain ⟨L₂, -, -, hw⟩ := divReal_isNormal (fun e he => (hknown e he).mono hL₁) hl hlength
    (hs.trans_le hL₁.next_le)
  rw [hnext] at hw
  generalize hrun' : (z.divReal l).run n₁ = r at hw
  obtain ⟨w, n₂⟩ := r
  have hkept : ∀ len re im, ∀ id < s.nextId,
      (∀ e ∈ z.toList, GivesBack z.toList e → e.id ≠ id) →
      (((((s.drawnTo n₁).relabelled l len).drawnTo n₂).relabelled w.re re).relabelled
        w.im im).labelling id = s.labelling id := by
    intro len re im id hid hne
    rw [Session.labelling_relabelled_portion hw.im hid (hne _ him),
      Session.labelling_relabelled_portion hw.re hid (hne _ hre), Session.drawnTo_labelling,
      Session.labelling_relabelled_of_lt (.inl hnew) hid, Session.drawnTo_labelling]
  refine ⟨w, _, normal_run hname (hs ▸ (hknown _ hre).id_lt) hrun hnew hrun', hw,
    fun hnone => ⟨?_, ?_, fun id hid => ?_⟩, hkept _ _ _⟩
  · simpa using ⟨hw.re.newOrShared (hnone _ hre), hw.im.newOrShared (hnone _ him)⟩
  · simp only [List.mem_cons, List.not_mem_nil, or_false, forall_eq_or_imp, forall_eq]
    refine ⟨fun hfree => ?_, Session.labelling_relabelled_self⟩
    rw [Session.labelling_relabelled_of_lt (hw.distinct (hnone _ him)) (Nat.lt_succ_self _)]
    exact Session.labelling_relabelled_self hfree
  · exact hkept _ _ _ id hid fun e he hback => absurd hback (hnone e he)

/-- **Labelling a number does not label its components.**  Let these be simplified to themselves.
The length and the angle are nodes of their own, and so are the components of the normal form, or
else zero; they bear the labels given to them, and all nodes there were before are labelled as
before.  This holds of the normal form exactly if no component is given back; one that is given
back is itself a component of the normal form, and then it is the only older node that may be
labelled otherwise. -/
theorem polar_labels {L : Ledger α} (hs : s.nextId = L.next)
    (hz : ∀ e ∈ z.toList, e.KnownTo L ∧ (e.simplify.run L.next).1 = e) :
    ∃ name, z.name.run.run s = (.ok name, s) ∧
      (∃ l s', z.length.run.run s = (.ok l, s') ∧
        s.LabelsOwn [(l, "Len(" ++ name ++ ")")] s') ∧
      (∃ a s', z.arg.run.run s = (.ok a, s') ∧
        s.LabelsOwn [(a, "Arg(" ++ name ++ ")")] s') ∧
      ∃ w s', z.normal.run.run s = (.ok w, s') ∧ IsNormal s.nextId z w ∧
        (s.LabelsOwn [(w.re, "Re(" ++ ("Normal(" ++ name ++ ")") ++ ")"),
            (w.im, "Im(" ++ ("Normal(" ++ name ++ ")") ++ ")")] s' ↔
          ∀ e ∈ z.toList, ¬ GivesBack z.toList e) ∧
        ∀ id < s.nextId, (∀ e ∈ z.toList, GivesBack z.toList e → e.id ≠ id) →
          s'.labelling id = s.labelling id := by
  obtain ⟨name, hname⟩ := exists_isCalled z s
  have hknown : ∀ e ∈ z.toList, e.KnownTo L := fun e he => (hz e he).1
  have hsimple : ∀ e ∈ z.toList, e.shape.IsSimple := fun e he =>
    ((simplify_eq_iff (hknown e he)).mp (hz e he).2).here
  have hlength := (hypot_new hsimple s.nextId (Nat.le_refl _)).2.1
  have hangle := (angle_new z.im z.re s.nextId (Nat.le_refl _)).2
  obtain ⟨w, s', hrun, hw, hown, hkept⟩ := normal_labels hs hknown hsimple hname
  refine ⟨name, hname s rfl,
    ⟨_, _, labelled_run hname _ fun name => "Len(" ++ name ++ ")",
      Session.labelsOwn_of_new _ hlength⟩,
    ⟨_, _, labelled_run hname _ fun name => "Arg(" ++ name ++ ")",
      Session.labelsOwn_of_new _ hangle⟩,
    w, s', hrun, hw, ⟨fun h => ?_, hown⟩, hkept⟩
  have hboth := h.newOrShared
  simp only [List.mem_cons, List.not_mem_nil, or_false, forall_eq_or_imp, forall_eq, hs] at hboth
  rw [hs] at hw
  simp only [toList, List.forall_mem_cons] at hknown ⊢
  exact ⟨hw.re.not_givesBack hknown.1 hboth.1, hw.im.not_givesBack hknown.2.1 hboth.2, by simp⟩

/-- The real number `x`, which is labelled `Re(r)`: its length, its angle and its normal form leave
this label and all others as they are. -/
theorem polar_labels_of_real_number :
    let x : Formula Float := node 2 (.var "x")
    let z := ofReal x
    let s := (Session.start.drawnTo 3).relabelled x (some "Re(r)")
    (∀ e ∈ z.toList, (e.simplify.run 3).1 = e) ∧
      ∃ name, z.name.run.run s = (.ok name, s) ∧
        (∃ l s', z.length.run.run s = (.ok l, s') ∧
          s.LabelsOwn [(l, "Len(" ++ name ++ ")")] s') ∧
        (∃ a s', z.arg.run.run s = (.ok a, s') ∧
          s.LabelsOwn [(a, "Arg(" ++ name ++ ")")] s') ∧
        ∃ w s', z.normal.run.run s = (.ok w, s') ∧
          s.LabelsOwn [(w.re, "Re(" ++ ("Normal(" ++ name ++ ")") ++ ")"),
            (w.im, "Im(" ++ ("Normal(" ++ name ++ ")") ++ ")")] s' ∧
          s'.labelling 2 = some "Re(r)" := by
  intro x z s
  let L : Ledger Float := Ledger.initial.add (.var "x")
  have hs : s.nextId = L.next := Session.relabelled_nextId
  have hx : x.KnownTo L := add_known (by simp [Shape.refs, Shape.children])
  have hz : ∀ e ∈ z.toList, e.KnownTo L ∧ (e.simplify.run L.next).1 = e := by
    have hxfixed : (x.simplify.run L.next).1 = x :=
      AllSimple.simplify_eq (.node (.inl rfl) (by simp [Shape.children])) hx
    have hzero : (zero.simplify.run L.next).1 = (zero : Formula Float) :=
      AllSimple.simplify_eq (.node (.inl rfl) (by simp [Shape.children])) (zero_known L)
    simpa [z, ofReal, toList] using ⟨⟨hx, hxfixed⟩, zero_known L, hzero⟩
  obtain ⟨name, hname, hlength, hangle, w, s', hrun, -, hown, hkept⟩ := polar_labels hs hz
  have hnone : ∀ e ∈ z.toList, ¬ GivesBack z.toList e := by
    intro e he hback
    obtain rfl | rfl : e = x ∨ e = zero := by simpa [z, ofReal, toList] using he
    · exact nomatch hback.emptyLength
    · exact nomatch hback.emptyLength
  refine ⟨fun e he => (hz e he).2, name, hname, hlength, hangle, w, s', hrun, hown.mpr hnone, ?_⟩
  rw [hkept 2 (by rw [hs]; decide) fun e he hback => absurd hback (hnone e he)]
  exact Session.labelling_relabelled_self (by decide)

/-- A length without arguments as the real component, and one as the imaginary one.  Both are
simplified to themselves, but the normal form labels the former. -/
theorem normal_relabels_component :
    let e : Formula Float := node 2 (.assoc .hypot [])
    let z : ComplexFormula (Formula Float) := ⟨e, one⟩
    let s := Session.start.drawnTo 3
    (∃ L : Ledger Float, L.next = 3 ∧ ∀ c ∈ z.toList, c.KnownTo L) ∧
      (∀ c ∈ z.toList, (c.simplify.run 3).1 = c) ∧
      s.labelling 2 = none ∧
      (z.normal.run.run s).2.labelling 2 = some "Re(Normal(hypot(); 1))" := by
  intro e z s
  have hstart : s.labelling 2 = none := Std.HashMap.getElem?_empty
  have hname : z.IsCalled s "hypot(); 1" := by
    have htext : z.re.display ++ "; " ++ z.im.display = "hypot(); 1" := by decide +kernel
    rw [← htext]
    refine isCalled_of_no_label ?_
    show (s.labelling 2).bind nameInLabel? = none
    rw [hstart]
    rfl
  let l := (hypot z.toList).run 3
  let w := (z.divReal l.1).run l.2
  have hl : (hypot z.toList).run s.nextId = (l.1, l.2) := rfl
  have hw : (z.divReal l.1).run l.2 = (w.1, w.2) := rfl
  have hre : w.1.re.id = 2 := by decide +kernel
  have him : w.1.im.id ≠ 2 := by decide +kernel
  refine ⟨⟨Ledger.initial.add e.shape, rfl, ?_⟩, ?_, hstart, ?_⟩
  · simpa [z, toList] using ⟨add_known (by simp [e, Shape.refs, Shape.children]), one_known _⟩
  · simp only [z, toList, List.forall_mem_cons]
    exact ⟨by cbv, by cbv, by simp⟩
  · rw [normal_run hname (by decide) hl (by decide +kernel) hw]
    refine (Session.labelling_relabelled_of_ne him).trans ?_
    rw [Session.labelling_relabelled, if_pos ⟨hre, by decide⟩]
    decide +kernel

end ComplexFormula

end FormulaGraph
