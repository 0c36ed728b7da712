import FormulaGraph.Proofs.Binary64Neutral
import FormulaGraph.Proofs.Definedness
import FormulaGraph.Proofs.Reading
import FormulaGraph.Formula.Value

/-!
# The value of an outline

An outline says of a formula all that its value depends on, once a **dictionary** says
which variable a name means, and which table and guard an identity.  So nodes with one
outline have one value wherever one dictionary fits both.

A family of nodes has such a dictionary if no two variables in it share a name, and no
two tables or guards an identity.
-/

namespace FormulaGraph

/-- What names and identities mean. -/
structure Dictionary (α : Type) where
  named : List Char → NodeId
  table : List Char → Option (Table α (Formula α))
  guard : List Char → Option (NodeId × Guard α (Formula α))

/-- Sums and products of one argument are that argument. -/
class NeutralElements (α : Type) [Scalar α] : Prop where
  zero_add : ∀ v : α, Scalar.negativeZero + v = v
  one_mul : ∀ v : α, 1 * v = v

instance : NeutralElements Float where
  zero_add := Binary64.negativeZero_add
  one_mul := Binary64.one_mul

variable {α : Type} [Scalar α]

section Numbers

variable [ScalarText α]

open Classical in
/-- The number written like this, if it is one. -/
noncomputable def numberWritten (w : List Char) : Option α :=
  if h : ∃ v : α, (ScalarText.text v).toList = w then some h.choose else none

variable [ReadableText α]

theorem numberWritten_text (v : α) : numberWritten (ScalarText.text v).toList = some v := by
  have h : ∃ u : α, (ScalarText.text u).toList = (ScalarText.text v).toList := ⟨v, rfl⟩
  rw [numberWritten, dif_pos h]
  exact congrArg some (ReadableText.injective _ _ (String.toList_inj.mp h.choose_spec))

/-- A name is no number. -/
theorem numberWritten_name {name : String} (h : IsName name) :
    numberWritten (α := α) name.toList = none := by
  rw [numberWritten, dif_neg]
  intro hwritten
  obtain ⟨v, hv⟩ := hwritten
  obtain ⟨w, hw, htext | htext⟩ := ReadableText.form v
  · exact h.not_numeral (by rwa [← hv, htext])
  · apply h.unsigned
    rw [← hv, htext]
    rfl

end Numbers

/-- The value of an operation over outlines, given the values of these. -/
def Head.apply (D : Dictionary α) : Head → List (Valuation α → α) → Valuation α → α
  | .unary op, [a], ρ => op.apply (a ρ)
  | .binary op, [a, b], ρ => op.apply (a ρ) (b ρ)
  | .assoc op, as, ρ => op.apply (as.map fun a => a ρ)
  | .conditional op, [c, a, b], ρ => if op.selectsFirst (c ρ) then a ρ else b ρ
  | .table key, [a], ρ => ((D.table key).map fun t => t.interpolate (a ρ)).getD Scalar.nan
  | .solver bound guard, [body, low, high, precision], ρ =>
    (Id.run <| BracketSearch.run (low ρ) (high ρ) (precision ρ)
      (fun x => pure (Formula.guardHolds (ρ.set (D.named bound) x) x (guard.bind D.guard) &&
        Scalar.less (body (ρ.set (D.named bound) x)) 0))
      (fun x => pure (body (ρ.set (D.named bound) x)))).root
  | _, _, _ => Scalar.nan

namespace Outline

variable [ScalarText α]

mutual

/-- The value of an outline under an assignment. -/
noncomputable def meaning (D : Dictionary α) : Outline → Valuation α → α
  | .word w, ρ => (numberWritten w).getD (ρ (D.named w))
  | .over head parts, ρ => head.apply D (meanings D parts) ρ

noncomputable def meanings (D : Dictionary α) : List Outline → List (Valuation α → α)
  | [] => []
  | o :: os => meaning D o :: meanings D os

end

theorem meanings_eq_map (D : Dictionary α) (os : List Outline) :
    meanings D os = os.map (meaning D) := by
  induction os with
  | nil => rfl
  | cons o os ih => rw [meanings, ih, List.map_cons]

end Outline

/-! ## Formulas a dictionary fits -/

/-- The dictionary has the variables, tables and guards of the node. -/
structure Dictionary.Fits (D : Dictionary α) (id : NodeId) (shape : Shape α (Formula α)) :
    Prop where
  var : ∀ name, shape = .var name → D.named name.toList = id
  table : ∀ mark t a, shape = .tabulated mark t a → D.table (marked t.name.toList mark) = some t
  bound : ∀ s, shape = .solver s → D.named s.bound.name.toList = s.bound.id
  guard : ∀ s g, shape = .solver s → s.guard = some g → D.guard (marked "where".toList g.1) = some g

namespace Formula

open Outline

variable [ScalarText α] {D : Dictionary α}

theorem meaning_number [ReadableText α] (v : α) (ρ : Valuation α) :
    (Outline.number (ScalarText.text v).toList).meaning D ρ = v := by
  obtain ⟨w, hw, htext | htext⟩ := ReadableText.form v
  · rw [htext, number_of_unsigned hw.unsigned, ← htext, meaning, numberWritten_text,
      Option.getD_some]
  · obtain ⟨hopposite, hdouble⟩ := ReadableText.negative v w htext
    rw [htext, Outline.number, ← hopposite]
    simp [meaning, meanings, Head.apply, numberWritten_text, UnaryOp.apply, hdouble]

theorem meaning_gather [NeutralElements α] (op : AssocOp) (os : List Outline)
    (ρ : Valuation α) :
    (Outline.gather op os).meaning D ρ = op.apply (os.map fun o => o.meaning D ρ) := by
  have hover : (Outline.over (.assoc op) os).meaning D ρ =
      op.apply (os.map fun o => o.meaning D ρ) := by
    simp [meaning, meanings_eq_map, Head.apply, Function.comp_def]
  unfold Outline.gather
  split
  · simp [AssocOp.apply, Scalar.sum, NeutralElements.zero_add]
  · simp [AssocOp.apply, Scalar.productUntilZero, NeutralElements.one_mul]
  · exact hover

/-- **The value of a formula is that of its outline**, read with a dictionary that
fits. -/
theorem value_eq_meaning [ReadableText α] [NeutralElements α] {e : Formula α} (he : e.Plain)
    (hD : e.Everywhere D.Fits) (ρ : Valuation α) : e.value ρ = e.outline.meaning D ρ := by
  induction e using inductionOnRefs generalizing ρ with
  | h id shape ih =>
      have hchild : ∀ c ∈ shape.children, ∀ ρ, c.value ρ = c.outline.meaning D ρ :=
        fun c hc => ih c (Shape.mem_refs_of_mem_children hc) (he.child hc) (hD.child hc)
      cases shape with
      | const v => rw [value, outline, meaning_number]
      | var name =>
          have hname := he.here.var name rfl
          have hnamed := hD.here.var name rfl
          rw [value, outline, meaning, numberWritten_name hname, Option.getD_none, hnamed, id_node]
      | unary op a =>
          have ha := hchild a (by simp [Shape.children])
          simp [value, outline, meaning, meanings, Head.apply, ha]
      | binary op a b =>
          have ha := hchild a (by simp [Shape.children])
          have hb := hchild b (by simp [Shape.children])
          simp [value, outline, meaning, meanings, Head.apply, ha, hb]
      | assoc op args =>
          rw [value, values_eq_map, outline, outlines_eq_map, meaning_gather, List.map_map]
          exact congrArg op.apply (List.map_congr_left fun c hc => hchild c hc ρ)
      | conditional op c a b =>
          have hc := hchild c (by simp [Shape.children])
          have ha := hchild a (by simp [Shape.children])
          have hb := hchild b (by simp [Shape.children])
          simp [value, outline, meaning, meanings, Head.apply, hc, ha, hb]
      | tabulated mark t a =>
          have ha := hchild a (by simp [Shape.children])
          have htable := hD.here.table mark t a rfl
          simp [value, outline, meaning, meanings, Head.apply, ha, htable]
      | solver s =>
          have hbound := hD.here.bound s rfl
          have hguard := hD.here.guard s
          obtain ⟨body, bound, low, high, precision, guard⟩ := s
          have hbody := hchild body (by simp [Shape.children, Solver.children])
          have hlow := hchild low (by simp [Shape.children, Solver.children])
          have hhigh := hchild high (by simp [Shape.children, Solver.children])
          have hprecision := hchild precision (by simp [Shape.children, Solver.children])
          have hkept : (guard.map fun g => marked "where".toList g.1).bind D.guard = guard := by
            cases guard with
            | none => rfl
            | some g => exact hguard g rfl rfl
          simp only [value, outline, meaning, meanings, Head.apply, hbody, hlow, hhigh,
            hprecision, hbound, hkept]

end Formula

/-! ## Families with a dictionary -/

namespace Formula

/-- The variable occurs in the formula, as a leaf or bound by a solver. -/
def Mentions (e : Formula α) (v : Variable) : Prop :=
  ∃ d : Formula α, d.Within e ∧ (d = v.formula ∨ ∃ s, d.shape = .solver s ∧ s.bound = v)

/-- The table occurs in the formula under the identity. -/
def Tabulates (e : Formula α) (mark : NodeId) (t : Table α (Formula α)) : Prop :=
  ∃ d a : Formula α, d.Within e ∧ d.shape = .tabulated mark t a

/-- The guard occurs in the formula. -/
def Guarded (e : Formula α) (g : NodeId × Guard α (Formula α)) : Prop :=
  ∃ d : Formula α, d.Within e ∧ ∃ s, d.shape = .solver s ∧ s.guard = some g

end Formula

/-- No two variables that occur in the family share a name. -/
def NamesApart (M : Formula α → Prop) : Prop :=
  ∀ d e v w, M d → M e → d.Mentions v → e.Mentions w → v.name = w.name → v.id = w.id

/-- No two tables that occur in the family share an identity, and no two guards. -/
structure MarksApart (M : Formula α → Prop) : Prop where
  table : ∀ d e mark t t', M d → M e → d.Tabulates mark t → e.Tabulates mark t' → t = t'
  guard : ∀ d e g g', M d → M e → d.Guarded g → e.Guarded g' → g.1 = g'.1 → g = g'

variable {M : Formula α → Prop}

omit [Scalar α] in
/-- Without tables and solvers there are no identities to be kept apart. -/
theorem MarksApart.of_everywhere
    (h : ∀ e, M e → e.Everywhere fun _ shape =>
      (∀ mark t a, shape ≠ .tabulated mark t a) ∧ ∀ s, shape ≠ .solver s) : MarksApart M where
  table := by
    intro d _ mark t _ hd _ htable _
    obtain ⟨c, a, hc, hshape⟩ := htable
    exact absurd hshape (((h d hd).within hc).here.1 mark t a)
  guard := by
    intro d _ g _ hd _ hguard _ _
    obtain ⟨c, hc, s, hshape, _⟩ := hguard
    exact absurd hshape (((h d hd).within hc).here.2 s)

omit [Scalar α] in
/-- Names are kept apart if the names of all leaves are. -/
theorem NamesApart.of_everywhere {vs : List Variable}
    (hvs : ∀ v ∈ vs, ∀ w ∈ vs, v.name = w.name → v.id = w.id)
    (h : ∀ e, M e → e.Everywhere fun id shape =>
      (∀ name, shape = .var name → ⟨id, name⟩ ∈ vs) ∧ ∀ s, shape ≠ .solver s) : NamesApart M := by
  have hleaf : ∀ {e : Formula α} {v}, M e → e.Mentions v → v ∈ vs := by
    intro e v he hv
    obtain ⟨d, hd, hleaf | ⟨s, hshape, _⟩⟩ := hv
    · rw [hleaf] at hd
      exact ((h e he).within hd).here.1 v.name rfl
    · exact absurd hshape (((h e he).within hd).here.2 s)
  intro d e v w hd he hv hw
  exact hvs v (hleaf hd hv) w (hleaf he hw)

open Classical in
/-- The dictionary of the variables, tables and guards that occur in a family. -/
noncomputable def Dictionary.ofFamily (M : Formula α → Prop) : Dictionary α where
  named w :=
    if h : ∃ v : Variable, (∃ e, M e ∧ e.Mentions v) ∧ v.name.toList = w then h.choose.id else 0
  table key :=
    if h : ∃ t, ∃ mark, (∃ e, M e ∧ e.Tabulates mark t) ∧ marked t.name.toList mark = key then
      some h.choose
    else none
  guard key :=
    if h : ∃ g, (∃ e, M e ∧ e.Guarded g) ∧ marked "where".toList g.1 = key then some h.choose
    else none

omit [Scalar α] in
theorem Dictionary.named_ofFamily (hM : NamesApart M) {e : Formula α} {v : Variable} (he : M e)
    (hv : e.Mentions v) : (ofFamily M).named v.name.toList = v.id := by
  have h : ∃ w : Variable, (∃ e, M e ∧ e.Mentions w) ∧ w.name.toList = v.name.toList :=
    ⟨v, ⟨e, he, hv⟩, rfl⟩
  obtain ⟨⟨d, hd, hw⟩, hname⟩ := h.choose_spec
  rw [ofFamily]
  simp only [dif_pos h]
  exact hM d e _ v hd he hw hv (String.toList_inj.mp hname)

variable [ScalarText α]

/-- If names and identities are kept apart, the dictionary of a family fits it. -/
theorem Dictionary.ofFamily_fits (hnames : NamesApart M) (hmarks : MarksApart M)
    (hplain : ∀ e, M e → e.Plain) {e : Formula α} (he : M e) :
    e.Everywhere (ofFamily M).Fits := by
  refine Formula.everywhere_of_within fun d hd => ?_
  refine ⟨?_, ?_, ?_, ?_⟩
  · intro name hshape
    refine named_ofFamily hnames he (v := ⟨d.id, name⟩) ⟨d, hd, .inl ?_⟩
    obtain ⟨id, shape⟩ := d
    rw [Formula.shape_node] at hshape
    rw [hshape]
    rfl
  · intro mark t a hshape
    have htable : e.Tabulates mark t := ⟨d, a, hd, hshape⟩
    have h : ∃ t', ∃ mark', (∃ e, M e ∧ e.Tabulates mark' t') ∧
        marked t'.name.toList mark' = marked t.name.toList mark := ⟨t, mark, ⟨e, he, htable⟩, rfl⟩
    obtain ⟨mark', ⟨e', he', htable'⟩, hkey⟩ := h.choose_spec
    obtain ⟨d', a', hd', hshape'⟩ := htable'
    have hname : '@' ∉ h.choose.name.toList :=
      (((hplain e' he').within hd').here.table _ _ _ hshape').unmarked
    obtain ⟨_, hmark⟩ := marked_injective hname hkey
    rw [hmark] at hshape'
    rw [ofFamily]
    simp only [dif_pos h]
    exact congrArg some (hmarks.table _ _ _ _ _ he' he ⟨d', a', hd', hshape'⟩ htable)
  · intro s hshape
    exact named_ofFamily hnames he ⟨d, hd, .inr ⟨s, hshape, rfl⟩⟩
  · intro s g hshape hguard
    have hguarded : e.Guarded g := ⟨d, hd, s, hshape, hguard⟩
    have h : ∃ g', (∃ e, M e ∧ e.Guarded g') ∧
        marked "where".toList g'.1 = marked "where".toList g.1 := ⟨g, ⟨e, he, hguarded⟩, rfl⟩
    obtain ⟨⟨e', he', hguarded'⟩, hkey⟩ := h.choose_spec
    obtain ⟨_, hmark⟩ := marked_injective (by simp) hkey
    rw [ofFamily]
    simp only [dif_pos h]
    exact congrArg some (hmarks.guard _ _ _ _ he' he hguarded' hguarded hmark)

/-- Nodes of one signature have one value under every assignment. -/
def SignaturesTell (M : Formula α → Prop) : Prop :=
  ∀ d e, M d → M e → d.signature = e.signature → ∀ ρ : Valuation α, d.value ρ = e.value ρ

/-- **In a plain family, signatures tell values apart if names tell variables apart.** -/
theorem signaturesTell_of_namesApart [ReadableText α] [NeutralElements α]
    (hplain : ∀ e, M e → e.Plain) (hmarks : MarksApart M) (hnames : NamesApart M) :
    SignaturesTell M := by
  intro d e hd he hsame ρ
  have hfits : ∀ {f}, M f → f.Everywhere (Dictionary.ofFamily M).Fits :=
    Dictionary.ofFamily_fits hnames hmarks hplain
  calc d.value ρ
      = d.outline.meaning (.ofFamily M) ρ := Formula.value_eq_meaning (hplain d hd) (hfits hd) ρ
    _ = e.outline.meaning (.ofFamily M) ρ := by
        rw [Formula.outline_eq_of_signature_eq (hplain d hd) (hplain e he) hsame]
    _ = e.value ρ := (Formula.value_eq_meaning (hplain e he) (hfits he) ρ).symm

end FormulaGraph
