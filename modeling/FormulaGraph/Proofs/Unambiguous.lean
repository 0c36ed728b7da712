import FormulaGraph.Proofs.Settling
import FormulaGraph.Proofs.WholeNumbers

/-!
# Signatures are unambiguous

Two formulas are **alike** if they differ in the identity of nodes only, and not of
variables, tables and guards.  Where formulas are simplified to themselves, names are
names and distinct variables are named differently, formulas of one signature are alike,
and the other way round (`signature_eq_iff_alike`): nothing stands beside a sign without
the parentheses it needs, for a zero would have been simplified away, and a minus before
a number is part of the number, for otherwise the number would have been negated.

A sum or a product without arguments, which no factory builds, has to be excluded.  It is
simplified to itself, like any leaf, but its signature is the empty text, so that an empty
sum looks like an empty product (`empty_signatures`).
-/

namespace FormulaGraph

/-- Numbers are written as numerals, each differently from the others, except that
undefined ones are all written alike.  A minus stands before negative numbers and before a
negative zero only. -/
class DistinctText (α : Type) [Scalar α] [ScalarText α] : Prop extends NumeralText α where
  apart : ∀ v w : α, ScalarText.text v = ScalarText.text w →
    v = w ∨ Scalar.isNaN v = true ∧ Scalar.isNaN w = true
  undefined : ∀ v w : α, Scalar.isNaN v = true → Scalar.isNaN w = true →
    ScalarText.text v = ScalarText.text w
  unordered : ∀ v : α, Scalar.isNaN v = true → Scalar.atMost 0 v = false
  minus : ∀ v : α, showsMinus v = true → Scalar.atMost 0 v = false ∨ (v == 0) = true

instance : DistinctText Int where
  apart v w h := .inl (ReadableText.injective v w h)
  undefined v _ h := by cases h
  unordered v h := by cases h
  minus v h := by
    cases v with
    | ofNat n =>
        obtain ⟨hne, -⟩ := (isNumeral_toDigits n).toIsWord
        have hunsigned := (isNumeral_toDigits n).unsigned
        rw [showsMinus, show Int.ofNat n = (n : Int) from rfl, toList_text_natCast] at h
        exact absurd (by simpa using h) hunsigned
    | negSucc n => exact .inl (decide_eq_false (by omega))

/-- A letter or an underscore, and then letters, digits and underscores. -/
def isIdentifier (name : String) : Bool :=
  match name.toList with
  | [] => false
  | c :: cs => (c.isAlpha || c == '_') && cs.all fun c => c.isAlphanum || c == '_'

/-- An identifier is a name, unless it is written like a number or like the base of the
exponential. -/
theorem IsName.of_isIdentifier {name : String} (h : isIdentifier name = true)
    (hinf : name ≠ "inf") (hnan : name ≠ "NaN") (he : name ≠ "e") : IsName name := by
  have hletter : ∀ c : Char, (c.isAlphanum || c == '_') = true →
      isWordLetter c = true ∧ c ≠ '@' := by
    intro c hc
    simp only [isWordLetter, Bool.and_eq_true, bne_iff_ne]
    refine ⟨⟨⟨⟨⟨?_, ?_⟩, ?_⟩, ?_⟩, ?_⟩, ?_⟩ <;> rintro rfl <;> revert hc <;> decide
  have hfirst : ∀ c : Char, (c.isAlpha || c == '_') = true → c.isDigit = false ∧ c ≠ '-' := by
    intro c hc
    refine ⟨?_, by rintro rfl; revert hc; decide⟩
    rcases Bool.or_eq_true_iff.mp hc with halpha | hscore
    · simp only [Char.isAlpha, Char.isUpper, Char.isLower, Bool.or_eq_true, Bool.and_eq_true,
        decide_eq_true_eq, UInt32.le_iff_toNat_le, ge_iff_le] at halpha
      simp only [Char.isDigit, Bool.and_eq_false_iff, decide_eq_false_iff_not,
        UInt32.le_iff_toNat_le, ge_iff_le]
      have hA : 'A'.val.toNat = 65 := rfl
      have ha : 'a'.val.toNat = 97 := rfl
      have h9 : '9'.val.toNat = 57 := rfl
      omega
    · rw [beq_iff_eq.mp hscore]
      rfl
  rw [isIdentifier] at h
  split at h
  · cases h
  · next c cs hname =>
      obtain ⟨hc, hcs⟩ := Bool.and_eq_true_iff.mp h
      obtain ⟨hdigit, hminus⟩ := hfirst c hc
      have hall : ∀ d ∈ name.toList, isWordLetter d = true ∧ d ≠ '@' := by
        intro d hd
        rw [hname] at hd
        rcases List.mem_cons.mp hd with rfl | hd
        · refine hletter d ?_
          rcases Bool.or_eq_true_iff.mp hc with halpha | hscore
          · simp [Char.isAlphanum, halpha]
          · simp [hscore]
        · exact hletter d (List.all_eq_true.mp hcs d hd)
      refine ⟨⟨by simp [hname], fun d hd => (hall d hd).1, by simpa [hname] using hminus⟩, ?_, hinf,
        hnan, he, fun hmark => (hall _ hmark).2 rfl⟩
      intro d hd
      rw [hname] at hd
      rwa [← Option.some.inj hd]

variable {α : Type}

/-! ## Likeness -/

/-- The two nodes are of one kind and agree in all but their children: in the operation, in
the table and its identity, in the bound variable and the guard. -/
def Shape.Agrees {ε : Type} : Shape α ε → Shape α ε → Prop
  | unary op _, unary op' _ => op = op'
  | binary op _ _, binary op' _ _ => op = op'
  | assoc op _, assoc op' _ => op = op'
  | conditional op _ _ _, conditional op' _ _ _ => op = op'
  | tabulated mark t _, tabulated mark' t' _ => mark = mark' ∧ t = t'
  | solver s, solver s' => s.bound = s'.bound ∧ s.guard = s'.guard
  | _, _ => False

namespace Formula

/-- The formulas are built alike from the same variables and from equal constants, where
any two undefined constants count as equal. -/
inductive Alike [Scalar α] : Formula α → Formula α → Prop
  | const {id id' : NodeId} {v w : α}
      (equal : v = w ∨ Scalar.isNaN v = true ∧ Scalar.isNaN w = true) :
      Alike (node id (.const v)) (node id' (.const w))
  | var (v : Variable) : Alike v.formula v.formula
  | operation {id id' : NodeId} {shape shape' : Shape α (Formula α)} (root : shape.Agrees shape')
      (children : List.Forall₂ Alike shape.children shape'.children) :
      Alike (node id shape) (node id' shape')

/-- The formulas have one signature, and the same parentheses wherever they stand. -/
structure WrittenAlike [Scalar α] [ScalarText α] (d e : Formula α) : Prop where
  priority : d.priority = e.priority
  text : ∀ depth, text (fun _ => none) true depth d = text (fun _ => none) true depth e

/-- As far as the node itself is concerned, names are names. -/
structure NamedNode (id : NodeId) (shape : Shape α (Formula α)) : Prop where
  var : ∀ name, shape = .var name → IsName name
  table : ∀ mark t a, shape = .tabulated mark t a → IsName t.name
  bound : ∀ s, shape = .solver s → IsName s.bound.name

/-- Variables and tables have names. -/
abbrev Named : Formula α → Prop := Everywhere NamedNode

/-- No sum and no product is without arguments. -/
abbrev NeverEmpty : Formula α → Prop :=
  Everywhere fun _ shape => ∀ op, shape = .assoc op [] → op = .hypot

end Formula

variable [Scalar α]

/-! ## What stands in simple nodes -/

namespace Shape

/-- A simple node that has children is not made of constants only. -/
theorem IsSimple.foldConstants_eq_none {shape : Shape α (Formula α)} (h : shape.IsSimple)
    (hne : shape.children ≠ []) : Formula.foldConstants shape = none :=
  Formula.foldConstants_eq_none_of_rootRule (h.resolve_left hne)

theorem IsSimple.not_isConstant {op : UnaryOp} {a : Formula α}
    (h : (Shape.unary op a).IsSimple) : a.isConstant = false := by
  have hfold := h.foldConstants_eq_none (by simp [children])
  by_contra hconst
  simp [Formula.foldConstants, children, hconst] at hfold

/-- No zero stands beside a sign. -/
theorem IsSimple.operand_ne_zero {shape : Shape α (Formula α)} (h : shape.IsSimple)
    {a : Formula α} (ha : a ∈ shape.operands) {v : α} (hv : a.asConstant = some v) :
    (v == 0) = false := by
  have hconst : a.isConstant = true := by simp [Formula.isConstant, hv]
  have hne : shape.children ≠ [] := List.ne_nil_of_mem (mem_children_of_mem_operands ha)
  have hrule := h.resolve_left hne
  have hfold := h.foldConstants_eq_none hne
  cases shape with
  | unary op b =>
      have hab : a = b := by cases op <;> simp_all [operands]
      rw [← hab] at h
      rw [h.not_isConstant] at hconst
      cases hconst
  | binary op b c =>
      by_contra hzero
      have hzero' : a.isConstantValue 0 = true := by simpa [Formula.isConstantValue, hv] using hzero
      rw [Formula.rootRule, hfold] at hrule
      cases op <;> grind [operands, Formula.binaryRule]
  | assoc op args =>
      have hmem : a ∈ args := mem_children_of_mem_operands ha
      have hadmits := h.constantsStay op args rfl a hmem v hv
      cases op <;> simp_all [operands, AssocOp.admits]
  | _ => cases ha

/-- What stands at the root of the outline of a node, unless this is a constant or a
variable. -/
def head? : Shape α (Formula α) → Option Head
  | const _ | var _ => none
  | unary op _ => some (.unary op)
  | binary op _ _ => some (.binary op)
  | assoc op _ => some (.assoc op)
  | conditional op _ _ _ => some (.conditional op)
  | tabulated mark t _ => some (.table (marked t.name.toList mark))
  | solver s => some (.solver s.bound.name.toList (s.guard.map fun g => marked "where".toList g.1))

end Shape

namespace Formula

variable [ScalarText α]

/-- Formulas that are simple and in which names are names are plain. -/
theorem AllSimple.plain [DistinctText α] {e : Formula α} (hsimple : e.AllSimple)
    (hnamed : e.Named) (hnonempty : e.NeverEmpty) : e.Plain := by
  refine everywhere_of_within fun d hd => ?_
  obtain ⟨hvar, htable, hbound⟩ := (hnamed.within hd).here
  refine ⟨?_, (hnonempty.within hd).here, hvar, htable, hbound⟩
  intro a ha v hv hminus
  have hvalue : a.asConstant = some v := by
    obtain ⟨id, shape⟩ := a
    rw [shape_node] at hv
    rw [hv]
    rfl
  rcases DistinctText.minus v hminus with hnegative | hzero
  · exact hnegative
  · rw [(hsimple.within hd).here.operand_ne_zero ha hvalue] at hzero
    cases hzero

/-! ## Outlines of simple formulas -/

/-- The outline of a simple node says what stands at its root: sums and products of one
argument are not simple. -/
theorem outline_of_head {e : Formula α} (h : e.AllSimple) {head : Head}
    (hhead : e.shape.head? = some head) : e.outline = .over head (e.children.map outline) := by
  obtain ⟨id, shape⟩ := e
  cases shape with
  | const v => cases hhead
  | var name => cases hhead
  | assoc op args =>
      obtain rfl := Option.some.inj hhead
      rw [outline, outlines_eq_map]
      rcases Outline.gather_cases op (args.map outline) with hgather | ⟨o, ho, hgather⟩
      · exact hgather
      · obtain ⟨a, rfl, rfl⟩ := List.map_eq_singleton_iff.mp ho
        have hcanonical := h.here.canonical (by simp)
        cases op with
        | hypot => rfl
        | add => simp [isCanonical] at hcanonical
        | multiply => simp [isCanonical] at hcanonical
  | solver s =>
      obtain rfl := Option.some.inj hhead
      rfl
  | _ =>
      obtain rfl := Option.some.inj hhead
      rfl

end Formula

theorem Outline.number_injective {l l' : List Char} (h : number l = number l') : l = l' := by
  unfold number at h
  split at h <;> split at h <;> simp_all

namespace Formula

section Outlines

variable [ScalarText α] [NumeralText α]

/-- A name is not read as a number. -/
theorem number_ne_name {name : String} (hname : IsName name) (v : α) :
    Outline.number (ScalarText.text v).toList ≠ .word name.toList := by
  obtain ⟨w, hw, htext | htext⟩ := NumeralText.numeral v
  · rw [htext, Outline.number_of_unsigned hw.unsigned]
    intro h
    obtain rfl := Outline.word.inj h
    exact hname.not_numeral hw
  · rw [htext, Outline.number]
    simp

omit [NumeralText α] in
/-- What is read as a number without a minus is a constant. -/
theorem isConstant_of_outline_eq {e : Formula α} (hsimple : e.AllSimple) (hnamed : e.Named)
    {w : List Char} (hw : IsNumeral w) (h : e.outline = .word w) : e.isConstant = true := by
  obtain ⟨id, shape⟩ := e
  cases hhead : shape.head? with
  | some head =>
      rw [outline_of_head hsimple hhead] at h
      cases h
  | none =>
      cases shape with
      | const v => rfl
      | var name =>
          obtain rfl : name.toList = w := by simpa [outline] using h
          exact absurd hw (hnamed.here.var name rfl).not_numeral
      | _ => cases hhead

/-- An operation is not read as a number: a negated number is simplified to a constant. -/
theorem outline_ne_number {e : Formula α} (hsimple : e.AllSimple) (hnamed : e.Named) {head : Head}
    (hhead : e.shape.head? = some head) (v : α) :
    e.outline ≠ .number (ScalarText.text v).toList := by
  rw [outline_of_head hsimple hhead]
  obtain ⟨id, shape⟩ := e
  obtain ⟨w, hw, htext | htext⟩ := NumeralText.numeral v
  · rw [htext, Outline.number_of_unsigned hw.unsigned]
    simp
  · rw [htext, Outline.number]
    intro h
    obtain ⟨rfl, hparts⟩ := Outline.over.inj h
    cases shape with
    | unary op a =>
        have ha : a ∈ (node id (.unary op a)).children := List.mem_cons_self
        have hconst := isConstant_of_outline_eq (hsimple.child ha) (hnamed.child ha) hw
          (List.cons.inj hparts).1
        rw [hsimple.here.not_isConstant] at hconst
        cases hconst
    | _ => cases hhead

end Outlines

end Formula

/-! ## Formulas of one outline -/

variable {M : Formula α → Prop}

section Apart

omit [Scalar α]

namespace Formula

/-- The node occurs in a formula of the family. -/
def OccursIn (M : Formula α → Prop) (d : Formula α) : Prop := ∃ e, M e ∧ d.Within e

theorem OccursIn.child {d c : Formula α} (h : d.OccursIn M) (hc : c ∈ d.children) :
    c.OccursIn M := by
  obtain ⟨e, he, hd⟩ := h
  exact ⟨e, he, (Within.child hc (.refl c)).trans hd⟩

end Formula

theorem NamesApart.eq_of_name_eq (hnames : NamesApart M) {d e : Formula α} (hd : d.OccursIn M)
    (he : e.OccursIn M) {v w : Variable}
    (hv : d = v.formula ∨ ∃ s, d.shape = .solver s ∧ s.bound = v)
    (hw : e = w.formula ∨ ∃ s, e.shape = .solver s ∧ s.bound = w) (h : v.name = w.name) :
    v = w := by
  obtain ⟨d₀, hd₀, hd⟩ := hd
  obtain ⟨e₀, he₀, he⟩ := he
  have hid := hnames d₀ e₀ v w hd₀ he₀ ⟨d, hd, hv⟩ ⟨e, he, hw⟩ h
  cases v
  cases w
  simp_all

/-- Nodes with one root in their outlines agree, where names and identities are kept
apart. -/
theorem Shape.agrees_of_head_eq (hnames : NamesApart M) (hmarks : MarksApart M)
    {d e : Formula α} (hd : d.OccursIn M) (he : e.OccursIn M) (hnamed : d.Named)
    (h : d.shape.head? = e.shape.head?) (hsome : d.shape.head?.isSome = true) :
    d.shape.Agrees e.shape := by
  have htable : ∀ mark t a mark' t' a', d.shape = .tabulated mark t a →
      e.shape = .tabulated mark' t' a' → marked t.name.toList mark = marked t'.name.toList mark' →
      mark = mark' ∧ t = t' := by
    intro mark t a mark' t' a' hshape hshape' hkey
    obtain ⟨-, rfl⟩ := marked_injective (hnamed.here.table mark t a hshape).unmarked hkey
    obtain ⟨d₀, hd₀, hd⟩ := hd
    obtain ⟨e₀, he₀, he⟩ := he
    exact ⟨rfl, hmarks.table d₀ e₀ mark t t' hd₀ he₀ ⟨d, a, hd, hshape⟩ ⟨e, a', he, hshape'⟩⟩
  have hsolver : ∀ s s', d.shape = .solver s → e.shape = .solver s' →
      s.bound.name.toList = s'.bound.name.toList →
      (s.guard.map fun g => marked "where".toList g.1) =
        (s'.guard.map fun g => marked "where".toList g.1) →
      s.bound = s'.bound ∧ s.guard = s'.guard := by
    intro s s' hshape hshape' hbound hguard
    refine ⟨hnames.eq_of_name_eq hd he (.inr ⟨s, hshape, rfl⟩) (.inr ⟨s', hshape', rfl⟩)
      (String.toList_inj.mp hbound), ?_⟩
    obtain ⟨d₀, hd₀, hd⟩ := hd
    obtain ⟨e₀, he₀, he⟩ := he
    cases hg : s.guard with
    | none => simp_all
    | some g =>
        cases hg' : s'.guard with
        | none => simp_all
        | some g' =>
            rw [hg, hg'] at hguard
            obtain ⟨-, hmark⟩ := marked_injective (by simp) (Option.some.inj hguard)
            exact congrArg some (hmarks.guard d₀ e₀ g g' hd₀ he₀ ⟨d, hd, s, hshape, hg⟩
              ⟨e, he, s', hshape', hg'⟩ hmark)
  cases hshape : d.shape <;> cases hshape' : e.shape <;> grind [head?, Agrees]

end Apart

namespace Formula

variable [ScalarText α] [DistinctText α]

/-- The formulas have the same at the root: equal constants, variables of one name, or one
operation over children of the same outlines. -/
inductive SameRoot : Formula α → Formula α → Prop
  | const {id id' : NodeId} {v w : α}
      (equal : v = w ∨ Scalar.isNaN v = true ∧ Scalar.isNaN w = true) :
      SameRoot (node id (.const v)) (node id' (.const w))
  | var (id id' : NodeId) (name : String) : SameRoot (node id (.var name)) (node id' (.var name))
  | operation {id id' : NodeId} {shape shape' : Shape α (Formula α)}
      (root : shape.head? = shape'.head?) (isOperation : shape.head?.isSome = true)
      (children : List.Forall₂ (fun c c' : Formula α => c.outline = c'.outline)
        shape.children shape'.children) : SameRoot (node id shape) (node id' shape')

theorem sameRoot_of_outline_eq {d e : Formula α} (hd : d.AllSimple ∧ d.Named)
    (he : e.AllSimple ∧ e.Named) (h : d.outline = e.outline) : d.SameRoot e := by
  obtain ⟨hdSimple, hdNamed⟩ := hd
  obtain ⟨heSimple, heNamed⟩ := he
  obtain ⟨id, shape⟩ := d
  obtain ⟨id', shape'⟩ := e
  cases hhead : shape.head? with
  | some head =>
      cases hhead' : shape'.head? with
      | some head' =>
          rw [outline_of_head hdSimple hhead, outline_of_head heSimple hhead'] at h
          obtain ⟨rfl, hparts⟩ := Outline.over.inj h
          refine .operation (hhead.trans hhead'.symm) (by simp [hhead]) ?_
          rwa [← List.forall₂_eq_eq_eq, List.forall₂_map_left_iff,
            List.forall₂_map_right_iff] at hparts
      | none =>
          cases shape' with
          | const w => exact absurd h (outline_ne_number hdSimple hdNamed hhead w)
          | var name =>
              rw [outline_of_head hdSimple hhead] at h
              cases h
          | _ => cases hhead'
  | none =>
      have hleaf : ∀ head', shape'.head? = some head' → False := by
        intro head' hhead'
        cases shape with
        | const v => exact outline_ne_number heSimple heNamed hhead' v h.symm
        | var name =>
            rw [outline_of_head heSimple hhead'] at h
            cases h
        | _ => cases hhead
      cases shape with
      | const v =>
          cases shape' with
          | const w =>
              have htext := String.toList_inj.mp (Outline.number_injective h)
              exact .const (DistinctText.apart v w htext)
          | var name => exact absurd h (number_ne_name (heNamed.here.var name rfl) v)
          | _ => exact (hleaf _ rfl).elim
      | var name =>
          cases shape' with
          | const w => exact absurd h.symm (number_ne_name (hdNamed.here.var name rfl) w)
          | var name' =>
              obtain rfl : name = name' := String.toList_inj.mp (Outline.word.inj h)
              exact .var id id' name
          | _ => exact (hleaf _ rfl).elim
      | _ => cases hhead

/-- **Simple formulas of one outline are alike**, where names and identities are kept
apart. -/
theorem alike_of_outline_eq (hnames : NamesApart M) (hmarks : MarksApart M)
    {d e : Formula α} (hd : d.OccursIn M) (he : e.OccursIn M)
    (hsimple : ∀ c : Formula α, c.OccursIn M → c.AllSimple ∧ c.Named)
    (h : d.outline = e.outline) : d.Alike e := by
  induction d using inductionOnRefs generalizing e with
  | h id shape ih =>
      cases sameRoot_of_outline_eq (hsimple _ hd) (hsimple _ he) h with
      | const equal => exact .const equal
      | var _ id' name =>
          have hsame := hnames.eq_of_name_eq hd he (v := ⟨id, name⟩) (w := ⟨id', name⟩)
            (.inl rfl) (.inl rfl) rfl
          obtain ⟨rfl, -⟩ := Variable.mk.inj hsame
          exact .var ⟨id, name⟩
      | operation root isOperation children =>
          refine .operation (Shape.agrees_of_head_eq hnames hmarks hd he (hsimple _ hd).2
            root isOperation) (List.forall₂_iff_zip.mpr ⟨children.length_eq, ?_⟩)
          intro c c' hzip
          obtain ⟨hc, hc'⟩ := List.of_mem_zip hzip
          exact ih c (Shape.mem_refs_of_mem_children hc) (hd.child hc) (he.child hc')
            ((List.forall₂_iff_zip.mp children).2 hzip)

/-! ## Formulas that are alike -/

omit [ScalarText α] [DistinctText α] in
theorem Alike.agrees {d e : Formula α} (h : d.Alike e) (hhead : d.shape.head?.isSome = true) :
    d.shape.Agrees e.shape := by
  cases h with
  | const => cases hhead
  | var => cases hhead
  | operation root _ => exact root

omit [DistinctText α] in
theorem WrittenAlike.of_signature_eq {d e : Formula α} (hpriority : d.priority = e.priority)
    (h : d.signature = e.signature) : d.WrittenAlike e := by
  refine ⟨hpriority, fun depth => ?_⟩
  rw [text_unlabelled true d depth fullDepth, text_unlabelled true e depth fullDepth]
  exact h

omit [DistinctText α] in
/-- What has one root in its outline, over children that are written alike and in the same
parentheses, is written alike and in the same parentheses. -/
theorem writtenAlike_of_head_eq {id id' : NodeId} {shape shape' : Shape α (Formula α)}
    (root : shape.head? = shape'.head?) (isOperation : shape.head?.isSome = true)
    (h : List.Forall₂ WrittenAlike shape.children shape'.children) :
    WrittenAlike (node id shape) (node id' shape') := by
  have htexts : ∀ depth, shape.children.map (text (fun _ => none) true depth) =
      shape'.children.map (text (fun _ => none) true depth) := by
    intro depth
    rw [← List.forall₂_eq_eq_eq, List.forall₂_map_left_iff, List.forall₂_map_right_iff]
    exact h.imp fun _ _ h => h.text depth
  have henclosed : ∀ depth place,
      shape.children.map (fun c => enclose (fun _ => none) depth place c
        (text (fun _ => none) true depth c)) =
      shape'.children.map (fun c => enclose (fun _ => none) depth place c
        (text (fun _ => none) true depth c)) := by
    intro depth place
    rw [← List.forall₂_eq_eq_eq, List.forall₂_map_left_iff, List.forall₂_map_right_iff]
    exact h.imp fun c c' h => by rw [enclose_none, enclose_none, h.priority, h.text]
  cases shape <;> cases shape' <;>
    simp only [Shape.head?, Option.some.injEq, Head.unary.injEq, Head.binary.injEq,
      Head.assoc.injEq, Head.conditional.injEq, Head.table.injEq, Head.solver.injEq,
      Option.isSome_none, reduceCtorEq] at root isOperation <;>
    simp only [Shape.children, Solver.children, List.map_cons, List.map_nil,
      List.cons.injEq, and_true] at htexts henclosed
  case unary.unary op a op' a' =>
      subst root
      refine ⟨rfl, fun depth => ?_⟩
      cases op <;> simp [text, labelAt_none, htexts, ↓henclosed]
  case binary.binary op a b op' a' b' =>
      subst root
      refine ⟨rfl, fun depth => ?_⟩
      cases op <;> simp [text, labelAt_none, htexts, ↓henclosed]
  case assoc.assoc op args op' args' =>
      subst root
      refine ⟨rfl, fun depth => ?_⟩
      cases op with
      | hypot => simp only [text, labelAt_none, texts_eq_map, htexts]
      | _ => simp only [text, labelAt_none, texts_eq_map, encloseAll_map, henclosed]
  case conditional.conditional op c a b op' c' a' b' =>
      subst root
      exact ⟨rfl, fun depth => by simp [text, labelAt_none, htexts]⟩
  case tabulated.tabulated mark t a mark' t' a' =>
      refine .of_signature_eq rfl (spelling_eq_iff.mp ?_)
      rw [spelling_tabulated, spelling_tabulated, root, spelling_eq_iff.mpr (htexts fullDepth)]
  case solver.solver s s' =>
      obtain ⟨hbound, hguard⟩ := root
      have hguards : (s.guard.toList.map fun g => marked "where".toList g.1) =
          s'.guard.toList.map fun g => marked "where".toList g.1 := by
        rw [← Option.toList_map, ← Option.toList_map, hguard]
      have hchildren : s.children.map spelling = s'.children.map spelling := by
        rw [← List.forall₂_eq_eq_eq, List.forall₂_map_left_iff, List.forall₂_map_right_iff]
        exact h.imp fun _ _ h => spelling_eq_iff.mpr (h.text fullDepth)
      refine .of_signature_eq rfl (spelling_eq_iff.mp ?_)
      rw [spelling_solver, spelling_solver, hbound, hguards, hchildren]

omit [Scalar α] [ScalarText α] [DistinctText α] in
theorem head_eq_of_agrees {shape shape' : Shape α (Formula α)} (h : shape.Agrees shape') :
    shape.head? = shape'.head? ∧ shape.head?.isSome = true := by
  cases shape <;> cases shape' <;> simp_all [Shape.Agrees, Shape.head?]

theorem writtenAlike_of_const {id id' : NodeId} {v w : α}
    (h : v = w ∨ Scalar.isNaN v = true ∧ Scalar.isNaN w = true) :
    WrittenAlike (node id (.const v)) (node id' (.const w)) := by
  rcases h with rfl | ⟨hv, hw⟩
  · exact ⟨rfl, fun _ => by simp [text, labelAt_none]⟩
  · refine ⟨?_, fun _ => ?_⟩
    · simp [priority, Shape.priority, DistinctText.unordered v hv, DistinctText.unordered w hw]
    · simp [text, labelAt_none, DistinctText.undefined v w hv hw]

/-- Simple formulas of one outline are written alike, also where names and identities are not
kept apart. -/
theorem writtenAlike_of_outline_eq {d e : Formula α} (hd : d.AllSimple ∧ d.Named)
    (he : e.AllSimple ∧ e.Named) (h : d.outline = e.outline) : d.WrittenAlike e := by
  induction d using inductionOnRefs generalizing e with
  | h id shape ih =>
      cases sameRoot_of_outline_eq hd he h with
      | const equal => exact writtenAlike_of_const equal
      | var => exact .of_signature_eq rfl (by simp [signature, text, labelAt_none])
      | operation root isOperation children =>
          refine writtenAlike_of_head_eq root isOperation
            (List.forall₂_iff_zip.mpr ⟨children.length_eq, ?_⟩)
          intro c c' hzip
          obtain ⟨hc, hc'⟩ := List.of_mem_zip hzip
          exact ih c (Shape.mem_refs_of_mem_children hc) ⟨hd.1.child hc, hd.2.child hc⟩
            ⟨he.1.child hc', he.2.child hc'⟩ ((List.forall₂_iff_zip.mp children).2 hzip)

theorem Alike.writtenAlike {d e : Formula α} (h : d.Alike e) : d.WrittenAlike e := by
  induction d using inductionOnRefs generalizing e with
  | h id shape ih =>
      cases h with
      | const equal => exact writtenAlike_of_const equal
      | var v => exact ⟨rfl, fun _ => rfl⟩
      | operation root children =>
          obtain ⟨hroot, hsome⟩ := head_eq_of_agrees root
          refine writtenAlike_of_head_eq hroot hsome
            (List.forall₂_iff_zip.mpr ⟨children.length_eq, ?_⟩)
          intro c c' hzip
          exact ih c (Shape.mem_refs_of_mem_children (List.of_mem_zip hzip).1)
            ((List.forall₂_iff_zip.mp children).2 hzip)

/-- **Signatures are unambiguous.**  In a family of formulas that are simplified to
themselves, in which no sum or product is without arguments, names are names, distinct
variables are named differently, and tables and guards have identities of their own, formulas
have one signature exactly if they are alike. -/
theorem signature_eq_iff_alike {L : Ledger α}
    (hfixed : ∀ e, M e → e.KnownTo L ∧ (e.simplify.run L.next).1 = e)
    (hnonempty : ∀ e, M e → e.NeverEmpty) (hnamed : ∀ e, M e → e.Named)
    (hnames : NamesApart M) (hmarks : MarksApart M)
    {d e : Formula α} (hd : M d) (he : M e) : d.signature = e.signature ↔ d.Alike e := by
  have hsimple : ∀ {c}, M c → c.AllSimple := fun hc =>
    (simplify_eq_iff (hfixed _ hc).1).mp (hfixed _ hc).2
  refine ⟨fun h => ?_, fun h => h.writtenAlike.text fullDepth⟩
  have houtline := outline_eq_of_signature_eq
    ((hsimple hd).plain (hnamed d hd) (hnonempty d hd))
    ((hsimple he).plain (hnamed e he) (hnonempty e he)) h
  refine alike_of_outline_eq hnames hmarks ⟨d, hd, .refl d⟩ ⟨e, he, .refl e⟩ ?_ houtline
  rintro c ⟨f, hf, hc⟩
  exact ⟨(hsimple hf).within hc, (hnamed f hf).within hc⟩

/-- Over whole numbers, the product of minus two and `x` has the signature of another such
product, and not that of the negated product of two and `x`. -/
theorem signatures_of_negative_products :
    let x : Formula Int := node 2 (.var "x")
    let m : Formula Int := node 3 (.const (-2))
    let p : Formula Int := node 4 (.assoc .multiply [m, x])
    let p' : Formula Int := node 5 (.assoc .multiply [m, x])
    let t : Formula Int := node 6 (.const 2)
    let q : Formula Int := node 8 (.unary .negate (node 7 (.assoc .multiply [t, x])))
    p.signature = p'.signature ∧ p.signature ≠ q.signature := by
  intro x m p p' t q
  let r : Formula Int := node 7 (.assoc .multiply [t, x])
  let M : Formula Int → Prop := fun d => d = p ∨ d = p' ∨ d = q
  let L : Ledger Int :=
    { directory := fun id => [zero, one, x, m, p, p', t, r, q].getD id one
      next := 9
      firstFree_le := by decide
      zero_entry := rfl
      one_entry := rfl }
  have hknown : ∀ d, M d → d.KnownTo L := by
    have hx : x.KnownTo L := .node (by decide) rfl (by simp [Shape.refs, Shape.children])
    have hm : m.KnownTo L := .node (by decide) rfl (by simp [Shape.refs, Shape.children])
    have ht : t.KnownTo L := .node (by decide) rfl (by simp [Shape.refs, Shape.children])
    have hr : r.KnownTo L := .node (by decide) rfl (by simp [Shape.refs, Shape.children, hx, ht])
    rintro d (rfl | rfl | rfl)
    · exact .node (by decide) rfl (by simp [Shape.refs, Shape.children, hx, hm])
    · exact .node (by decide) rfl (by simp [Shape.refs, Shape.children, hx, hm])
    · exact .node (by decide) rfl (by simpa [Shape.refs, Shape.children] using hr)
  have hfixed : ∀ d, M d → (d.simplify.run L.next).1 = d := by
    rintro d (rfl | rfl | rfl)
    · cbv
    · cbv
    · cbv
  have hall : ∀ {A : NodeId → Shape Int (Formula Int) → Prop}, A 2 (.var "x") →
      (∀ id v, A id (.const v)) → (∀ id c, A id (.assoc .multiply [c, x])) →
      (∀ id a, A id (.unary .negate a)) → ∀ d, M d → d.Everywhere A := by
    intro A hvar hconst hproduct hnegate
    have hx : x.Everywhere A := .node hvar (by simp [Shape.children])
    have hm : m.Everywhere A := .node (hconst _ _) (by simp [Shape.children])
    have ht : t.Everywhere A := .node (hconst _ _) (by simp [Shape.children])
    have hr : r.Everywhere A := .node (hproduct _ _) (by simp [Shape.children, hx, ht])
    rintro d (rfl | rfl | rfl)
    · exact .node (hproduct _ _) (by simp [Shape.children, hx, hm])
    · exact .node (hproduct _ _) (by simp [Shape.children, hx, hm])
    · exact .node (hnegate _ _) (by simpa [Shape.children] using hr)
  have hname : IsName "x" := .of_isIdentifier (by decide) (by decide) (by decide) (by decide)
  have hnamed : ∀ d, M d → d.Named :=
    hall ⟨by simpa using hname, by simp, by simp⟩ (fun _ _ => ⟨by simp, by simp, by simp⟩)
      (fun _ _ => ⟨by simp, by simp, by simp⟩) (fun _ _ => ⟨by simp, by simp, by simp⟩)
  have hmarks : MarksApart M := .of_everywhere (hall (by simp) (by simp) (by simp) (by simp))
  have hnames : NamesApart M :=
    have hvs : ∀ v ∈ [(⟨2, "x"⟩ : Variable)], ∀ w ∈ [(⟨2, "x"⟩ : Variable)],
        v.name = w.name → v.id = w.id := by
      simp
    .of_everywhere hvs (hall (by simp) (by simp) (by simp) (by simp))
  have hiff : ∀ {d e}, M d → M e → (d.signature = e.signature ↔ d.Alike e) :=
    signature_eq_iff_alike (fun d hd => ⟨hknown d hd, hfixed d hd⟩)
      (hall (by simp) (by simp) (by simp) (by simp)) hnamed hnames hmarks
  refine ⟨(hiff (.inl rfl) (.inr (.inl rfl))).mpr ?_, fun h => ?_⟩
  · exact .operation rfl (.cons (.const (.inl rfl)) (.cons (.var ⟨2, "x"⟩) .nil))
  · exact ((hiff (.inl rfl) (.inr (.inr rfl))).mp h).agrees rfl

/-- An empty sum and an empty product are simplified to themselves and have no names in them,
yet they have one signature, and are not alike: one is zero, the other one. -/
theorem empty_signatures :
    let s : Formula Int := node 2 (.assoc .add [])
    let p : Formula Int := node 3 (.assoc .multiply [])
    (∃ L : Ledger Int, L.next = 4 ∧ s.KnownTo L ∧ p.KnownTo L) ∧
      (s.simplify.run 4).1 = s ∧ (p.simplify.run 4).1 = p ∧
      s.signature = p.signature ∧ ¬ s.Alike p ∧
      ∀ ρ : Valuation Int, s.value ρ = 0 ∧ p.value ρ = 1 := by
  intro s p
  let L₁ := (Ledger.initial : Ledger Int).add (.assoc .add [])
  have hs : s.KnownTo L₁ := add_known (by simp [Shape.refs, Shape.children])
  have hp : p.KnownTo (L₁.add (.assoc .multiply [])) :=
    add_known (by simp [Shape.refs, Shape.children])
  refine ⟨⟨_, rfl, hs.mono (L₁.extends_add _), hp⟩, ?_, ?_, ?_, ?_, ?_⟩
  · cbv
  · cbv
  · rfl
  · intro h
    cases h.agrees rfl
  · intro ρ
    exact ⟨rfl, rfl⟩

end Formula

end FormulaGraph
