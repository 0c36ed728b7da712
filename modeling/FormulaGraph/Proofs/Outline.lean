import FormulaGraph.Proofs.Spelling
import Mathlib.Data.List.Basic

/-!
# Outlines: what a signature says

An **outline** is what is left of a formula when its nodes have no identity: numbers
and names as they are written, tables and guards by name and identity, and the
operations over them.  A sum or a product of a single argument is not told apart from
that argument, nor a negative number from the number it is the negative of: neither is
by the signature, except for parentheses.

Signatures are plain if names look neither like numbers nor like anything else a
signature is made of, no sum or product is empty, and a zero written with a minus is
no operand of a sign, where it would lack parentheses.
-/

namespace FormulaGraph

/-- What stands at the root of an outline, written out where it is not an operation. -/
inductive Head where
  | unary (op : UnaryOp)
  | binary (op : BinaryOp)
  | assoc (op : AssocOp)
  | conditional (op : ConditionalOp)
  | table (key : List Char)
  | solver (bound : List Char) (guard : Option (List Char))

inductive Outline where
  | word (letters : List Char)
  | over (head : Head) (parts : List Outline)

namespace Outline

/-- The outline of a number as it is written. -/
def number : List Char → Outline
  | '-' :: letters => .over (.unary .negate) [.word letters]
  | letters => .word letters

/-- The outline of a sum, a product or a length. -/
def gather : AssocOp → List Outline → Outline
  | .add, [o] | .multiply, [o] => o
  | op, os => .over (.assoc op) os

/-- Without a minus, a number is a word. -/
theorem number_of_unsigned {w : List Char} (h : w.head? ≠ some '-') : number w = .word w := by
  unfold number
  split
  · simp at h
  · rfl

/-- Several arguments are gathered, and so is a length; a single one stands for itself. -/
theorem gather_cases (op : AssocOp) (os : List Outline) :
    gather op os = .over (.assoc op) os ∨ ∃ o, os = [o] ∧ gather op os = o := by
  unfold gather
  split
  · exact .inr ⟨_, rfl, rfl⟩
  · exact .inr ⟨_, rfl, rfl⟩
  · exact .inl rfl

end Outline

/-! ## Words -/

/-- The letters words are made of. -/
def isWordLetter (c : Char) : Bool :=
  c != ' ' && c != '(' && c != ')' && c != ';' && c != ','

/-- A word has letters only, and no sign before them. -/
structure IsWord (w : List Char) : Prop where
  ne_nil : w ≠ []
  letter : ∀ c ∈ w, isWordLetter c = true
  unsigned : w.head? ≠ some '-'

/-- A word begins with a letter that is neither a parenthesis nor a sign. -/
theorem IsWord.begins {w : List Char} (hw : IsWord w) :
    ∃ c t, w = c :: t ∧ c ≠ ')' ∧ c ≠ '(' ∧ c ≠ '-' := by
  cases w with
  | nil => exact absurd rfl hw.ne_nil
  | cons c t =>
      have hletter := hw.letter c List.mem_cons_self
      refine ⟨c, t, rfl, ?_, ?_, by simpa using hw.unsigned⟩
      · intro heq
        obtain rfl := heq
        exact absurd hletter (by decide)
      · intro heq
        obtain rfl := heq
        exact absurd hletter (by decide)

/-- A number without a sign: a word that begins with a digit, or a special one. -/
structure IsNumeral (w : List Char) : Prop extends IsWord w where
  form : w = "inf".toList ∨ w = "NaN".toList ∨ ∃ c, w.head? = some c ∧ c.isDigit = true

/-- Digits with a point among them are a numeral. -/
theorem isNumeral_of_digits {c : Char} {t : List Char} (hc : c.isDigit = true)
    (ht : ∀ c' ∈ t, c'.isDigit = true ∨ c' = '.') : IsNumeral (c :: t) := by
  have hletter : ∀ c' : Char, c'.isDigit = true → isWordLetter c' = true := by
    intro c' hc'
    simp only [isWordLetter, Bool.and_eq_true, bne_iff_ne]
    refine ⟨⟨⟨⟨?_, ?_⟩, ?_⟩, ?_⟩, ?_⟩ <;> rintro rfl <;> revert hc' <;> decide
  refine ⟨⟨List.cons_ne_nil c t, ?_, ?_⟩, .inr (.inr ⟨c, rfl, hc⟩)⟩
  · intro c' hc'
    rcases List.mem_cons.mp hc' with rfl | hc'
    · exact hletter c' hc
    · rcases ht c' hc' with hdigit | rfl
      · exact hletter c' hdigit
      · decide
  · intro hminus
    rw [Option.some.inj hminus] at hc
    exact absurd hc (by decide)

/-- A name of a variable or a table, which is neither a number nor a constant, and does
not contain the sign before an identity. -/
structure IsName (name : String) : Prop extends IsWord name.toList where
  not_digit : ∀ c, name.toList.head? = some c → c.isDigit = false
  not_inf : name ≠ "inf"
  not_nan : name ≠ "NaN"
  not_e : name ≠ "e"
  unmarked : '@' ∉ name.toList

/-- Names are told from numerals by their first letter. -/
theorem IsName.not_numeral {name : String} (h : IsName name) : ¬ IsNumeral name.toList := by
  intro hnumeral
  rcases hnumeral.form with hinf | hnan | ⟨c, hc, hdigit⟩
  · exact h.not_inf (String.toList_inj.mp hinf)
  · exact h.not_nan (String.toList_inj.mp hnan)
  · rw [h.not_digit c hc] at hdigit
    cases hdigit

/-! ## Identities -/

/-- Digits are told apart by their characters. -/
theorem digitChar_injective :
    ∀ d < 16, ∀ d' < 16, Nat.digitChar d = Nat.digitChar d' → d = d' := by
  decide

/-- The digits of an identity are hexadecimal. -/
theorem toDigits_letter (n : Nat) :
    ∀ c ∈ Nat.toDigits 16 n, ∃ d < 16, c = Nat.digitChar d := by
  induction n using Nat.strongRecOn with
  | ind n ih =>
      intro c hc
      rw [Nat.toDigits_eq_if (by decide)] at hc
      split at hc
      · next hn => exact ⟨n, hn, List.mem_singleton.mp hc⟩
      · rcases List.mem_append.mp hc with hc | hc
        · exact ih (n / 16) (by omega) c hc
        · exact ⟨n % 16, by omega, List.mem_singleton.mp hc⟩

/-- Different identities are written differently. -/
theorem toDigits_injective {m n : Nat} (h : Nat.toDigits 16 m = Nat.toDigits 16 n) :
    m = n := by
  induction m using Nat.strongRecOn generalizing n with
  | ind m ih =>
      have hlength : ∀ k, (Nat.toDigits 16 (k / 16) ++ [(k % 16).digitChar]).length ≠ 1 := by
        intro k hk
        have hpos := Nat.length_toDigits_pos (b := 16) (n := k / 16)
        rw [List.length_append, List.length_singleton] at hk
        omega
      rw [Nat.toDigits_eq_if (by decide), Nat.toDigits_eq_if (n := n) (by decide)] at h
      split at h <;> split at h
      · next hm hn => exact digitChar_injective m hm n hn (by simpa using h)
      · exact absurd (by rw [← h]; rfl) (hlength n)
      · exact absurd (by rw [h]; rfl) (hlength m)
      · next hm hn =>
          obtain ⟨hinit, hlast⟩ := List.append_inj' h rfl
          have hdiv := ih (m / 16) (by omega) hinit
          have hmod := digitChar_injective _ (Nat.mod_lt m (by decide)) _
            (Nat.mod_lt n (by decide)) (by simpa using hlast)
          omega

/-- Before the digits of an identity stands `0x`. -/
theorem toList_identityText (mark : NodeId) :
    (identityText mark).toList = '0' :: 'x' :: Nat.toDigits 16 mark := by
  simp [identityText]

/-- Identities contain neither a separator nor the sign before them. -/
theorem identityText_letter {mark : NodeId} :
    ∀ c ∈ (identityText mark).toList, isWordLetter c = true ∧ c ≠ '@' := by
  have hdigits : ∀ d < 16, isWordLetter d.digitChar = true ∧ d.digitChar ≠ '@' := by decide
  intro c hc
  rw [toList_identityText, List.mem_cons, List.mem_cons] at hc
  rcases hc with rfl | rfl | hc
  · decide
  · decide
  · obtain ⟨d, hd, rfl⟩ := toDigits_letter mark c hc
    exact hdigits d hd

/-- What is marked differently is written differently. -/
theorem marked_injective {name name' : List Char} {mark mark' : NodeId} (hname : '@' ∉ name)
    (h : marked name mark = marked name' mark') : name = name' ∧ mark = mark' := by
  have hunmarked : '@' ∉ (identityText mark).toList := fun hm => (identityText_letter _ hm).2 rfl
  have hparts := (List.append_cons_inj_of_notMem hname hunmarked).mp h
  have hidentity := hparts.2.2
  rw [toList_identityText, toList_identityText] at hidentity
  exact ⟨hparts.1, toDigits_injective (by simpa using hidentity)⟩

/-- A word that is marked is still a word. -/
theorem IsWord.marked {name : List Char} (h : IsWord name) (mark : NodeId) :
    IsWord (marked name mark) := by
  have hhead : (FormulaGraph.marked name mark).head? = name.head? := by
    obtain ⟨c, t, rfl, _⟩ := h.begins
    rfl
  refine ⟨by simp [FormulaGraph.marked], ?_, by rw [hhead]; exact h.unsigned⟩
  intro d hd
  rw [FormulaGraph.marked, List.mem_append, List.mem_cons] at hd
  rcases hd with hd | rfl | hd
  · exact h.letter d hd
  · decide
  · exact (identityText_letter d hd).1

/-! ## Numbers -/

/-- Numbers are written unambiguously, with a minus before the number they are the
negative of. -/
class ReadableText (α : Type) [Scalar α] [ScalarText α] : Prop where
  injective : ∀ v w : α, ScalarText.text v = ScalarText.text w → v = w
  form : ∀ v : α, ∃ w, IsNumeral w ∧
    ((ScalarText.text v).toList = w ∨ (ScalarText.text v).toList = '-' :: w)
  negative : ∀ (v : α) (w : List Char), (ScalarText.text v).toList = '-' :: w →
    (ScalarText.text (-v)).toList = w ∧ - -v = v

/-- Numbers are written as numerals, with or without a minus before them.  To read a
signature back, nothing else has to be known of how they are written. -/
class NumeralText (α : Type) [Scalar α] [ScalarText α] : Prop where
  numeral : ∀ v : α, ∃ w, IsNumeral w ∧
    ((ScalarText.text v).toList = w ∨ (ScalarText.text v).toList = '-' :: w)

/-- What is written unambiguously is written in numerals. -/
instance {α : Type} [Scalar α] [ScalarText α] [ReadableText α] : NumeralText α :=
  ⟨ReadableText.form⟩

variable {α : Type}

/-! ## Plain formulas -/

/-- The children that stand beside a sign. -/
def Shape.operands {ε : Type} : Shape α ε → List ε
  | unary .negate a | unary .square a | unary .exp a => [a]
  | binary .subtract a b | binary .divide a b => [a, b]
  | assoc .add args | assoc .multiply args => args
  | _ => []

/-- Only children stand beside a sign. -/
theorem Shape.mem_children_of_mem_operands {ε : Type} {shape : Shape α ε} {c : ε}
    (h : c ∈ shape.operands) : c ∈ shape.children := by
  unfold operands at h
  split at h <;> first | exact h | cases h

variable [Scalar α] [ScalarText α]

/-- Whether a number is written with a minus. -/
def showsMinus (v : α) : Bool := (ScalarText.text v).toList.head? == some '-'

namespace Formula

/-- A number with a minus stands in parentheses beside a sign. -/
def NoBareMinus (e : Formula α) : Prop :=
  ∀ v, e.shape = .const v → showsMinus v = true → Scalar.atMost 0 v = false

/-- A node whose signature is plain as far as the node itself is concerned. -/
structure PlainNode (id : NodeId) (shape : Shape α (Formula α)) : Prop where
  operand : ∀ a ∈ shape.operands, a.NoBareMinus
  nonempty : ∀ op, shape = .assoc op [] → op = .hypot
  var : ∀ name, shape = .var name → IsName name
  table : ∀ mark t a, shape = .tabulated mark t a → IsName t.name
  bound : ∀ s, shape = .solver s → IsName s.bound.name

/-- All signatures within the formula are plain. -/
abbrev Plain : Formula α → Prop := Everywhere PlainNode

mutual

/-- What the signature of the formula says. -/
def outline : Formula α → Outline
  | node _ (.const v) => .number (ScalarText.text v).toList
  | node _ (.var name) => .word name.toList
  | node _ (.unary op a) => .over (.unary op) [outline a]
  | node _ (.binary op a b) => .over (.binary op) [outline a, outline b]
  | node _ (.assoc op args) => .gather op (outlines args)
  | node _ (.conditional op c a b) => .over (.conditional op) [outline c, outline a, outline b]
  | node _ (.tabulated mark t a) => .over (.table (marked t.name.toList mark)) [outline a]
  | node _ (.solver ⟨body, bound, low, high, precision, guard⟩) =>
    .over (.solver bound.name.toList (guard.map fun g => marked "where".toList g.1))
      [outline body, outline low, outline high, outline precision]

/-- The outlines of several formulas. -/
def outlines : List (Formula α) → List Outline
  | [] => []
  | e :: es => outline e :: outlines es

end

omit [Scalar α] in
/-- Several formulas are outlined one by one. -/
theorem outlines_eq_map (es : List (Formula α)) : outlines es = es.map outline := by
  induction es with
  | nil => rfl
  | cons e es ih => rw [outlines, ih, List.map_cons]

/-- A plain formula is not taken for the base of the exponential. -/
theorem outline_ne_e [NumeralText α] {e : Formula α} (he : e.Plain) :
    e.outline ≠ .word ['e'] := by
  induction e using inductionOnRefs with
  | h id shape ih =>
      cases shape with
      | const v =>
          obtain ⟨w, hw, htext⟩ := NumeralText.numeral v
          have hne : w ≠ ['e'] := by
            intro heq
            obtain rfl := heq
            have hform := hw.form
            simp at hform
          rcases htext with htext | htext
          · rw [outline, htext, Outline.number_of_unsigned hw.unsigned]
            simpa using hne
          · simp [outline, htext, Outline.number]
      | var name =>
          intro h
          have hname : name.toList = "e".toList := by simpa [outline] using h
          exact (he.here.var name rfl).not_e (String.toList_inj.mp hname)
      | assoc op args =>
          rw [outline, outlines_eq_map]
          rcases Outline.gather_cases op (args.map outline) with hgather | ⟨o, ho, hgather⟩
          · simp [hgather]
          · obtain ⟨a, rfl, rfl⟩ := List.map_eq_singleton_iff.mp ho
            rw [hgather]
            exact ih a List.mem_cons_self (he.child List.mem_cons_self)
      | solver s => simp [outline]
      | _ => simp [outline]

end Formula

end FormulaGraph
