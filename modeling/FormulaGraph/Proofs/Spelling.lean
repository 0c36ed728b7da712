import FormulaGraph.Formula.Rendering
import FormulaGraph.Proofs.Parts

/-!
# Signatures letter by letter

A signature is put together in three ways: a part and others after signs, a name
before a list in parentheses, or a minus before a part.  The lemmas here say so for
every kind of node, in lists of letters, with each part as it is spelled in its
place.
-/

namespace FormulaGraph

/-- A first text and others, each after its sign. -/
def joined (first : List Char) (more : List (Char × List Char)) : List Char :=
  first ++ more.flatMap fun p => ' ' :: p.1 :: ' ' :: p.2

/-- Several texts with a mark after each but the last. -/
def listed (mark : Char) : List (List Char) → List Char
  | [] => []
  | t :: ts => t ++ ts.flatMap fun t => mark :: ' ' :: t

/-- A name before a list in parentheses. -/
def applied (name : List Char) (mark : Char) (parts : List (List Char)) : List Char :=
  name ++ '(' :: listed mark parts ++ [')']

/-- A name with an identity. -/
def marked (name : List Char) (mark : NodeId) : List Char :=
  name ++ '@' :: (identityText mark).toList

/-- Parts that are joined with a sign begin with the first and go on with signs and parts. -/
theorem intercalate_sign (sign : Char) (t : List Char) (ts : List (List Char)) :
    [' ', sign, ' '].intercalate (t :: ts) = joined t (ts.map fun t => (sign, t)) := by
  induction ts generalizing t with
  | nil => simp [joined, List.intercalate]
  | cons u us ih =>
      rw [List.intercalate_cons_cons, ih]
      simp [joined]

/-- Parts that are listed are separated by a mark and a space. -/
theorem intercalate_mark (mark : Char) (ts : List (List Char)) :
    [mark, ' '].intercalate ts = listed mark ts := by
  cases ts with
  | nil => rfl
  | cons t ts =>
      induction ts generalizing t with
      | nil => simp [listed, List.intercalate]
      | cons u us ih =>
          rw [List.intercalate_cons_cons, ih]
          simp [listed]

namespace Formula

section Unlabelled

variable {α : Type}

/-- Signatures are written without labels. -/
theorem labelAt_none (depth : Nat) (e : Formula α) :
    labelAt (fun _ => none) depth e = none := by
  simp [labelAt]

variable [Scalar α]

/-- Without labels, parentheses depend on the place and on the priority alone. -/
theorem enclose_none (depth : Nat) (place : Priority) (e : Formula α) (t : String) :
    enclose (fun _ => none) depth place e t =
      if place.encloses e.priority then "(" ++ t ++ ")" else t := by
  rw [enclose, labelAt_none]

/-- Each of several texts is enclosed for its own node. -/
theorem encloseAll_map (labels : Labels) (depth : Nat) (place : Priority)
    (f : Formula α → String) (es : List (Formula α)) :
    encloseAll labels depth place es (es.map f) =
      es.map fun e => enclose labels depth place e (f e) := by
  induction es with
  | nil => rfl
  | cons e es ih => rw [List.map_cons, encloseAll, ih, List.map_cons]

variable [ScalarText α]

attribute [local simp] text labelAt_none

/-- Several formulas are written one by one. -/
theorem texts_eq_map (labels : Labels) (marked : Bool) (depth : Nat) (es : List (Formula α)) :
    texts labels marked depth es = es.map (text labels marked depth) := by
  induction es with
  | nil => rfl
  | cons e es ih => rw [texts, ih, List.map_cons]

/-- Where nothing is labelled, the depth does not count. -/
theorem text_unlabelled (marked : Bool) (e : Formula α) (depth depth' : Nat) :
    text (fun _ => none) marked depth e = text (fun _ => none) marked depth' e := by
  induction e using inductionOnRefs generalizing depth depth' with
  | h id shape ih =>
      have hchild : ∀ c ∈ shape.children, text (fun _ => none) marked (depth - 1) c =
          text (fun _ => none) marked (depth' - 1) c := fun c hc =>
        ih c (Shape.mem_refs_of_mem_children hc) _ _
      cases shape with
      | unary op a =>
          have ha := hchild a (by simp [Shape.children])
          cases op <;> simp [enclose_none, ha]
      | binary op a b =>
          have ha := hchild a (by simp [Shape.children])
          have hb := hchild b (by simp [Shape.children])
          cases op <;> simp [enclose_none, ha, hb]
      | assoc op args =>
          have hargs := List.map_congr_left hchild
          rw [Shape.children] at hargs
          cases op <;>
            simp [texts_eq_map, encloseAll_map, enclose_none, hargs]
      | conditional op c a b =>
          have hc := hchild c (by simp [Shape.children])
          have ha := hchild a (by simp [Shape.children])
          have hb := hchild b (by simp [Shape.children])
          simp [hc, ha, hb]
      | tabulated mark t a =>
          have ha := hchild a (by simp [Shape.children])
          simp [ha]
      | solver s =>
          obtain ⟨body, bound, low, high, precision, guard⟩ := s
          have hbody := hchild body (by simp [Shape.children, Solver.children])
          have hlow := hchild low (by simp [Shape.children, Solver.children])
          have hhigh := hchild high (by simp [Shape.children, Solver.children])
          have hprecision := hchild precision (by simp [Shape.children, Solver.children])
          simp [hbody, hlow, hhigh, hprecision]
      | const v => simp
      | var name => simp

end Unlabelled

/-! ## The letters of each kind of node -/

section Spelling

variable {α : Type} [Scalar α] [ScalarText α]

attribute [local simp] text labelAt_none

/-- The letters of the signature. -/
def spelling (e : Formula α) : List Char := e.signature.toList

/-- The letters of the signature as part of a longer one: in parentheses if the place
asks for them. -/
def spellingIn (place : Priority) (e : Formula α) : List Char :=
  if place.encloses e.priority then '(' :: e.spelling ++ [')'] else e.spelling

/-- The spelling is the signature as a list of characters. -/
theorem spelling_eq_iff {d e : Formula α} : d.spelling = e.spelling ↔ d.signature = e.signature :=
  String.toList_inj

/-- At any depth the text without labels is the spelling, for depth only counts down to labels.
-/
theorem toList_text (depth : Nat) (e : Formula α) :
    (text (fun _ => none) true depth e).toList = e.spelling := by
  rw [text_unlabelled true e depth fullDepth]
  rfl

/-- Together with its parentheses a formula is spelled as its place requires. -/
theorem toList_enclose (depth : Nat) (place : Priority) (e : Formula α) :
    (enclose (fun _ => none) depth place e (text (fun _ => none) true depth e)).toList =
      e.spellingIn place := by
  rw [enclose_none, spellingIn]
  split
  · simp [toList_text]
  · exact toList_text depth e

variable (id : NodeId) (a b c : Formula α) (args : List (Formula α))

/-- A constant is spelled as its number is written. -/
theorem spelling_const (v : α) : (node id (.const v)).spelling = (ScalarText.text v).toList := by
  simp [spelling, signature]

/-- A variable is spelled as its name. -/
theorem spelling_var (name : String) :
    (node id (.var name) : Formula α).spelling = name.toList := by
  simp [spelling, signature]

/-- A minus stands before a negated formula, which is enclosed like a summand. -/
theorem spelling_negate : (node id (.unary .negate a)).spelling = '-' :: a.spellingIn .add := by
  simp [spelling, signature, toList_enclose]

/-- A square is written as a power. -/
theorem spelling_square :
    (node id (.unary .square a)).spelling = joined (a.spellingIn .function) [('^', ['2'])] := by
  simp [spelling, signature, toList_enclose, joined]

/-- The exponential is written as a power of `e`. -/
theorem spelling_exp :
    (node id (.unary .exp a)).spelling = joined ['e'] [('^', a.spellingIn .function)] := by
  simp [spelling, signature, toList_enclose, joined]

/-- The other operations on one argument are written as functions. -/
theorem spelling_unary {op : UnaryOp} (hnegate : op ≠ .negate) (hsquare : op ≠ .square)
    (hexp : op ≠ .exp) :
    (node id (.unary op a)).spelling = applied op.name.toList ';' [a.spelling] := by
  have htext : (node id (.unary op a)).signature =
      op.name ++ "(" ++ text (fun _ => none) true (fullDepth - 1) a ++ ")" := by
    cases op <;> simp_all [signature]
  rw [spelling, htext]
  simp [applied, listed, toList_text]

/-- Both sides of a difference are enclosed like summands. -/
theorem spelling_subtract :
    (node id (.binary .subtract a b)).spelling =
      joined (a.spellingIn .add) [('-', b.spellingIn .add)] := by
  simp [spelling, signature, toList_enclose, joined]

/-- Both sides of a quotient are enclosed like factors. -/
theorem spelling_divide :
    (node id (.binary .divide a b)).spelling =
      joined (a.spellingIn .multiply) [('/', b.spellingIn .multiply)] := by
  simp [spelling, signature, toList_enclose, joined]

/-- The other operations on two arguments are written as functions. -/
theorem spelling_binary {op : BinaryOp} (hsubtract : op ≠ .subtract) (hdivide : op ≠ .divide) :
    (node id (.binary op a b)).spelling =
      applied op.name.toList ';' [a.spelling, b.spelling] := by
  have htext : (node id (.binary op a b)).signature =
      op.name ++ "(" ++ text (fun _ => none) true (fullDepth - 1) a ++ "; " ++
        text (fun _ => none) true (fullDepth - 1) b ++ ")" := by
    cases op <;> simp_all [signature]
  rw [spelling, htext]
  simp [applied, listed, toList_text]

/-- Summands are joined with a plus. -/
theorem spelling_add :
    (node id (.assoc .add (a :: args))).spelling =
      joined (a.spellingIn .add) (args.map fun c => ('+', c.spellingIn .add)) := by
  have hparts := intercalate_sign '+' (a.spellingIn .add) (args.map (spellingIn .add))
  rw [List.map_map] at hparts
  simp only [spelling, signature, text, labelAt_none]
  rw [texts_eq_map, encloseAll_map]
  simpa [Function.comp_def, toList_enclose] using hparts

/-- Factors are joined with an asterisk. -/
theorem spelling_multiply :
    (node id (.assoc .multiply (a :: args))).spelling =
      joined (a.spellingIn .multiply) (args.map fun c => ('*', c.spellingIn .multiply)) := by
  have hparts := intercalate_sign '*' (a.spellingIn .multiply) (args.map (spellingIn .multiply))
  rw [List.map_map] at hparts
  simp only [spelling, signature, text, labelAt_none]
  rw [texts_eq_map, encloseAll_map]
  simpa [Function.comp_def, toList_enclose] using hparts

/-- A length is written as a function of its components. -/
theorem spelling_hypot :
    (node id (.assoc .hypot args)).spelling = applied "hypot".toList ',' (args.map spelling) := by
  rw [spelling, signature, text, labelAt_none]
  simp [applied, texts_eq_map, intercalate_mark, Function.comp_def, toList_text]

/-- A conditional compares zero with its condition, and lists the alternatives after it. -/
theorem spelling_conditional (op : ConditionalOp) :
    (node id (.conditional op c a b)).spelling =
      "if(0 ".toList ++ op.relation.toList ++ ' ' ::
        listed ';' [c.spelling, a.spelling, b.spelling] ++ [')'] := by
  rw [spelling, signature, text, labelAt_none]
  simp [listed, toList_text]

/-- A table is written with its mark, for two tables may share a name. -/
theorem spelling_tabulated (mark : NodeId) (t : Table α (Formula α)) :
    (node id (.tabulated mark t a)).spelling =
      applied (marked t.name.toList mark) ';' [a.spelling] := by
  rw [spelling, signature, text, labelAt_none]
  simp [applied, listed, marked, toList_text]

/-- A solver lists its variable and all its parts, and names its guard by a mark only. -/
theorem spelling_solver (s : Solver α (Formula α)) :
    (node id (.solver s)).spelling =
      applied "BinSearch".toList ';' (s.bound.name.toList :: s.children.map spelling ++
        s.guard.toList.map fun g => marked "where".toList g.1) := by
  obtain ⟨body, bound, low, high, precision, guard⟩ := s
  rw [spelling, signature, text, labelAt_none]
  cases guard with
  | none =>
      simp [applied, listed, Solver.children, labelAt_none, guardText, toList_text]
  | some g =>
      simp [applied, listed, Solver.children, labelAt_none, guardText, marked, toList_text]

end Spelling

end Formula

end FormulaGraph
