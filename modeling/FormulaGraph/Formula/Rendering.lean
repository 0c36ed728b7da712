import FormulaGraph.Formula.Basic

/-!
# Formulas as text

A formula is rendered with infix signs and the fewest parentheses its
priorities ask for.  Labels given to nodes replace what is below them, but only
from a chosen depth on: at depth `d` a label shows on nodes at least `d` levels
below the root.

The signature of a formula is its rendering without labels in which tables and
guards also show their identity, so that two of them with one name do not look
alike.
-/

namespace FormulaGraph

/-- The labels given to nodes. -/
abbrev Labels := NodeId → Option String

/-- A depth no formula reaches: nothing is replaced by a label. -/
def fullDepth : Nat := Nat.pow 2 64 - 1

/-- The text of an identity: a hexadecimal number. -/
def identityText (id : NodeId) : String :=
  "0x" ++ String.ofList (Nat.toDigits 16 id)

namespace Formula

variable {α : Type}

/-- The label that replaces a node at this depth, if any. -/
def labelAt (labels : Labels) (depth : Nat) (e : Formula α) : Option String :=
  if depth = 0 then labels e.id else none

variable [Scalar α]

/-- Puts the text of `e` in parentheses where its priority asks for them; a
label stands without. -/
def enclose (labels : Labels) (depth : Nat) (place : Priority) (e : Formula α)
    (text : String) : String :=
  match labelAt labels depth e with
  | some _ => text
  | none => if place.encloses e.priority then "(" ++ text ++ ")" else text

/-- `enclose` for each of several texts. -/
def encloseAll (labels : Labels) (depth : Nat) (place : Priority) :
    List (Formula α) → List String → List String
  | e :: es, t :: ts => enclose labels depth place e t :: encloseAll labels depth place es ts
  | _, _ => []

/-- The text of a guard after its solver. -/
def guardText (marked : Bool) : Option (NodeId × Guard α (Formula α)) → String
  | none => ""
  | some (mark, _) => if marked then "; where@" ++ identityText mark else "; where"

variable [ScalarText α]

mutual

/-- The text of a formula, with labels from `depth` levels down; `marked` shows
the identities of tables and guards. -/
def text (labels : Labels) (marked : Bool) (depth : Nat) : Formula α → String
  | e@(node _ shape) =>
    match labelAt labels depth e with
    | some label => label
    | none =>
      let below := depth - 1
      match shape with
      | .const v => ScalarText.text v
      | .var name => name
      | .unary .negate a =>
        "-" ++ enclose labels below .add a (text labels marked below a)
      | .unary .square a =>
        enclose labels below .function a (text labels marked below a) ++ " ^ 2"
      | .unary .exp a =>
        "e ^ " ++ enclose labels below .function a (text labels marked below a)
      | .unary op a => op.name ++ "(" ++ text labels marked below a ++ ")"
      | .binary .subtract a b =>
        enclose labels below .add a (text labels marked below a) ++ " - " ++
          enclose labels below .add b (text labels marked below b)
      | .binary .divide a b =>
        enclose labels below .multiply a (text labels marked below a) ++ " / " ++
          enclose labels below .multiply b (text labels marked below b)
      | .binary op a b =>
        op.name ++ "(" ++ text labels marked below a ++ "; " ++
          text labels marked below b ++ ")"
      | .assoc .add args =>
        " + ".intercalate (encloseAll labels below .add args (texts labels marked below args))
      | .assoc .multiply args =>
        " * ".intercalate
          (encloseAll labels below .multiply args (texts labels marked below args))
      | .assoc .hypot args =>
        "hypot(" ++ ", ".intercalate (texts labels marked below args) ++ ")"
      | .conditional op c a b =>
        "if(0 " ++ op.relation ++ " " ++ text labels marked below c ++ "; " ++
          text labels marked below a ++ "; " ++ text labels marked below b ++ ")"
      | .tabulated mark t a =>
        (if marked then t.name ++ "@" ++ identityText mark else t.name) ++
          "(" ++ text labels marked below a ++ ")"
      | .solver ⟨body, bound, low, high, precision, guard⟩ =>
        let boundText :=
          match labelAt labels below (bound.formula : Formula α) with
          | some label => label
          | none => bound.name
        "BinSearch(" ++ boundText ++ "; " ++ text labels marked below body ++ "; " ++
          text labels marked below low ++ "; " ++ text labels marked below high ++ "; " ++
          text labels marked below precision ++ guardText marked guard ++ ")"

/-- `text` for each formula of a list. -/
def texts (labels : Labels) (marked : Bool) (depth : Nat) : List (Formula α) → List String
  | [] => []
  | e :: es => text labels marked depth e :: texts labels marked depth es

end

/-- Rendering with labels from `depth` levels down. -/
def render (labels : Labels) (depth : Nat) (e : Formula α) : String :=
  e.text labels false depth

/-- The plain text of a formula: no labels. -/
def display (e : Formula α) : String :=
  e.text (fun _ => none) false fullDepth

/-- The text that tells formulas apart by structure: no labels, and tables and
guards shown with their identity. -/
def signature (e : Formula α) : String :=
  e.text (fun _ => none) true fullDepth

end Formula

end FormulaGraph
