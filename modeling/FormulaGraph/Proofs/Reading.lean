import Mathlib
import FormulaGraph.Proofs.Outline

/-!
# Signatures can be read back

A reader goes through a text from left to right.  It reads a part for a place of some
priority: parts of the next priority and signs of this one between them, as far as they
go; at the tightest place a word, a word with a list after it, or anything in
parentheses.

What it reads in the signature of a plain formula is the formula's outline
(`read_signature`).  So **plain formulas with one signature have one outline**.
-/

namespace FormulaGraph

namespace Priority

/-- The priority of the parts between signs of this one. -/
def tighter : Priority → Priority
  | add => multiply
  | multiply => function
  | function | single => single

/-- The signs that join operands at each priority. -/
def signs : Priority → List Char
  | add => ['+', '-']
  | multiply => ['*', '/']
  | function => ['^']
  | single => []

end Priority

namespace Outline

open Filter

/-- The sign of this priority that a text begins with, and what is after it. -/
def sign? (p : Priority) : List Char → Option (Char × List Char)
  | ' ' :: c :: ' ' :: t => if c ∈ p.signs then some (c, t) else none
  | _ => none

/-- The outline of parts with signs between them. -/
def chain (o : Outline) : List (Char × Outline) → Outline
  | [] => o
  | [('-', o')] => .over (.binary .subtract) [o, o']
  | [('/', o')] => .over (.binary .divide) [o, o']
  | [('^', o')] =>
    match o with
    | .word ['e'] => .over (.unary .exp) [o']
    | _ => .over (.unary .square) [o]
  | (c, o') :: more =>
    .over (.assoc (if c = '*' then .multiply else .add)) (o :: o' :: more.map (·.2))

/-- The operation written as a function of this name. -/
def function (name : List Char) : Head :=
  if '@' ∈ name then .table name
  else
    match [UnaryOp.sqrt, .log, .sin, .cos, .atan, .acos, .cosineIntegral, .sineIntegral].find?
        (·.name.toList == name),
      [BinaryOp.atan2, .max, .min].find? (·.name.toList == name) with
    | some op, _ => .unary op
    | none, some op => .binary op
    | none, none => .assoc .hypot

/-- The outline of a name with a list after it. -/
def call (name : List Char) (os : List Outline) : Outline :=
  match name == "BinSearch".toList, os with
  | true, .word bound :: body :: low :: high :: precision :: guard =>
    .over (.solver bound (guard.head?.bind fun o => match o with
      | .word key => some key
      | _ => none)) [body, low, high, precision]
  | _, _ => .over (function name) os

/-- The condition a conditional begins with, and what is after it. -/
def relation? : List Char → Option (ConditionalOp × List Char)
  | '0' :: ' ' :: '=' :: ' ' :: t => some (.coalesce, t)
  | '0' :: ' ' :: '<' :: ' ' :: t => some (.ifPositive, t)
  | _ => none

mutual

/-- What a text begins with in a place of this priority, and what is after it.  The
number bounds how deep the reader goes. -/
def readIn : ℕ → Priority → List Char → Option (Outline × List Char)
  | 0, _, _ => none
  | n + 1, .single, '(' :: t => do
    match ← readIn n .add t with
    | (o, ')' :: t) => return (o, t)
    | _ => none
  | n + 1, .single, t => do
    let name := t.takeWhile isWordLetter
    match t.dropWhile isWordLetter with
    | '(' :: t =>
      if name = "if".toList then
        let (op, t) ← relation? t
        let (os, t) ← readList n t
        return (.over (.conditional op) os, t)
      else
        let (os, t) ← readList n t
        return (call name os, t)
    | t => return (.word name, t)
  | n + 1, .add, '-' :: t => do
    let (o, t) ← readIn n .multiply t
    return (.over (.unary .negate) [o], t)
  | n + 1, p, t => do
    let (o, t) ← readIn n p.tighter t
    let (more, t) ← readMore n p t
    return (chain o more, t)

/-- Signs of this priority with a part after each. -/
def readMore : ℕ → Priority → List Char → Option (List (Char × Outline) × List Char)
  | 0, _, _ => none
  | n + 1, p, t =>
    match sign? p t with
    | some (c, t) => do
      let (o, t) ← readIn n p.tighter t
      let (more, t) ← readMore n p t
      return ((c, o) :: more, t)
    | none => some ([], t)

/-- A list up to the parenthesis that closes it. -/
def readList : ℕ → List Char → Option (List Outline × List Char)
  | 0, _ => none
  | _ + 1, ')' :: t => some ([], t)
  | n + 1, t => do
    let (o, t) ← readIn n .add t
    let (os, t) ← readRest n t
    return (o :: os, t)

/-- The rest of a list: marks with a member after each. -/
def readRest : ℕ → List Char → Option (List Outline × List Char)
  | 0, _ => none
  | _ + 1, ')' :: t => some ([], t)
  | n + 1, _ :: ' ' :: t => do
    let (o, t) ← readIn n .add t
    let (os, t) ← readRest n t
    return (o :: os, t)
  | _ + 1, _ => none

end

/-- What holds at every depth but the first few holds if it does one level further. -/
theorem eventually_of_succ {P : ℕ → Prop} (h : ∀ᶠ n in atTop, P (n + 1)) :
    ∀ᶠ n in atTop, P n := by
  obtain ⟨k, hk⟩ := eventually_atTop.mp h
  refine eventually_atTop.mpr ⟨k + 1, ?_⟩
  intro n hn
  obtain ⟨m, rfl⟩ := Nat.exists_eq_add_of_le' (Nat.le_of_add_left_le hn)
  exact hk m (Nat.le_of_add_le_add_right hn)

/-! ## Where reading stops -/

/-- A part in a place of this priority ends where the text goes on like this. -/
structure Stops (p : Priority) (rest : List Char) : Prop where
  delimited : ∀ c, rest.head? = some c → c = ')' ∨ c = ';' ∨ c = ',' ∨ c = ' '
  signless : ∀ q : Priority, p.rank ≤ q.rank → sign? q rest = none

/-- What stops a loose operand stops a tight one. -/
theorem Stops.mono {p q : Priority} {rest : List Char} (h : Stops p rest)
    (hpq : p.rank ≤ q.rank) : Stops q rest :=
  ⟨h.delimited, fun r hr => h.signless r (Nat.le_trans hpq hr)⟩

/-- The end of the text stops every operand. -/
theorem stops_nil (p : Priority) : Stops p [] :=
  ⟨by simp, fun _ _ => rfl⟩

/-- Parenthesis and marks end a part in any place. -/
theorem stops_cons (p : Priority) {c : Char} (hc : c = ')' ∨ c = ';' ∨ c = ',')
    (rest : List Char) : Stops p (c :: rest) := by
  refine ⟨?_, ?_⟩
  · intro d hd
    rw [← Option.some.inj hd]
    rcases hc with h | h | h <;> simp [h]
  · intro q _
    have hspace : c ≠ ' ' := by
      rcases hc with rfl | rfl | rfl <;> decide
    unfold sign?
    split
    · next heq => exact absurd (List.cons.inj heq).1 hspace
    · rfl

/-- No sign is one of two priorities. -/
theorem sign_not_mem {p q : Priority} {c : Char} (hc : c ∈ p.signs)
    (hpq : p.tighter.rank ≤ q.rank) : c ∉ q.signs := by
  cases p <;> cases q <;> simp_all [Priority.signs, Priority.tighter, Priority.rank] <;>
    rcases hc with rfl | rfl <;> decide

/-- A sign ends the part before it. -/
theorem stops_sign {p : Priority} {c : Char} (hc : c ∈ p.signs) (rest : List Char) :
    Stops p.tighter (' ' :: c :: ' ' :: rest) := by
  refine ⟨by simp, ?_⟩
  intro q hq
  rw [sign?, if_neg (sign_not_mem hc hq)]

/-! ## Texts that can be read -/

/-- In a place of this priority a reader that goes deep enough reads the text as the
outline, whatever follows that ends the part.  A minus can begin only the loosest
part. -/
structure Reads (p : Priority) (t : List Char) (o : Outline) : Prop where
  begins : ∃ c t', t = c :: t' ∧ c ≠ ')' ∧ (p ≠ .add → c ≠ '-')
  read : ∀ rest, Stops p rest → ∀ᶠ n in atTop, readIn n p (t ++ rest) = some (o, rest)

/-- The case in which parts are read one by one. -/
theorem readIn_chain {n : ℕ} {p : Priority} {t : List Char} (hp : p ≠ .single)
    (ht : p = .add → t.head? ≠ some '-') :
    readIn (n + 1) p t = (do
      let (o, t) ← readIn n p.tighter t
      let (more, t) ← readMore n p t
      return (chain o more, t)) := by
  rw [readIn.eq_def]
  split
  · next h => exact absurd h (Nat.succ_ne_zero n)
  · exact absurd rfl hp
  · exact absurd rfl hp
  · simp at ht
  · next h _ _ _ =>
      obtain rfl := Nat.succ.inj h
      rfl

/-- Where reading stops, no further operands are read. -/
theorem readMore_stops {p : Priority} {rest : List Char} (h : Stops p rest) :
    ∀ᶠ n in atTop, readMore n p rest = some ([], rest) := by
  refine eventually_of_succ (.of_forall fun n => ?_)
  rw [readMore, h.signless p (Nat.le_refl _)]

/-- What is read as a tight operand can be read as a loose one. -/
theorem Reads.loosen_one {p : Priority} {t : List Char} {o : Outline}
    (h : Reads p.tighter t o) : Reads p t o := by
  by_cases hp : p = .single
  · subst hp
    exact h
  · obtain ⟨c, t', rfl, hc, hminus⟩ := h.begins
    have htighter : p.tighter ≠ .add := by cases p <;> simp [Priority.tighter]
    refine ⟨⟨c, t', rfl, hc, fun _ => hminus htighter⟩, ?_⟩
    intro rest hrest
    have hrank : p.rank ≤ p.tighter.rank := by cases p <;> decide
    refine eventually_of_succ ?_
    filter_upwards [h.read rest (hrest.mono hrank), readMore_stops hrest] with n hread hmore
    rw [readIn_chain hp (by simpa using fun _ => hminus htighter), hread]
    simp [hmore, chain]

/-- What can be read in a tighter place can be read in a looser one. -/
theorem Reads.loosen {p q : Priority} {t : List Char} {o : Outline} (h : Reads q t o)
    (hpq : p.rank ≤ q.rank) : Reads p t o := by
  have hfunction : Reads .single t o → Reads .function t o := fun h => h.loosen_one (p := .function)
  have hmultiply : Reads .function t o → Reads .multiply t o := fun h =>
    h.loosen_one (p := .multiply)
  have hadd : Reads .multiply t o → Reads .add t o := fun h => h.loosen_one (p := .add)
  cases p <;> cases q <;> first | exact absurd hpq (by decide) | tauto

/-- What can be read in the tightest place can be read in any. -/
theorem Reads.anywhere {p : Priority} {t : List Char} {o : Outline} (h : Reads .single t o) :
    Reads p t o :=
  h.loosen (by cases p <;> decide)

/-! ## Parts with signs -/

/-- A minus is read before anything as tight as a product. -/
theorem Reads.minus {t : List Char} {o : Outline} (h : Reads .multiply t o) :
    Reads .add ('-' :: t) (.over (.unary .negate) [o]) := by
  refine ⟨⟨'-', t, rfl, by decide, by simp⟩, ?_⟩
  intro rest hrest
  refine eventually_of_succ ?_
  filter_upwards [h.read rest (hrest.mono (by decide))] with n hread
  rw [List.cons_append, readIn, hread]
  rfl

/-- Texts after signs are read one by one. -/
theorem readMore_joined {p : Priority} {more : List (Char × List Char)}
    {os : List (Char × Outline)}
    (h : List.Forall₂ (fun m o => m.1 ∈ p.signs ∧ o.1 = m.1 ∧ Reads p.tighter m.2 o.2) more os)
    {rest : List Char} (hrest : Stops p rest) :
    Stops p.tighter (joined [] more ++ rest) ∧
      ∀ᶠ n in atTop, readMore n p (joined [] more ++ rest) = some (os, rest) := by
  have hrank : p.rank ≤ p.tighter.rank := by cases p <;> decide
  induction h with
  | nil => exact ⟨hrest.mono hrank, readMore_stops hrest⟩
  | @cons m o more os hhead _ ih =>
      obtain ⟨sign, t⟩ := m
      obtain ⟨sign', o⟩ := o
      obtain ⟨hsign, hsame, hread⟩ := hhead
      obtain rfl : sign = sign' := hsame.symm
      obtain ⟨hstops, hmore⟩ := ih
      have htext : joined [] ((sign, t) :: more) ++ rest =
          ' ' :: sign :: ' ' :: (t ++ (joined [] more ++ rest)) := by
        simp [joined]
      rw [htext]
      refine ⟨stops_sign hsign _, ?_⟩
      have hfound : sign? p (' ' :: sign :: ' ' :: (t ++ (joined [] more ++ rest))) =
          some (sign, t ++ (joined [] more ++ rest)) := by
        rw [sign?, if_pos hsign]
      refine eventually_of_succ ?_
      filter_upwards [hread.read _ hstops, hmore] with n hpart hrest
      rw [readMore, hfound]
      simp [hpart, hrest]

/-- Parts with signs between them are read as the chain of what they are read as. -/
theorem Reads.chained {p : Priority} (hp : p ≠ .single) {first : List Char} {o : Outline}
    (hfirst : Reads p.tighter first o) {more : List (Char × List Char)}
    {os : List (Char × Outline)}
    (h : List.Forall₂ (fun m o => m.1 ∈ p.signs ∧ o.1 = m.1 ∧ Reads p.tighter m.2 o.2) more os) :
    Reads p (joined first more) (chain o os) := by
  obtain ⟨c, t, rfl, hc, hminus⟩ := hfirst.begins
  have htighter : p.tighter ≠ .add := by cases p <;> simp [Priority.tighter]
  refine ⟨⟨c, _, rfl, hc, fun _ => hminus htighter⟩, ?_⟩
  intro rest hrest
  obtain ⟨hstops, hmore⟩ := readMore_joined h hrest
  have htext : joined (c :: t) more ++ rest =
      (c :: t) ++ (joined [] more ++ rest) := by
    simp [joined]
  rw [htext]
  refine eventually_of_succ ?_
  filter_upwards [hfirst.read _ hstops, hmore] with n hpart hrest
  rw [readIn_chain hp (by simpa using fun _ => hminus htighter), hpart]
  simp [hrest]

/-- Two operands with a sign between them are read together. -/
theorem Reads.pair {p : Priority} {sign : Char} (hsign : sign ∈ p.signs) (hp : p ≠ .single)
    {t t' : List Char} {o o' : Outline} (h : Reads p.tighter t o) (h' : Reads p.tighter t' o') :
    Reads p (joined t [(sign, t')]) (chain o [(sign, o')]) :=
  h.chained hp (.cons ⟨hsign, rfl, h'⟩ .nil)

/-- Parts with one sign between them. -/
theorem Reads.series {β : Type} {p : Priority} {sign : Char} (hsign : sign ∈ p.signs)
    (hp : p ≠ .single) {f : β → List Char} {g : β → Outline} {a : β} {args : List β}
    (h : ∀ c ∈ a :: args, Reads p.tighter (f c) (g c)) :
    Reads p (joined (f a) (args.map fun c => (sign, f c)))
      (chain (g a) ((args.map g).map fun o => (sign, o))) := by
  refine (h a List.mem_cons_self).chained hp ?_
  rw [List.map_map, List.forall₂_map_left_iff, List.forall₂_map_right_iff, List.forall₂_same]
  exact fun c hc => ⟨hsign, rfl, h c (List.mem_cons_of_mem a hc)⟩

/-- A power of two is a square, unless its base is `e`. -/
theorem chain_square {o : Outline} (h : o ≠ .word ['e']) (o' : Outline) :
    chain o [('^', o')] = .over (.unary .square) [o] := by
  simp only [chain]

/-- A chain of summands is a sum. -/
theorem chain_add (o : Outline) (os : List Outline) :
    chain o (os.map fun o => ('+', o)) = gather .add (o :: os) := by
  cases os with
  | nil => rfl
  | cons o' os => simp [chain, gather, Function.comp_def]

/-- A chain of factors is a product. -/
theorem chain_multiply (o : Outline) (os : List Outline) :
    chain o (os.map fun o => ('*', o)) = gather .multiply (o :: os) := by
  cases os with
  | nil => rfl
  | cons o' os => simp [chain, gather, Function.comp_def]

/-! ## Words, lists and parentheses -/

/-- Parentheses make an operand of anything. -/
theorem Reads.parenthesized {t : List Char} {o : Outline} (h : Reads .add t o) :
    Reads .single ('(' :: t ++ [')']) o := by
  refine ⟨⟨'(', _, rfl, by decide, fun _ => by decide⟩, ?_⟩
  intro rest _
  rw [show '(' :: t ++ [')'] ++ rest = '(' :: (t ++ ')' :: rest) by simp]
  refine eventually_of_succ ?_
  filter_upwards [h.read _ (stops_cons _ (.inl rfl) rest)] with n hread
  rw [readIn, hread]
  rfl

/-- The letters of a word end where the text goes on with something else. -/
theorem span_word {w : List Char} (hw : ∀ c ∈ w, isWordLetter c = true) {rest : List Char}
    (hrest : ∀ c, rest.head? = some c → isWordLetter c = false) :
    (w ++ rest).takeWhile isWordLetter = w ∧ (w ++ rest).dropWhile isWordLetter = rest := by
  have htake : rest.takeWhile isWordLetter = [] ∧ rest.dropWhile isWordLetter = rest := by
    cases rest with
    | nil => exact ⟨rfl, rfl⟩
    | cons c t =>
        have hc := hrest c rfl
        simp [hc]
  rw [List.takeWhile_append_of_pos hw, List.dropWhile_append_of_pos hw, htake.1, htake.2]
  simp

/-- Words end where an operand stops. -/
theorem Stops.not_letter {p : Priority} {rest : List Char} (h : Stops p rest) :
    ∀ c, rest.head? = some c → isWordLetter c = false := by
  intro c hc
  rcases h.delimited c hc with rfl | rfl | rfl | rfl <;> decide

/-- A word is read to its end. -/
theorem Reads.word {w : List Char} (hw : IsWord w) : Reads .single w (.word w) := by
  obtain ⟨c, t, rfl, hclose, hopen, hminus⟩ := hw.begins
  refine ⟨⟨c, t, rfl, hclose, fun _ => hminus⟩, ?_⟩
  intro rest hrest
  obtain ⟨htake, hdrop⟩ := span_word hw.letter hrest.not_letter
  refine eventually_of_succ (.of_forall fun n => ?_)
  rw [readIn.eq_3 _ _ (by simp [hopen]), htake, hdrop]
  split
  · simpa using hrest.delimited '(' rfl
  · rfl

/-- The members of a list are read one by one. -/
theorem readRest_listed {mark : Char} (hmark : mark = ';' ∨ mark = ',') {ts : List (List Char)}
    {os : List Outline} (h : List.Forall₂ (Reads .add) ts os) (rest : List Char) :
    (∀ᶠ n in atTop,
      readRest n (ts.flatMap (fun t => mark :: ' ' :: t) ++ ')' :: rest) = some (os, rest)) ∧
      Stops .add (ts.flatMap (fun t => mark :: ' ' :: t) ++ ')' :: rest) := by
  induction h with
  | nil =>
      refine ⟨eventually_of_succ (.of_forall fun n => ?_), stops_cons _ (.inl rfl) rest⟩
      rfl
  | @cons t o ts os hhead _ ih =>
      have hclose : mark ≠ ')' := by rcases hmark with rfl | rfl <;> decide
      have htext : (t :: ts).flatMap (fun t => mark :: ' ' :: t) ++ ')' :: rest =
          mark :: ' ' :: (t ++ (ts.flatMap (fun t => mark :: ' ' :: t) ++ ')' :: rest)) := by
        simp
      rw [htext]
      refine ⟨eventually_of_succ ?_, stops_cons _ (.inr hmark) _⟩
      filter_upwards [hhead.read _ ih.2, ih.1] with n hpart hrest
      rw [readRest.eq_3 _ _ _ hclose, hpart]
      simp [hrest]

/-- Listed parts are read up to the closing parenthesis. -/
theorem readList_listed {mark : Char} (hmark : mark = ';' ∨ mark = ',') {ts : List (List Char)}
    {os : List Outline} (h : List.Forall₂ (Reads .add) ts os) (rest : List Char) :
    ∀ᶠ n in atTop, readList n (listed mark ts ++ ')' :: rest) = some (os, rest) := by
  cases h with
  | nil => exact eventually_of_succ (.of_forall fun n => rfl)
  | @cons t o ts os hhead htail =>
      obtain ⟨hread, hstops⟩ := readRest_listed hmark htail rest
      obtain ⟨c, t', rfl, hclose, _⟩ := hhead.begins
      rw [listed, List.append_assoc]
      refine eventually_of_succ ?_
      filter_upwards [hhead.read _ hstops, hread] with n hpart hrest
      rw [readList.eq_3 _ _ (by simp [hclose]), hpart]
      simp [hrest]

/-- What a name with a list after it is read as. -/
theorem Reads.applied {name : List Char} (hname : IsWord name) (hif : name ≠ "if".toList)
    {mark : Char} (hmark : mark = ';' ∨ mark = ',') {ts : List (List Char)} {os : List Outline}
    (h : List.Forall₂ (Reads .add) ts os) :
    Reads .single (applied name mark ts) (call name os) := by
  obtain ⟨c, t, rfl, hclose, hopen, hminus⟩ := hname.begins
  refine ⟨⟨c, _, rfl, hclose, fun _ => hminus⟩, ?_⟩
  intro rest _
  have htext : FormulaGraph.applied (c :: t) mark ts ++ rest =
      (c :: t) ++ '(' :: (listed mark ts ++ ')' :: rest) := by
    simp [FormulaGraph.applied]
  have hopens : ∀ c', ('(' :: (listed mark ts ++ ')' :: rest)).head? = some c' →
      isWordLetter c' = false := by
    simp [isWordLetter]
  obtain ⟨htake, hdrop⟩ := span_word hname.letter hopens
  rw [htext]
  refine eventually_of_succ ?_
  filter_upwards [readList_listed hmark h rest] with n hlist
  rw [readIn.eq_3 _ _ (by simp [hopen]), htake, hdrop]
  simp only [if_neg hif, hlist]
  rfl

/-- What a conditional is read as. -/
theorem Reads.conditional (op : ConditionalOp) {ts : List (List Char)} {os : List Outline}
    (h : List.Forall₂ (Reads .add) ts os) :
    Reads .single ("if(0 ".toList ++ op.relation.toList ++ ' ' :: listed ';' ts ++ [')'])
      (.over (.conditional op) os) := by
  refine ⟨⟨'i', _, rfl, by decide, fun _ => by decide⟩, ?_⟩
  intro rest _
  have hletters : ∀ c ∈ "if".toList, isWordLetter c = true := by simp [isWordLetter]
  have htext : "if(0 ".toList ++ op.relation.toList ++ ' ' :: listed ';' ts ++ [')'] ++ rest =
      "if".toList ++ '(' :: ("0 ".toList ++ op.relation.toList ++
        ' ' :: (listed ';' ts ++ ')' :: rest)) := by
    simp
  have hopens : ∀ c, ('(' :: ("0 ".toList ++ op.relation.toList ++
      ' ' :: (listed ';' ts ++ ')' :: rest))).head? = some c → isWordLetter c = false := by
    simp [isWordLetter]
  obtain ⟨htake, hdrop⟩ := span_word hletters hopens
  have hrelation : relation? ("0 ".toList ++ op.relation.toList ++
      ' ' :: (listed ';' ts ++ ')' :: rest)) = some (op, listed ';' ts ++ ')' :: rest) := by
    cases op <;> simp [ConditionalOp.relation, relation?]
  rw [htext]
  refine eventually_of_succ ?_
  filter_upwards [readList_listed (.inl rfl) h rest] with n hlist
  rw [readIn.eq_3 _ _ (by simp), htake, hdrop]
  simp only [↓reduceIte, hrelation, Option.bind_eq_bind, Option.bind_some, hlist]
  rfl

/-! ## Names of functions -/

/-- A function is called by its name, unless it is written with a sign. -/
theorem call_unary {op : UnaryOp} (hnegate : op ≠ .negate) (hsquare : op ≠ .square)
    (hexp : op ≠ .exp) (o : Outline) :
    call op.name.toList [o] = .over (.unary op) [o] := by
  cases op <;> simp_all [call, function, UnaryOp.name]

/-- A function of two arguments is called by its name as well. -/
theorem call_binary {op : BinaryOp} (hsubtract : op ≠ .subtract) (hdivide : op ≠ .divide)
    (o o' : Outline) : call op.name.toList [o, o'] = .over (.binary op) [o, o'] := by
  cases op <;> simp_all [call, function, BinaryOp.name, UnaryOp.name]

/-- A length is called by its name. -/
theorem call_hypot (os : List Outline) :
    call "hypot".toList os = .over (.assoc .hypot) os := by
  simp [call, function, BinaryOp.name, UnaryOp.name]

/-- A table is called by its marked name. -/
theorem call_table (name : List Char) (mark : NodeId) (os : List Outline) :
    call (marked name mark) os = .over (.table (marked name mark)) os := by
  have hmark : '@' ∈ marked name mark := by simp [marked]
  have hsolver : (marked name mark == "BinSearch".toList) = false := by
    apply beq_false_of_ne
    intro h
    rw [h] at hmark
    simp at hmark
  unfold call
  rw [hsolver]
  simp [function, hmark]

/-- A solver is called with its variable first, and its guard last if it has one. -/
theorem call_solver (bound : List Char) (body low high precision : Outline)
    (guard : Option (List Char)) :
    call "BinSearch".toList (.word bound :: body :: low :: high :: precision ::
      guard.toList.map .word) = .over (.solver bound guard) [body, low, high, precision] := by
  cases guard <;> simp [call]

end Outline

/-! ## Formulas -/

namespace Formula

open Outline

variable {α : Type} [Scalar α] [ScalarText α]

/-- The tightest place in which the signature is read without parentheses. -/
def grade (e : Formula α) : Priority :=
  match e.shape with
  | .const v => if showsMinus v then .add else e.priority
  | _ => e.priority

/-- Beside a sign the signature is read whether it stands in parentheses or not. -/
theorem reads_spellingIn {e : Formula α} (h : Reads e.grade e.spelling e.outline)
    (hbare : e.NoBareMinus) {p : Priority} (hp : p ≠ .single) :
    Reads p.tighter (e.spellingIn p) e.outline := by
  rw [spellingIn]
  split
  · exact ((h.loosen (Nat.zero_le _)).parenthesized).loosen (by cases p <;> decide)
  · next hencloses =>
      have hrank : p.rank < e.priority.rank := by simpa [Priority.encloses] using hencloses
      have hgrade : e.grade = e.priority := by
        unfold grade
        split
        · next v hshape =>
            split
            · next hminus =>
                have hnegative := hbare v hshape hminus
                have hpriority : e.priority = .add := by
                  simp [priority, hshape, Shape.priority, hnegative]
                rw [hpriority] at hrank
                exact absurd hrank (Nat.not_lt_zero _)
            · rfl
        · rfl
      rw [hgrade] at h
      exact h.loosen (by revert hrank; cases p <;> cases e.priority <;> decide)

/-- A constant is read as the number it is written as. -/
theorem reads_const [NumeralText α] (id : NodeId) (v : α) :
    Reads (grade (node id (.const v))) (ScalarText.text v).toList
      (.number (ScalarText.text v).toList) := by
  obtain ⟨w, hw, htext | htext⟩ := NumeralText.numeral v
  · have hgrade : Reads .single w (.word w) := .word hw.toIsWord
    rw [htext, number_of_unsigned hw.unsigned]
    exact hgrade.loosen (by cases grade (node id (.const v)) <;> decide)
  · have hgrade : grade (node id (.const v)) = .add := by
      simp [grade, showsMinus, htext]
    rw [htext, hgrade]
    exact ((Reads.word hw.toIsWord).loosen (by decide)).minus

/-- Unary functions are read back. -/
theorem reads_unary {op : UnaryOp} {a : Formula α} (id : NodeId)
    (ha : Reads .add a.spelling a.outline)
    (hbeside : a ∈ (node id (.unary op a)).shape.operands → ∀ p : Priority, p ≠ .single →
      Reads p.tighter (a.spellingIn p) a.outline)
    (hbase : a.outline ≠ .word ['e']) :
    Reads (grade (node id (.unary op a))) (spelling (node id (.unary op a)))
      (.over (.unary op) [a.outline]) := by
  by_cases hnegate : op = .negate
  · subst hnegate
    rw [spelling_negate]
    exact (hbeside (by simp [Shape.operands]) .add (by decide)).minus
  by_cases hsquare : op = .square
  · subst hsquare
    have hpart := hbeside (by simp [Shape.operands]) .function (by decide)
    have htwo : Reads .single ['2'] (.word ['2']) :=
      .word ⟨by simp, by simp [isWordLetter], by simp⟩
    rw [spelling_square, ← chain_square hbase (.word ['2'])]
    exact .pair (p := .function) (by decide) (by decide) hpart htwo
  by_cases hexp : op = .exp
  · subst hexp
    have hpart := hbeside (by simp [Shape.operands]) .function (by decide)
    have he : Reads .single ['e'] (.word ['e']) :=
      .word ⟨by simp, by simp [isWordLetter], by simp⟩
    rw [spelling_exp]
    exact .pair (p := .function) (by decide) (by decide) he hpart
  have hword : IsWord op.name.toList := by
    refine ⟨?_, ?_, ?_⟩ <;> cases op <;> simp [UnaryOp.name, isWordLetter]
  have hif : op.name.toList ≠ "if".toList := by cases op <;> simp [UnaryOp.name]
  rw [spelling_unary id a hnegate hsquare hexp, ← call_unary hnegate hsquare hexp]
  exact (Reads.applied hword hif (.inl rfl) (.cons ha .nil)).anywhere

/-- Binary operations are read back. -/
theorem reads_binary {op : BinaryOp} {a b : Formula α} (id : NodeId)
    (ha : Reads .add a.spelling a.outline) (hb : Reads .add b.spelling b.outline)
    (hbeside : ∀ c ∈ (node id (.binary op a b)).shape.operands, ∀ p : Priority, p ≠ .single →
      Reads p.tighter (c.spellingIn p) c.outline) :
    Reads (grade (node id (.binary op a b))) (spelling (node id (.binary op a b)))
      (.over (.binary op) [a.outline, b.outline]) := by
  by_cases hsubtract : op = .subtract
  · subst hsubtract
    have hleft := hbeside a (by simp [Shape.operands]) .add (by decide)
    have hright := hbeside b (by simp [Shape.operands]) .add (by decide)
    rw [spelling_subtract]
    exact .pair (p := .add) (by decide) (by decide) hleft hright
  by_cases hdivide : op = .divide
  · subst hdivide
    have hleft := hbeside a (by simp [Shape.operands]) .multiply (by decide)
    have hright := hbeside b (by simp [Shape.operands]) .multiply (by decide)
    rw [spelling_divide]
    exact .pair (p := .multiply) (by decide) (by decide) hleft hright
  have hword : IsWord op.name.toList := by
    refine ⟨?_, ?_, ?_⟩ <;> cases op <;> simp_all [BinaryOp.name, isWordLetter]
  have hif : op.name.toList ≠ "if".toList := by cases op <;> simp [BinaryOp.name]
  rw [spelling_binary id a b hsubtract hdivide, ← call_binary hsubtract hdivide]
  exact (Reads.applied hword hif (.inl rfl) (.cons ha (.cons hb .nil))).anywhere

/-- Parts that can be read one by one can be read as a list. -/
theorem reads_map {es : List (Formula α)} (h : ∀ c ∈ es, Reads .add c.spelling c.outline) :
    List.Forall₂ (Reads .add) (es.map spelling) (es.map outline) := by
  rw [List.forall₂_map_left_iff, List.forall₂_map_right_iff, List.forall₂_same]
  exact h

/-- Sums, products and lengths are read back, if empty ones are excluded. -/
theorem reads_assoc {op : AssocOp} {args : List (Formula α)} (id : NodeId)
    (hargs : ∀ c ∈ args, Reads .add c.spelling c.outline)
    (hbeside : ∀ c ∈ (node id (.assoc op args)).shape.operands, ∀ p : Priority, p ≠ .single →
      Reads p.tighter (c.spellingIn p) c.outline)
    (hnonempty : args = [] → op = .hypot) :
    Reads (grade (node id (.assoc op args))) (spelling (node id (.assoc op args)))
      (gather op (args.map outline)) := by
  cases op with
  | add =>
      cases args with
      | nil => exact absurd (hnonempty rfl) (by decide)
      | cons a args =>
          rw [spelling_add, List.map_cons, ← chain_add]
          exact .series (p := .add) (by decide) (by decide) fun c hc =>
            hbeside c hc .add (by decide)
  | multiply =>
      cases args with
      | nil => exact absurd (hnonempty rfl) (by decide)
      | cons a args =>
          rw [spelling_multiply, List.map_cons, ← chain_multiply]
          exact .series (p := .multiply) (by decide) (by decide) fun c hc =>
            hbeside c hc .multiply (by decide)
  | hypot =>
      have hword : IsWord "hypot".toList := ⟨by simp, by simp [isWordLetter], by simp⟩
      rw [spelling_hypot, show gather .hypot _ = _ from (call_hypot _).symm]
      exact (Reads.applied hword (by simp) (.inr rfl) (reads_map hargs)).anywhere

/-- Solvers are read back. -/
theorem reads_solver {s : Solver α (Formula α)} (id : NodeId) (hbound : IsName s.bound.name)
    (hchildren : ∀ c ∈ s.children, Reads .add c.spelling c.outline) :
    Reads (grade (node id (.solver s))) (spelling (node id (.solver s)))
      (outline (node id (.solver s))) := by
  have hword : IsWord "BinSearch".toList := ⟨by simp, by simp [isWordLetter], by simp⟩
  have hwhere : IsWord "where".toList := ⟨by simp, by simp [isWordLetter], by simp⟩
  have hfirst : Reads .add s.bound.name.toList (.word s.bound.name.toList) :=
    (Reads.word hbound.toIsWord).anywhere
  have hguard : List.Forall₂ (Reads .add)
      (s.guard.toList.map fun g => marked "where".toList g.1)
      (s.guard.toList.map fun g => .word (marked "where".toList g.1)) := by
    rw [List.forall₂_map_left_iff, List.forall₂_map_right_iff, List.forall₂_same]
    exact fun g _ => (Reads.word (hwhere.marked g.1)).anywhere
  obtain ⟨body, bound, low, high, precision, guard⟩ := s
  have hparts := List.Forall₂.cons hfirst (List.rel_append (reads_map hchildren) hguard)
  have hread := (Reads.applied hword (by simp) (.inl rfl) hparts).anywhere
    (p := grade (node id (.solver ⟨body, bound, low, high, precision, guard⟩)))
  rw [spelling_solver, outline, ← call_solver]
  cases guard <;> simpa [Solver.children] using hread

/-- **The signature of a plain formula is read as its outline.** -/
theorem reads_spelling [NumeralText α] {e : Formula α} (he : e.Plain) :
    Reads e.grade e.spelling e.outline := by
  induction e using inductionOnRefs with
  | h id shape ih =>
      have hchild : ∀ c ∈ shape.children, Reads c.grade c.spelling c.outline := fun c hc =>
        ih c (Shape.mem_refs_of_mem_children hc) (he.child hc)
      have hlist : ∀ c ∈ shape.children, Reads .add c.spelling c.outline := fun c hc =>
        (hchild c hc).loosen (Nat.zero_le _)
      have hbeside : ∀ c ∈ shape.operands, ∀ p : Priority, p ≠ .single →
          Reads p.tighter (c.spellingIn p) c.outline := fun c hop p hp =>
        reads_spellingIn (hchild c (Shape.mem_children_of_mem_operands hop))
          (he.here.operand c hop) hp
      cases shape with
      | const v =>
          rw [spelling_const, outline]
          exact reads_const id v
      | var name =>
          rw [spelling_var, outline]
          exact .word (he.here.var name rfl).toIsWord
      | unary op a =>
          rw [outline]
          exact reads_unary id (hlist a (by simp [Shape.children])) (hbeside a)
            (outline_ne_e (he.child (by simp [Shape.children])))
      | binary op a b =>
          rw [outline]
          exact reads_binary id (hlist a (by simp [Shape.children]))
            (hlist b (by simp [Shape.children])) hbeside
      | assoc op args =>
          rw [outline, outlines_eq_map]
          refine reads_assoc id hlist hbeside ?_
          intro hnil
          rw [hnil] at he
          exact he.here.nonempty op rfl
      | conditional op c a b =>
          have hc := hlist c (by simp [Shape.children])
          have ha := hlist a (by simp [Shape.children])
          have hb := hlist b (by simp [Shape.children])
          rw [outline, spelling_conditional]
          exact (Reads.conditional op (.cons hc (.cons ha (.cons hb .nil)))).anywhere
      | tabulated mark t a =>
          have ha := hlist a (by simp [Shape.children])
          have hword := (he.here.table mark t a rfl).toIsWord.marked mark
          have hif : marked t.name.toList mark ≠ "if".toList := by
            intro h
            have hmark : '@' ∈ marked t.name.toList mark := by simp [marked]
            rw [h] at hmark
            simp at hmark
          rw [outline, spelling_tabulated, ← call_table]
          exact (Reads.applied hword hif (.inl rfl) (.cons ha .nil)).anywhere
      | solver s => exact reads_solver id (he.here.bound s rfl) hlist

/-- **Plain formulas with one signature have one outline.** -/
theorem outline_eq_of_signature_eq [NumeralText α] {d e : Formula α} (hd : d.Plain)
    (he : e.Plain) (h : d.signature = e.signature) : d.outline = e.outline := by
  have hread : ∀ {f : Formula α}, f.Plain →
      ∀ᶠ n in Filter.atTop, readIn n .add f.spelling = some (f.outline, []) := by
    intro f hf
    have hread := ((reads_spelling hf).loosen (Nat.zero_le _)).read [] (stops_nil .add)
    rwa [List.append_nil] at hread
  -- one reader that goes deep enough for both
  obtain ⟨n, hreadD, hreadE⟩ := ((hread hd).and (hread he)).exists
  rw [spelling_eq_iff.mpr h, hreadE] at hreadD
  exact (congrArg Prod.fst (Option.some.inj hreadD)).symm

end Formula

end FormulaGraph
