import FormulaGraph.Proofs.Trials

/-!
# What a bracket search finds

A search asks its condition at points.  Run with a note taken of each of them, it tells which
(`BracketSearch.asked`).  All along, its bracket has ends that were asked, **the condition fails
at the lower end and holds at the upper one**; doubling and halving keep this, and the last step
stays inside.

Two things are concluded.  The search gives up exactly if the condition holds at the lower bound
or fails at the upper one and after each of the first **nine** doublings
(`search_finds_within_budget`): it gives up in the round in which it doubles for the tenth time,
without asking again.  And a root stands **between two points at which it was asked**, at one of
which the condition fails and at the other of which it holds, and which are as near to each other
as the precision demands, or as the numbers allow (`root_bracketed`).

Of the numbers it is required that those that are defined are ordered, and that halving a bracket
leads inside it.
-/

namespace FormulaGraph

namespace Scalar

variable {α : Type} [Scalar α]

/-- The number is neither undefined nor infinite. -/
def IsFinite (v : α) : Prop := isNaN (v - v) = false

/-- Whether a number is finite is seen from its difference with itself. -/
instance (v : α) : Decidable (IsFinite v) := inferInstanceAs (Decidable (_ = _))

end Scalar

open Scalar

/-- Numbers that are ordered, apart from undefined ones. -/
class OrderedNumbers (α : Type) [Scalar α] : Prop where
  nan_undefined : isNaN (nan : α) = true
  defined_of_atMost : ∀ {a b : α}, atMost a b = true → isNaN a = false ∧ isNaN b = false
  total : ∀ {a b : α}, isNaN a = false → isNaN b = false → atMost a b = true ∨ atMost b a = true
  trans : ∀ {a b c : α}, atMost a b = true → atMost b c = true → atMost a c = true
  less_iff : ∀ {a b : α}, less a b = true ↔ atMost a b = true ∧ atMost b a = false

section Order

variable {α : Type} [Scalar α] [OrderedNumbers α] {a b : α}

/-- What is less is at most. -/
theorem atMost_of_less (h : less a b = true) : atMost a b = true := (OrderedNumbers.less_iff.mp h).1

/-- Of two defined numbers one is less, unless the other is at most. -/
theorem less_of_not_atMost (ha : isNaN a = false) (hb : isNaN b = false)
    (h : atMost b a = false) : less a b = true := by
  rcases OrderedNumbers.total ha hb with hab | hba
  · exact OrderedNumbers.less_iff.mpr ⟨hab, h⟩
  · rw [h] at hba
    cases hba

/-- Of two defined numbers the one that is not greater is at most the other. -/
theorem atMost_of_not_less (ha : isNaN a = false) (hb : isNaN b = false)
    (h : less b a = false) : atMost a b = true := by
  by_contra hnot
  rw [less_of_not_atMost hb ha (by simpa using hnot)] at h
  cases h

/-- Strict order is transitive. -/
theorem less_trans {c : α} (h : less a b = true) (h' : less b c = true) : less a c = true := by
  obtain ⟨hab, -⟩ := OrderedNumbers.less_iff.mp h
  obtain ⟨hbc, hnot⟩ := OrderedNumbers.less_iff.mp h'
  refine OrderedNumbers.less_iff.mpr ⟨OrderedNumbers.trans hab hbc, Bool.eq_false_iff.mpr ?_⟩
  intro hca
  rw [OrderedNumbers.trans hca hab] at hnot
  cases hnot

/-- No number is less than itself. -/
theorem not_less_self (a : α) : ¬ less a a = true := by
  intro h
  obtain ⟨hle, hnot⟩ := OrderedNumbers.less_iff.mp h
  rw [hle] at hnot
  cases hnot

/-- A defined number is at most itself. -/
theorem atMost_self (ha : isNaN a = false) : atMost a a = true :=
  (OrderedNumbers.total ha ha).elim id id

/-- What is kept inside a bracket stands inside it, also if it is undefined. -/
theorem clamp_between (h : atMost a b = true) (x : α) :
    atMost a (larger a (smaller b x)) = true ∧ atMost (larger a (smaller b x)) b = true := by
  obtain ⟨ha, hb⟩ := OrderedNumbers.defined_of_atMost h
  have hsmaller : atMost (smaller b x) b = true := by
    rw [smaller, hb]
    split
    · next hx => exact atMost_of_less hx
    · exact atMost_self hb
  obtain ⟨hx, -⟩ := OrderedNumbers.defined_of_atMost hsmaller
  rw [larger, ha]
  split
  · next hless => exact ⟨atMost_of_less hless, hsmaller⟩
  · exact ⟨atMost_self ha, h⟩

end Order

namespace BracketSearch

variable {α : Type} [Scalar α]

/-- The upper bound after so many doublings. -/
def doubled (high : α) : ℕ → α
  | 0 => high
  | k + 1 => doubled high k * two

/-- The lower bound after so many doublings. -/
def lowered (low high : α) : ℕ → α
  | 0 => low
  | k + 1 => doubled high k

end BracketSearch

namespace Bracket

variable {α : Type} [Scalar α]

/-- The middle of the bracket, by the arithmetic of its ends. -/
def middle (b : Bracket α) : α := (b.low + b.high) / two

/-- The half of the bracket across which the condition switches. -/
def halve (past : α → Bool) (b : Bracket α) : Bracket α :=
  if past b.middle then ⟨b.low, b.middle⟩ else ⟨b.middle, b.high⟩

/-- The bracket is halved no more. -/
def Finished (precision : α) (b : Bracket α) : Prop :=
  less precision (b.high - b.low) = false ∨
    atMost b.middle b.low = true ∨ atMost b.high b.middle = true

/-- Whether a bracket is finished is decided by comparing. -/
instance (precision : α) (b : Bracket α) : Decidable (b.Finished precision) :=
  inferInstanceAs (Decidable (_ ∨ _ ∨ _))

/-- Halving the bracket comes to an end after so many halvings. -/
def EndsWithin (past : α → Bool) (precision : α) : ℕ → Bracket α → Prop
  | 0, b => b.Finished precision
  | n + 1, b => b.Finished precision ∨ EndsWithin past precision n (b.halve past)

/-- The bracket after a halving with the given answer at its middle. -/
def answered (b : Bracket α) (answer : Bool) : Bracket α := b.halve fun _ => answer

/-- Halving comes to an end after so many halvings, whatever is answered. -/
def AlwaysEndsWithin (precision : α) : ℕ → Bracket α → Prop
  | 0, b => b.Finished precision
  | n + 1, b => b.Finished precision ∨
      ∀ answer, AlwaysEndsWithin precision n (b.answered answer)

/-- What ends for every condition ends for this one. -/
theorem AlwaysEndsWithin.endsWithin {precision : α} {n : ℕ} {b : Bracket α}
    (h : b.AlwaysEndsWithin precision n) (past : α → Bool) : b.EndsWithin past precision n := by
  induction n generalizing b with
  | zero => exact h
  | succ n ih => exact h.imp_right fun hrest => ih (hrest (past b.middle))

/-- A middle that ends no halving is strictly between the ends. -/
theorem middle_inside [OrderedNumbers α] {precision : α} {b : Bracket α}
    (hlow : isNaN b.low = false) (hhigh : isNaN b.high = false) (hmiddle : isNaN b.middle = false)
    (h : ¬ b.Finished precision) : less b.low b.middle = true ∧ less b.middle b.high = true := by
  rw [Finished] at h
  push Not at h
  obtain ⟨-, hbelow, habove⟩ := h
  exact ⟨less_of_not_atMost hlow hmiddle (by simpa using hbelow),
    less_of_not_atMost hmiddle hhigh (by simpa using habove)⟩

/-- A finished bracket needs no halvings. -/
theorem alwaysEndsWithin_of_finished {precision : α} {b : Bracket α}
    (h : b.Finished precision) (n : ℕ) : b.AlwaysEndsWithin precision n := by
  cases n with
  | zero => exact h
  | succ n => exact .inl h

end Bracket

/-- Numbers between which a bracket search finds its way. -/
class BracketNumbers (α : Type) [Scalar α] : Prop extends OrderedNumbers α where
  finite_between : ∀ {a b c : α}, less a b = true → less b c = true → IsFinite b
  defined_of_finite : ∀ {a : α}, IsFinite a → isNaN a = false
  finite_of_double : ∀ {a : α}, IsFinite (a * two) → IsFinite a
  double_defined : ∀ {a : α}, isNaN a = false → isNaN (a * two) = false
  middle_defined : ∀ {a b : α}, isNaN a = false → IsFinite b → isNaN ((a + b) / two) = false
  middle_between : ∀ {a b : α}, less a b = true → IsFinite (a + b) →
    atMost a ((a + b) / two) = true ∧ atMost ((a + b) / two) b = true
  width_defined : ∀ {a b : α}, less a b = true → isNaN (b - a) = false
  /-- No two numbers in a bracket are farther from each other than its ends. -/
  width_greatest : ∀ {a b x y : α}, atMost a x = true → atMost x b = true → atMost a y = true →
    atMost y b = true → less (b - a) (x - y) = false
  /-- If halving comes to an end at all, then within the halvings allowed for. -/
  halvings_suffice : ∀ {past : α → Bool} {precision : α} {b : Bracket α} {n : ℕ},
    isNaN b.low = false → isNaN b.high = false → b.EndsWithin past precision n →
      b.EndsWithin past precision (halvings b.low b.high precision)

namespace BracketSearch

variable {α : Type} [Scalar α] {past : α → Bool} {value : α → α} {low high precision : α}

/-! ## Searches that take notes -/

/-- The condition at a point, which is noted. -/
def ask (past : α → Bool) (x : α) : WriterT (List α) Id Bool := do
  tell [x]
  return past x

/-- The search, with a note taken of where it asks its condition. -/
def noted (low high precision : α) (past : α → Bool) (value : α → α) :
    WriterT (List α) Id (SearchResult α) :=
  run low high precision (ask past) fun x => pure (value x)

/-- The points at which the search asks its condition. -/
def asked (low high precision : α) (past : α → Bool) (value : α → α) : List α :=
  (noted low high precision past value).run.2

/-- What the search finds. -/
def root (low high precision : α) (past : α → Bool) (value : α → α) : α :=
  (run (m := Id) low high precision (fun x => past x) fun x => value x).root

/-- Taking notes makes no difference to what is found. -/
theorem noted_root : (noted low high precision past value).run.1.root =
    root low high precision past value :=
  congrArg SearchResult.root (((AnswersIf.answering fun _ : α => True).run
    (fun _ _ => rfl) (fun _ _ => rfl) low high precision) fun _ _ => trivial)

/-- With these notes taken before, the computation leads to notes and an answer that satisfy
`Q`. -/
def Leads {α β : Type} (notes : List α) (x : WriterT (List α) Id β) (Q : List α → β → Prop) :
    Prop :=
  Q (notes ++ x.run.2) x.run.1

section Leads

omit [Scalar α]

variable {β γ : Type} {notes : List α} {Q : List α → β → Prop}

/-- A result that is handed back is led to. -/
theorem Leads.pure {b : β} (h : Q notes b) : Leads notes (Pure.pure b) Q := by
  show Q (notes ++ []) b
  rwa [List.append_nil]

/-- Consequences are led to as well. -/
theorem Leads.mono {x : WriterT (List α) Id β} {P : List α → β → Prop} (hx : Leads notes x P)
    (h : ∀ notes' b, P notes' b → Q notes' b) : Leads notes x Q :=
  h _ _ hx

/-- What follows a step goes on with the notes that it leaves. -/
theorem Leads.bind {x : WriterT (List α) Id γ} {f : γ → WriterT (List α) Id β}
    {P : List α → γ → Prop} (hx : Leads notes x P)
    (hf : ∀ notes' c, P notes' c → Leads notes' (f c) Q) : Leads notes (x >>= f) Q := by
  have h := hf _ _ hx
  rw [Leads, List.append_assoc] at h
  exact h

/-- Asking notes the number and answers the condition. -/
theorem Leads.ask (x : α) :
    Leads notes (ask past x) fun notes' holds => notes' = notes ++ [x] ∧ holds = past x := by
  refine ⟨?_, rfl⟩
  show notes ++ ([x] ++ []) = _
  rw [List.append_nil]

end Leads

/-! ## The bracket -/

/-- Both ends were asked: the condition fails at the lower one and holds at the upper one. -/
structure Switches (past : α → Bool) (notes : List α) (b : Bracket α) : Prop where
  low_asked : b.low ∈ notes
  high_asked : b.high ∈ notes
  low_fails : past b.low = false
  high_holds : past b.high = true

/-- Doubling first is doubling once more. -/
theorem doubled_double (high : α) (k : ℕ) : doubled (high * two) k = doubled high (k + 1) := by
  induction k with
  | zero => rfl
  | succ k ih => rw [doubled, ih, ← doubled]

/-- The lower end follows one doubling behind. -/
theorem lowered_double (low high : α) (k : ℕ) :
    lowered high (high * two) k = lowered low high (k + 1) := by
  cases k with
  | zero => rfl
  | succ k => exact doubled_double high k

/-- What expansion finds: the bracket after the first doubling after which the condition holds,
or none, if it holds after none of them. -/
structure Expanded (past : α → Bool) (left : ℕ) (b : Bracket α) (notes : List α)
    (found : Option (Bracket α)) : Prop where
  none_holds : found = none → ∀ k < left, past (doubled b.high k) = false
  first_holds : ∀ c, found = some c → ∃ k < left,
    c = ⟨lowered b.low b.high k, doubled b.high k⟩ ∧
      (∀ j < k, past (doubled b.high j) = false) ∧ Switches past notes c

/-- If the condition fails at the upper bound, the bracket moves up. -/
theorem Expanded.step {left : ℕ} {b : Bracket α} {notes : List α} {found : Option (Bracket α)}
    (hfails : past b.high = false) (h : Expanded past left ⟨b.high, b.high * two⟩ notes found) :
    Expanded past (left + 1) b notes found where
  none_holds hnone k hk := by
    cases k with
    | zero => exact hfails
    | succ k =>
        rw [← doubled_double]
        exact h.none_holds hnone k (Nat.lt_of_succ_lt_succ hk)
  first_holds c hc := by
    obtain ⟨k, hk, rfl, hfirst, hswitches⟩ := h.first_holds c hc
    refine ⟨k + 1, Nat.succ_lt_succ hk, ?_, ?_, hswitches⟩
    · rw [lowered_double b.low, doubled_double]
    · intro j hj
      cases j with
      | zero => exact hfails
      | succ j =>
          rw [← doubled_double]
          exact hfirst j (Nat.lt_of_succ_lt_succ hj)

/-- Expansion asks at doubled upper bounds until the condition holds, or until none is left. -/
theorem expand_leads (left : ℕ) {b : Bracket α} {notes : List α} (hasked : b.low ∈ notes)
    (hfails : past b.low = false) (doublings : ℕ) :
    Leads notes (expand (ask past) left b doublings) fun notes' found =>
      Expanded past left b notes' found.1 := by
  induction left generalizing b notes doublings with
  | zero =>
      rw [expand]
      exact .pure ⟨fun _ k hk => absurd hk (Nat.not_lt_zero k), fun _ h => by cases h⟩
  | succ left ih =>
      rw [expand]
      refine .bind (.ask b.high) ?_
      rintro notes' holds ⟨rfl, rfl⟩
      cases hholds : past b.high with
      | true =>
          refine .pure ⟨fun h => by { cases h }, ?_⟩
          rintro c ⟨⟩
          refine ⟨0, Nat.succ_pos left, rfl, fun j hj => absurd hj (Nat.not_lt_zero j), ?_⟩
          exact ⟨List.mem_append_left _ hasked, by simp, hfails, hholds⟩
      | false =>
          exact .mono (ih (b := ⟨b.high, b.high * two⟩) (by simp) hholds (doublings + 1))
            fun _ _ h => h.step hholds

/-! ## Halving -/

/-- Halving keeps the ends on either side of the condition. -/
theorem Switches.halve {notes : List α} {b : Bracket α} (h : Switches past notes b) :
    Switches past (notes ++ [b.middle]) (b.halve past) := by
  rw [Bracket.halve]
  cases hpast : past b.middle with
  | true => exact ⟨List.mem_append_left _ h.low_asked, by simp, h.low_fails, hpast⟩
  | false => exact ⟨by simp, List.mem_append_left _ h.high_asked, hpast, h.high_holds⟩

section Loop

variable {m : Type → Type} [Monad m] {b : Bracket α}

/-- A finished bracket is not halved. -/
theorem bisect_finished (h : b.Finished precision) (past : α → m Bool) (left bisections : ℕ) :
    bisect past precision left b bisections = pure (b, bisections) := by
  cases left with
  | zero => rfl
  | succ left =>
      rw [bisect]
      rcases h with hwidth | hmiddle
      · rw [if_neg (by rw [hwidth]; decide)]
      · split
        · dsimp only
          rw [if_pos (by rw [Bool.or_eq_true]; exact hmiddle)]
        · rfl

/-- A halving asks the condition at the middle. -/
theorem bisect_move (h : ¬ b.Finished precision) (past : α → m Bool) (left bisections : ℕ) :
    bisect past precision (left + 1) b bisections = past b.middle >>= fun answer =>
      bisect past precision left (b.answered answer) (bisections + 1) := by
  have hmove : less precision (b.high - b.low) = true ∧ atMost b.middle b.low = false ∧
      atMost b.high b.middle = false := by
    rw [Bracket.Finished] at h
    simpa using h
  rw [bisect, if_pos hmove.1]
  dsimp only
  rw [if_neg (by
    show ¬ (atMost b.middle b.low || atMost b.high b.middle) = true
    rw [hmove.2.1, hmove.2.2]
    decide)]
  congr 1
  funext answer
  cases answer <;> rfl

end Loop

/-- What a halving keeps, the halvings keep, and if they suffice the bracket is finished. -/
theorem bisect_leads {P : List α → Bracket α → Prop}
    (hstep : ∀ notes b, P notes b → ¬ b.Finished precision →
      P (notes ++ [b.middle]) (b.halve past))
    (left : ℕ) {b : Bracket α} {notes : List α} (h : P notes b) (bisections : ℕ) :
    Leads notes (bisect (ask past) precision left b bisections) fun notes' done =>
      P notes' done.1 ∧ (b.EndsWithin past precision left → done.1.Finished precision) := by
  induction left generalizing b notes bisections with
  | zero =>
      rw [bisect]
      exact .pure ⟨h, fun hends => hends⟩
  | succ left ih =>
      by_cases hfinished : b.Finished precision
      · rw [bisect_finished hfinished]
        exact .pure ⟨h, fun _ => hfinished⟩
      · rw [bisect_move hfinished]
        refine .bind (.ask b.middle) ?_
        rintro notes' answer ⟨rfl, rfl⟩
        have hrest := ih (hstep notes b h hfinished) (bisections + 1)
        exact .mono hrest fun _ _ hdone =>
          ⟨hdone.1, fun hends => hdone.2 (hends.resolve_left hfinished)⟩

/-! ## The search -/

/-- What the search finds, from what holds of the bracket after expansion and is kept by
halvings. -/
theorem run_leads {P : List α → Bracket α → Prop} (hlow : past low = false)
    (hfound : ∀ notes k, k < maxDoublings → (∀ j < k, past (doubled high j) = false) →
      Switches past notes ⟨lowered low high k, doubled high k⟩ →
      P notes ⟨lowered low high k, doubled high k⟩)
    (hstep : ∀ notes b, P notes b → ¬ b.Finished precision →
      P (notes ++ [b.middle]) (b.halve past)) :
    Leads [] (noted low high precision past value) fun notes result =>
      (result.root = nan ∧ ∀ k < maxDoublings, past (doubled high k) = false) ∨
      ∃ k < maxDoublings, (∀ j < k, past (doubled high j) = false) ∧
        past (doubled high k) = true ∧
        ∃ b, P notes b ∧ result.root = secant b (value b.low) (value b.high) ∧
          ((⟨lowered low high k, doubled high k⟩ : Bracket α).EndsWithin past precision
              (halvings (lowered low high k) (doubled high k) precision) →
            b.Finished precision) := by
  rw [noted, run]
  refine .bind (.ask low) ?_
  rintro notes holds ⟨rfl, rfl⟩
  rw [hlow]
  refine .bind (expand_leads maxDoublings (b := ⟨low, high⟩) (by simp) hlow 0) ?_
  rintro notes ⟨found, doublings⟩ hexpanded
  cases found with
  | none => exact .pure (.inl ⟨rfl, hexpanded.none_holds rfl⟩)
  | some c =>
      obtain ⟨k, hk, rfl, hfirst, hswitches⟩ := hexpanded.first_holds c rfl
      refine .bind (bisect_leads hstep _ (hfound notes k hk hfirst hswitches) 0) ?_
      rintro notes' ⟨b, bisections⟩ ⟨hb, hfinished⟩
      exact .pure (.inr ⟨k, hk, hfirst, hswitches.high_holds, b, hb, rfl, hfinished⟩)

variable [BracketNumbers α]

/-! ## Giving up -/

/-- The last step of a search gives a number if both ends and the middle are numbers. -/
theorem secant_defined {b : Bracket α} (hlow : isNaN b.low = false) (hhigh : isNaN b.high = false)
    (hmiddle : isNaN b.middle = false) (u v : α) : isNaN (secant b u v) = false := by
  have hsmaller : ∀ x, isNaN (smaller b.high x) = false := by
    intro x
    rw [smaller, hhigh]
    split
    · next hx => exact (OrderedNumbers.defined_of_atMost (atMost_of_less hx)).1
    · exact hhigh
  have hlarger : ∀ x, isNaN (larger b.low (smaller b.high x)) = false := by
    intro x
    rw [larger, hlow]
    split
    · exact hsmaller x
    · exact hlow
  rw [secant]
  split
  · exact hmiddle
  · exact hlarger _

/-- If a doubled bound is finite, so are those before it. -/
theorem finite_doubled {k : ℕ} (h : IsFinite (doubled high k)) {j : ℕ} (hj : j ≤ k) :
    IsFinite (doubled high j) := by
  induction k with
  | zero => rwa [Nat.le_zero.mp hj]
  | succ k ih =>
      rcases Nat.lt_or_eq_of_le hj with hj | rfl
      · exact ih (BracketNumbers.finite_of_double h) (Nat.le_of_lt_succ hj)
      · exact h

/-- A bracket of numbers whose upper end is finite. -/
structure Sound (b : Bracket α) : Prop where
  low_defined : isNaN b.low = false
  high_finite : IsFinite b.high

/-- The middle of a sound bracket is defined. -/
theorem Sound.middle_defined {b : Bracket α} (h : Sound b) : isNaN b.middle = false :=
  BracketNumbers.middle_defined h.low_defined h.high_finite

/-- Halving keeps a bracket sound. -/
theorem Sound.halve {b : Bracket α} (h : Sound b) (hmove : ¬ b.Finished precision) :
    Sound (b.halve past) := by
  obtain ⟨hbelow, habove⟩ := Bracket.middle_inside h.low_defined
    (BracketNumbers.defined_of_finite h.high_finite) h.middle_defined hmove
  rw [Bracket.halve]
  split
  · exact ⟨h.low_defined, BracketNumbers.finite_between hbelow habove⟩
  · exact ⟨h.middle_defined, h.high_finite⟩

/-- When a search gives up: if the condition holds at the lower bound, or fails at the upper one
and after each of the doublings but the last; and not if it fails at the lower bound and holds
after one of these doublings, at a finite number. -/
structure GivesUp (past : α → Bool) (low high root : α) : Prop where
  undefined : past low = true ∨ (∀ k < maxDoublings, past (doubled high k) = false) →
    isNaN root = true
  found : past low = false → ∀ k < maxDoublings, past (doubled high k) = true →
    IsFinite (doubled high k) → isNaN root = false

omit [BracketNumbers α] in
/-- There is no root if the condition holds at the lower bound. -/
theorem root_of_past_low (h : past low = true) : root low high precision past value = nan := by
  rw [root, run]
  show SearchResult.root (if past low = true then _ else _) = _
  rw [if_pos h]
  rfl

omit [BracketNumbers α] in
/-- There is no root if it holds at none of the doubled bounds. -/
theorem root_of_never_past (hlow : past low = false)
    (h : ∀ k < maxDoublings, past (doubled high k) = false) :
    root low high precision past value = nan := by
  have hrun : Leads [] (noted low high precision past value) _ :=
    run_leads (P := fun _ _ => True) hlow (fun _ _ _ _ _ => trivial) fun _ _ _ _ => trivial
  rcases hrun with ⟨hroot, -⟩ | ⟨k, hk, -, hholds, -⟩
  · rwa [← noted_root]
  · rw [h k hk] at hholds
    cases hholds

/-- There is a root if it holds at a finite one. -/
theorem root_defined (hlow : isNaN low = false) (hfails : past low = false) {k : ℕ}
    (hk : k < maxDoublings) (hholds : past (doubled high k) = true)
    (hfinite : IsFinite (doubled high k)) :
    isNaN (root low high precision past value) = false := by
  have hfound : ∀ j, (∀ i < j, past (doubled high i) = false) →
      Sound ⟨lowered low high j, doubled high j⟩ := by
    intro j hfirst
    have hj : j ≤ k := by
      by_contra hlater
      rw [hfirst k (Nat.lt_of_not_le hlater)] at hholds
      cases hholds
    refine ⟨?_, finite_doubled hfinite hj⟩
    cases j with
    | zero => exact hlow
    | succ j => exact BracketNumbers.defined_of_finite (finite_doubled hfinite (Nat.le_of_lt hj))
  have hrun : Leads [] (noted low high precision past value) _ :=
    run_leads (P := fun _ b => Sound b) hfails (fun _ j _ hfirst _ => hfound j hfirst)
      fun _ _ hb hmove => hb.halve hmove
  rcases hrun with ⟨-, hnever⟩ | ⟨-, -, -, -, b, hb, hroot, -⟩
  · rw [hnever k hk] at hholds
    cases hholds
  · rw [← noted_root, hroot]
    exact secant_defined hb.low_defined (BracketNumbers.defined_of_finite hb.high_finite)
      hb.middle_defined _ _

/-- The search gives up where it has to, and finds a number where the condition allows it. -/
theorem root_gives_up (hlow : isNaN low = false) :
    GivesUp past low high (root low high precision past value) where
  undefined h := by
    have hnan : root low high precision past value = nan := by
      cases hpast : past low with
      | true => exact root_of_past_low hpast
      | false => exact root_of_never_past hpast (h.resolve_left (by rw [hpast]; decide))
    rw [hnan]
    exact OrderedNumbers.nan_undefined
  found hfails _ hk hholds hfinite := root_defined hlow hfails hk hholds hfinite

/-- **The budget of a search.**  For a lower bound that is a number, a search gives up if its
condition holds there or fails at the upper bound and after each of nine doublings, and it
finds a number if the condition fails at the lower bound and holds after one of these, at a
finite number.  So do solvers. -/
theorem search_finds_within_budget :
    (∀ (low high precision : α) (past : α → Bool) (value : α → α), isNaN low = false →
      GivesUp past low high (root low high precision past value)) ∧
    ∀ (ρ : Valuation α) (id : NodeId) (s : Solver α (Formula α)),
      isNaN (s.low.value ρ) = false →
      GivesUp (s.isPast ρ) (s.low.value ρ) (s.high.value ρ)
        (Formula.value ρ (.node id (.solver s))) := by
  refine ⟨fun _ _ _ _ _ hlow => root_gives_up hlow, ?_⟩
  intro ρ id s hlow
  rw [Formula.value_solver]
  exact root_gives_up hlow

/-! ## Where a root is found -/

/-- Once the condition holds, it holds for all greater numbers. -/
def StaysTrue (past : α → Bool) : Prop :=
  ∀ a b, atMost a b = true → past a = true → past b = true

/-- A threshold once passed stays passed. -/
theorem staysTrue_atMost (t : α) : StaysTrue fun x => atMost t x :=
  fun _ _ hab ha => OrderedNumbers.trans ha hab

/-- The halving of the bracket after expansion comes to an end. -/
def Returns (past : α → Bool) (low high precision : α) : Prop :=
  ∀ k < maxDoublings, (∀ j < k, past (doubled high j) = false) → past (doubled high k) = true →
    ∃ n, (⟨lowered low high k, doubled high k⟩ : Bracket α).EndsWithin past precision n

/-- The brackets of a search: the one after expansion, and the halves of those that are halved. -/
inductive Reached (past : α → Bool) (low high precision : α) : Bracket α → Prop
  | expanded {k : ℕ} (hk : k < maxDoublings) (first : ∀ j < k, past (doubled high j) = false)
      (holds : past (doubled high k) = true) :
      Reached past low high precision ⟨lowered low high k, doubled high k⟩
  | halve {b : Bracket α} (h : Reached past low high precision b)
      (hmove : ¬ b.Finished precision) : Reached past low high precision (b.halve past)

/-- No sum of the ends of a bracket overflows. -/
def SumsFinite (past : α → Bool) (low high precision : α) : Prop :=
  ∀ b, Reached past low high precision b → IsFinite (b.low + b.high)

/-- No number at which the condition fails is above `t`, and none at which it holds below. -/
structure SwitchesAt (past : α → Bool) (t : α) : Prop where
  below : ∀ x, isNaN x = false → past x = false → atMost x t = true
  above : ∀ x, isNaN x = false → past x = true → atMost t x = true

/-- The root stands in a bracket whose ends were asked, with the condition failing at the lower
and holding at the upper one; it is no wider than the precision, or has no middle of its own; and
where the condition switches stands in it as well, no farther from the root than the ends are
from each other. -/
structure Located (past : α → Bool) (precision : α) (notes : List α) (root : α)
    (b : Bracket α) : Prop extends Switches past notes b where
  proper : less b.low b.high = true
  root_between : atMost b.low root = true ∧ atMost root b.high = true
  narrow : atMost (b.high - b.low) precision = true ∨
    ¬ (less b.low b.middle = true ∧ less b.middle b.high = true)
  switch_near : ∀ t, SwitchesAt past t → (atMost b.low t = true ∧ atMost t b.high = true) ∧
    less (b.high - b.low) (root - t) = false ∧ less (b.high - b.low) (t - root) = false

/-- The secant is kept between the ends of its bracket. -/
theorem secant_between {b : Bracket α} (hless : less b.low b.high = true)
    (hsum : IsFinite (b.low + b.high)) (u v : α) :
    atMost b.low (secant b u v) = true ∧ atMost (secant b u v) b.high = true := by
  rw [secant]
  split
  · exact BracketNumbers.middle_between hless hsum
  · exact clamp_between (atMost_of_less hless) _

/-- A condition that fails at one number and holds at another holds at the greater one. -/
theorem less_of_switches (hstays : StaysTrue past) {a b : α} (ha : isNaN a = false)
    (hb : isNaN b = false) (hfails : past a = false) (hholds : past b = true) :
    less a b = true := by
  refine less_of_not_atMost ha hb ?_
  by_contra hnot
  rw [hstays b a (by simpa using hnot) hholds] at hfails
  cases hfails

/-- A finished bracket with the root inside locates it. -/
theorem Switches.located {notes : List α} {b : Bracket α} {r : α} (h : Switches past notes b)
    (hless : less b.low b.high = true) (hprecision : isNaN precision = false)
    (hroot : atMost b.low r = true ∧ atMost r b.high = true) (hfinished : b.Finished precision) :
    Located past precision notes r b := by
  obtain ⟨hlow, hhigh⟩ := OrderedNumbers.defined_of_atMost (atMost_of_less hless)
  refine ⟨h, hless, hroot, ?_, ?_⟩
  · rcases hfinished with hwidth | hmiddle
    · exact .inl (atMost_of_not_less (BracketNumbers.width_defined hless) hprecision hwidth)
    · refine .inr ?_
      rintro ⟨hbelow, habove⟩
      rcases hmiddle with hmiddle | hmiddle
      · rw [(OrderedNumbers.less_iff.mp hbelow).2] at hmiddle
        cases hmiddle
      · rw [(OrderedNumbers.less_iff.mp habove).2] at hmiddle
        cases hmiddle
  · intro t ht
    have hlowT := ht.below b.low hlow h.low_fails
    have hhighT := ht.above b.high hhigh h.high_holds
    exact ⟨⟨hlowT, hhighT⟩, BracketNumbers.width_greatest hroot.1 hroot.2 hlowT hhighT,
      BracketNumbers.width_greatest hlowT hhighT hroot.1 hroot.2⟩

/-- **A root is bracketed and accurate.**  For every condition that stays true for greater
numbers, every function and every precision: if the halving ends and the ends of the brackets
have finite sums, a root stands between two points that were asked, the condition failing at the
one and holding at the other, and these are as near to each other as the precision demands, or
have no middle between them. -/
theorem root_bracketed (hstays : StaysTrue past) (hlow : isNaN low = false)
    (hhigh : isNaN high = false) (hprecision : isNaN precision = false)
    (hreturns : Returns past low high precision)
    (hsums : SumsFinite past low high precision)
    (hroot : isNaN (root low high precision past value) = false) :
    ∃ b, Located past precision (asked low high precision past value)
      (root low high precision past value) b := by
  have hfails : past low = false := by
    by_contra hholds
    rw [root_of_past_low (by simpa using hholds), OrderedNumbers.nan_undefined] at hroot
    cases hroot
  have hdoubled : ∀ k, isNaN (doubled high k) = false := by
    intro k
    induction k with
    | zero => exact hhigh
    | succ k ih => exact BracketNumbers.double_defined ih
  have hlowered : ∀ k, isNaN (lowered low high k) = false := by
    intro k
    cases k with
    | zero => exact hlow
    | succ k => exact hdoubled k
  have hstep : ∀ notes (b : Bracket α),
      (Switches past notes b ∧ Reached past low high precision b ∧ less b.low b.high = true) →
      ¬ b.Finished precision →
      Switches past (notes ++ [b.middle]) (b.halve past) ∧
        Reached past low high precision (b.halve past) ∧
        less (b.halve past).low (b.halve past).high = true := by
    rintro notes b ⟨hb, hreached, hproper⟩ hmove
    obtain ⟨hmiddle, -⟩ := BracketNumbers.middle_between hproper (hsums b hreached)
    obtain ⟨hlow', hhigh'⟩ := OrderedNumbers.defined_of_atMost (atMost_of_less hproper)
    obtain ⟨hbelow, habove⟩ := Bracket.middle_inside hlow' hhigh'
      (OrderedNumbers.defined_of_atMost hmiddle).2 hmove
    refine ⟨hb.halve, hreached.halve hmove, ?_⟩
    rw [Bracket.halve]
    split
    · exact hbelow
    · exact habove
  have hrun : Leads [] (noted low high precision past value) _ :=
    run_leads hfails (fun _ k hk hfirst hswitches =>
      ⟨hswitches, .expanded hk hfirst hswitches.high_holds, less_of_switches hstays
        (hlowered k) (hdoubled k) hswitches.low_fails hswitches.high_holds⟩) hstep
  rw [← noted_root] at hroot ⊢
  rcases hrun with ⟨hnan, -⟩ |
    ⟨k, hk, hfirst, hholds, b, ⟨hb, hreached, hproper⟩, hfound, hfinished⟩
  · rw [hnan, OrderedNumbers.nan_undefined] at hroot
    cases hroot
  · obtain ⟨n, hends⟩ := hreturns k hk hfirst hholds
    refine ⟨b, hb.located hproper hprecision ?_
      (hfinished (BracketNumbers.halvings_suffice (hlowered k) (hdoubled k) hends))⟩
    rw [hfound]
    exact secant_between hproper (hsums b hreached) _ _

end BracketSearch

/-! ## Exact arithmetic -/

namespace PartialReal

open BracketSearch

/-- Real numbers are finite. -/
theorem isFinite_real (x : ℝ) : IsFinite (real x) := rfl

/-- In exact arithmetic the finite numbers are the real ones. -/
theorem exists_of_finite {a : PartialReal} (h : IsFinite a) : ∃ x, a = real x := by
  cases a with
  | undefined => cases h
  | real x => exact ⟨x, rfl⟩

/-- The defined numbers are the real ones. -/
theorem exists_of_defined {a : PartialReal} (h : isNaN a = false) : ∃ x, a = real x := by
  cases a with
  | undefined => cases h
  | real x => exact ⟨x, rfl⟩

/-- What can be compared is real. -/
theorem exists_of_atMost {a b : PartialReal} (h : atMost a b = true) :
    ∃ x y, a = real x ∧ b = real y ∧ x ≤ y := by
  cases a with
  | undefined => cases h
  | real x =>
      cases b with
      | undefined => cases h
      | real y => exact ⟨x, y, rfl, rfl, (atMost_real x y).mp h⟩

/-- Only real numbers are less than others. -/
theorem exists_of_less {a b : PartialReal} (h : less a b = true) :
    ∃ x y, a = real x ∧ b = real y ∧ x < y := by
  cases a with
  | undefined => cases h
  | real x =>
      cases b with
      | undefined => cases h
      | real y => exact ⟨x, y, rfl, rfl, (less_real x y).mp h⟩

/-- The middle is the arithmetic mean. -/
theorem middle_real (x y : ℝ) :
    (⟨real x, real y⟩ : Bracket PartialReal).middle = real ((x + y) / 2) := by
  rw [Bracket.middle, real_add, two_eq, real_div _ two_ne_zero]

/-- The real numbers are in order, and the undefined value is apart. -/
instance : OrderedNumbers PartialReal where
  nan_undefined := rfl
  defined_of_atMost h := by
    obtain ⟨x, y, rfl, rfl, -⟩ := exists_of_atMost h
    exact ⟨rfl, rfl⟩
  total ha hb := by
    obtain ⟨x, rfl⟩ := exists_of_defined ha
    obtain ⟨y, rfl⟩ := exists_of_defined hb
    simpa using le_total x y
  trans h h' := by
    obtain ⟨x, y, rfl, rfl, hxy⟩ := exists_of_atMost h
    obtain ⟨y', z, hy, rfl, hyz⟩ := exists_of_atMost h'
    obtain rfl := PartialReal.real.inj hy
    simpa using hxy.trans hyz
  less_iff {a b} := by
    refine ⟨fun h => ?_, fun h => ?_⟩
    · obtain ⟨x, y, rfl, rfl, hxy⟩ := exists_of_less h
      rw [Bool.eq_false_iff, ne_eq, atMost_real, atMost_real, not_le]
      exact ⟨hxy.le, hxy⟩
    · obtain ⟨hab, hba⟩ := h
      obtain ⟨x, y, rfl, rfl, -⟩ := exists_of_atMost hab
      rw [Bool.eq_false_iff, ne_eq, atMost_real, not_le] at hba
      exact (less_real x y).mpr hba

variable {past : PartialReal → Bool} {precision : ℝ}

/-- A bracket is finished when it is narrow enough. -/
theorem finished_iff {x y : ℝ} :
    (⟨real x, real y⟩ : Bracket PartialReal).Finished (real precision) ↔
      y - x ≤ precision ∨ y ≤ x := by
  rw [Bracket.Finished, middle_real, Bool.eq_false_iff]
  simp only [real_sub, ne_eq, less_real, atMost_real, not_lt]
  constructor
  · rintro (h | h | h)
    · exact .inl h
    · exact .inr (by linarith)
    · exact .inr (by linarith)
  · rintro (h | h)
    · exact .inl h
    · exact .inr (.inl (by linarith))

/-- A bracket ends within so many halvings if its width, divided by as many twos, is within the
precision. -/
theorem endsWithin_iff {n : ℕ} {x y : ℝ} :
    (⟨real x, real y⟩ : Bracket PartialReal).EndsWithin past (real precision) n ↔
      (y - x) / (2 ^ n : ℕ) ≤ precision ∨ y ≤ x := by
  induction n generalizing x y with
  | zero => simpa [Bracket.EndsWithin] using finished_iff
  | succ n ih =>
      have hhalf : ∃ x' y', y' - x' = (y - x) / 2 ∧
          (⟨real x, real y⟩ : Bracket PartialReal).halve past = ⟨real x', real y'⟩ := by
        rw [Bracket.halve, middle_real]
        split
        · exact ⟨x, (x + y) / 2, by ring, rfl⟩
        · exact ⟨(x + y) / 2, y, by ring, rfl⟩
      obtain ⟨x', y', hwidth, hhalve⟩ := hhalf
      have hpow : (y - x) / (2 ^ (n + 1) : ℕ) = (y' - x') / (2 ^ n : ℕ) := by
        rw [hwidth, pow_succ]
        push_cast
        rw [div_div, mul_comm]
      have horder : y' ≤ x' ↔ y ≤ x := by
        constructor <;> intro h <;> linarith
      rw [Bracket.EndsWithin, finished_iff, hhalve, ih, ← hpow, horder]
      refine ⟨?_, fun h => .inr h⟩
      rintro ((h | h) | h)
      · by_cases hyx : y ≤ x
        · exact .inr hyx
        · have hpos : 0 ≤ y - x := by linarith
          have hone : (1 : ℝ) ≤ (2 ^ (n + 1) : ℕ) := by exact_mod_cast Nat.one_le_two_pow
          exact .inl ((div_le_self hpos hone).trans h)
      · exact .inr h
      · exact h

/-- Brackets of real numbers can be halved, and halving keeps them in order. -/
instance : BracketNumbers PartialReal where
  finite_between h _ := by
    obtain ⟨x, y, rfl, rfl, -⟩ := exists_of_less h
    exact isFinite_real y
  defined_of_finite h := by
    obtain ⟨x, rfl⟩ := exists_of_finite h
    rfl
  finite_of_double {a} h := by
    cases a with
    | undefined => cases h
    | real x => exact isFinite_real x
  double_defined h := by
    obtain ⟨x, rfl⟩ := exists_of_defined h
    rfl
  middle_defined ha hb := by
    obtain ⟨x, rfl⟩ := exists_of_defined ha
    obtain ⟨y, rfl⟩ := exists_of_finite hb
    show isNaN (Bracket.middle ⟨real x, real y⟩) = false
    rw [middle_real]
    rfl
  middle_between h _ := by
    obtain ⟨x, y, rfl, rfl, hxy⟩ := exists_of_less h
    show atMost (real x) (Bracket.middle ⟨real x, real y⟩) = true ∧
      atMost (Bracket.middle ⟨real x, real y⟩) (real y) = true
    rw [middle_real, atMost_real, atMost_real]
    constructor <;> linarith
  width_defined h := by
    obtain ⟨x, y, rfl, rfl, -⟩ := exists_of_less h
    rfl
  width_greatest hax hxb hay hyb := by
    obtain ⟨a, x, rfl, rfl, hax⟩ := exists_of_atMost hax
    obtain ⟨b, rfl⟩ := exists_of_defined (OrderedNumbers.defined_of_atMost hxb).2
    obtain ⟨y, rfl⟩ := exists_of_defined (OrderedNumbers.defined_of_atMost hay).2
    rw [atMost_real] at hxb hay hyb
    rw [Bool.eq_false_iff]
    simp only [real_sub, ne_eq, less_real, not_lt]
    linarith
  halvings_suffice {past precision b n} hlow hhigh h := by
    obtain ⟨low, high⟩ := b
    obtain ⟨x, rfl⟩ := exists_of_defined hlow
    obtain ⟨y, rfl⟩ := exists_of_defined hhigh
    cases precision with
    | undefined => exact .inl rfl
    | real p =>
        rw [endsWithin_iff] at h ⊢
        refine h.imp_left fun hn => ?_
        exact Nat.sInf_mem (s := {n : ℕ | (y - x) / (2 ^ n : ℕ) ≤ p}) ⟨n, hn⟩

/-- In exact arithmetic, halving ends if the precision is positive. -/
theorem returns_of_pos {low high : PartialReal} (hlow : isNaN low = false)
    (hhigh : isNaN high = false) (h : 0 < precision) :
    Returns past low high (real precision) := by
  intro k _ _ _
  have hdoubled : ∀ j, ∃ y, doubled high j = real y := by
    intro j
    induction j with
    | zero => exact exists_of_defined hhigh
    | succ j ih =>
        obtain ⟨y, hy⟩ := ih
        exact ⟨y * 2, by rw [doubled, hy]; rfl⟩
  have hlowered : ∃ x, lowered low high k = real x := by
    cases k with
    | zero => exact exists_of_defined hlow
    | succ j => exact hdoubled j
  obtain ⟨x, hx⟩ := hlowered
  obtain ⟨y, hy⟩ := hdoubled k
  obtain ⟨n, hn⟩ := pow_unbounded_of_one_lt ((y - x) / precision) one_lt_two
  refine ⟨n, ?_⟩
  rw [hx, hy, endsWithin_iff]
  left
  push_cast
  rw [div_le_iff₀ (by positivity)]
  rw [div_lt_iff₀ h] at hn
  linarith

end PartialReal

end FormulaGraph
