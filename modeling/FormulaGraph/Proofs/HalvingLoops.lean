import FormulaGraph.Proofs.Binary64Order
import Mathlib.Data.Set.Card

/-!
# Halving loops come to an end

A condition may have a state: what it answers at a point may depend on where it was asked before.
The loop that halves a bracket then has nothing to rely on but the numbers.  It is followed from
halving to halving together with that state (`BracketSearch.Halves`).

The test of the width may never end it, where the precision is zero, negative or undefined.  But
a middle that is a number and ends nothing is strictly between the ends, and is so no longer
afterwards: so there are **no more such halvings than numbers strictly between the ends** of the
bracket at the beginning (`Binary64.defined_middles_le`).  A middle that is undefined, between
infinite ends, becomes an end, and a bracket with an undefined end is not halved again
(`Binary64.undefined_middle_last`).  The number of halvings the loop is given in advance is never
used up (`Binary64.alwaysEndsWithin_halvings`), and the search returns (`Binary64.search_returns`).
-/

namespace FormulaGraph

open Scalar

section Loops

variable {α : Type} [Scalar α]

namespace Bracket

variable {precision : α} {b : Bracket α}

/-- The numbers strictly between the ends. -/
def between (b : Bracket α) : Set α := {x | less b.low x = true ∧ less x b.high = true}

/-- The middle of a bracket that is halved at a number is between the ends, and there is less
between them afterwards. -/
theorem between_answered [OrderedNumbers α] (hlow : isNaN b.low = false)
    (hhigh : isNaN b.high = false) (hmiddle : isNaN b.middle = false)
    (hmove : ¬ b.Finished precision) (answer : Bool) :
    (b.answered answer).between ⊂ b.between := by
  obtain ⟨hbelow, habove⟩ := middle_inside hlow hhigh hmiddle hmove
  rw [Set.ssubset_iff_of_subset]
  · refine ⟨b.middle, ⟨hbelow, habove⟩, ?_⟩
    cases answer with
    | true => exact fun h => not_less_self b.middle h.2
    | false => exact fun h => not_less_self b.middle h.1
  · rintro x ⟨hx, hx'⟩
    cases answer with
    | true => exact ⟨hx, less_trans hx' habove⟩
    | false => exact ⟨less_trans hbelow hx, hx'⟩

theorem undefined_answered (hmiddle : isNaN b.middle = true) (answer : Bool) :
    isNaN (b.answered answer).low = true ∨ isNaN (b.answered answer).high = true := by
  cases answer with
  | true => exact .inr hmiddle
  | false => exact .inl hmiddle

end Bracket

/-! ## Loops with a state -/

namespace BracketSearch

variable {σ : Type}

/-- From a bracket, with the condition in a state, the loop goes on to another bracket and
another state, halving at the middles listed. -/
inductive Halves (past : α → StateM σ Bool) (precision : α) :
    Bracket α → σ → List α → Bracket α → σ → Prop
  | none (b : Bracket α) (s : σ) : Halves past precision b s [] b s
  | halve {b b' : Bracket α} {s s' : σ} {middles : List α} (hmove : ¬ b.Finished precision)
      (rest : Halves past precision (b.answered ((past b.middle).run s).1)
        ((past b.middle).run s).2 middles b' s') :
      Halves past precision b s (b.middle :: middles) b' s'

variable {past : α → StateM σ Bool} {precision : α} {b : Bracket α}

/-- **A loop that always ends goes on until the bracket is finished**, counting its halvings. -/
theorem bisect_halves (left : ℕ) {b : Bracket α} (h : b.AlwaysEndsWithin precision left)
    (n : ℕ) (s : σ) :
    ∃ middles b' s', Halves past precision b s middles b' s' ∧ b'.Finished precision ∧
      (bisect past precision left b n).run s = ((b', n + middles.length), s') := by
  induction left generalizing b n s with
  | zero => exact ⟨[], b, s, .none b s, h, rfl⟩
  | succ left ih =>
      by_cases hfinished : b.Finished precision
      · exact ⟨[], b, s, .none b s, hfinished, by rw [bisect_finished hfinished]; rfl⟩
      · obtain ⟨middles, b', s', hhalves, hlast, hrun⟩ :=
          ih (h.resolve_left hfinished ((past b.middle).run s).1) (n + 1) ((past b.middle).run s).2
        refine ⟨b.middle :: middles, b', s', .halve hfinished hhalves, hlast, ?_⟩
        rw [bisect_move hfinished, StateT.run_bind]
        refine Eq.trans hrun ?_
        rw [List.length_cons, Nat.add_right_comm, Nat.add_assoc]

section Search

variable {low high : α} {value : α → StateM σ α} {s : σ}

/-- The search gives up if the condition holds at the lower bound. -/
theorem run_of_holds (h : ((past low).run s).1 = true) :
    (run low high precision past value).run s = (⟨nan, 0, 0⟩, ((past low).run s).2) := by
  rw [run, StateT.run_bind]
  generalize (past low).run s = first at h ⊢
  obtain ⟨holds, s'⟩ := first
  cases h
  rfl

variable {first : σ} (hfails : (past low).run s = (false, first))

include hfails

/-- The search gives up if no bracket is found. -/
theorem run_of_none {doublings : ℕ} {s' : σ}
    (h : (expand past maxDoublings ⟨low, high⟩ 0).run first = ((none, doublings), s')) :
    (run low high precision past value).run s = (⟨nan, doublings, 0⟩, s') := by
  rw [run, StateT.run_bind, hfails]
  show StateT.run (expand past maxDoublings ⟨low, high⟩ 0 >>= _) first = _
  rw [StateT.run_bind, h]
  rfl

/-- A bracket that is found is halved, and the function asked at the ends of what is left. -/
theorem run_of_found {b b' : Bracket α} {doublings n : ℕ} {found s' : σ}
    (h : (expand past maxDoublings ⟨low, high⟩ 0).run first = ((some b, doublings), found))
    (h' : (bisect past precision (halvings b.low b.high precision) b 0).run found =
      ((b', n), s')) :
    (run low high precision past value).run s =
      let atLow := (value b'.low).run s'
      let atHigh := (value b'.high).run atLow.2
      (⟨secant b' atLow.1 atHigh.1, doublings, n⟩, atHigh.2) := by
  rw [run, StateT.run_bind, hfails]
  show StateT.run (expand past maxDoublings ⟨low, high⟩ 0 >>= _) first = _
  rw [StateT.run_bind, h]
  show StateT.run (bisect past precision (halvings b.low b.high precision) b 0 >>= _) found = _
  rw [StateT.run_bind, h']
  rfl

end Search

/-- A finished bracket is not halved. -/
theorem Halves.eq_nil {s s' : σ} {middles : List α} {b' : Bracket α}
    (h : Halves past precision b s middles b' s') (hfinished : b.Finished precision) :
    middles = [] := by
  cases h with
  | none => rfl
  | halve hmove => exact absurd hfinished hmove

/-! ## Middles -/

section Middles

variable [OrderedNumbers α] {s s' : σ} {middles : List α} {b' : Bracket α}

/-- **There are no more defined middles than numbers between the ends.** -/
theorem Halves.defined_le [Finite α] (hundefined : ∀ b : Bracket α,
    isNaN b.low = true ∨ isNaN b.high = true → b.Finished precision)
    (h : Halves past precision b s middles b' s') :
    (middles.filter fun x => !isNaN x).length ≤ b.between.ncard := by
  induction h with
  | none => exact Nat.zero_le _
  | @halve b b' s s' middles hmove rest ih =>
      have hlow : isNaN b.low = false := by
        by_contra hnot
        exact hmove (hundefined b (.inl (by simpa using hnot)))
      have hhigh : isNaN b.high = false := by
        by_contra hnot
        exact hmove (hundefined b (.inr (by simpa using hnot)))
      cases hmiddle : isNaN b.middle with
      | true =>
          rw [rest.eq_nil (hundefined _ (Bracket.undefined_answered hmiddle _)),
            List.filter_cons_of_neg (by simp [hmiddle])]
          exact Nat.zero_le _
      | false =>
          have hless := Set.ncard_lt_ncard
            (Bracket.between_answered hlow hhigh hmiddle hmove ((past b.middle).run s).1)
          rw [List.filter_cons_of_pos (by simp [hmiddle]), List.length_cons]
          omega

omit [OrderedNumbers α] in
/-- **A middle that is undefined is the last.** -/
theorem Halves.undefined_last (hundefined : ∀ b : Bracket α,
    isNaN b.low = true ∨ isNaN b.high = true → b.Finished precision)
    (h : Halves past precision b s middles b' s') :
    ∀ x ∈ middles.dropLast, isNaN x = false := by
  induction h with
  | none => exact fun x hx => absurd hx List.not_mem_nil
  | @halve b b' s s' middles hmove rest ih =>
      cases hmiddle : isNaN b.middle with
      | true =>
          rw [rest.eq_nil (hundefined _ (Bracket.undefined_answered hmiddle _))]
          exact fun x hx => absurd hx List.not_mem_nil
      | false =>
          cases middles with
          | nil => exact fun x hx => absurd hx List.not_mem_nil
          | cons y middles =>
              rw [List.dropLast_cons_of_ne_nil (List.cons_ne_nil y middles)]
              exact List.forall_mem_cons.mpr ⟨hmiddle, ih⟩

end Middles

end BracketSearch

end Loops

/-! ## The machine's numbers -/

namespace Binary64

open BracketSearch

/-- There are finitely many numbers: each is told by its bits. -/
instance finite_float : Finite Float := by
  refine Finite.of_injective (fun x : Float => x.toModel.toBits.toBitVec.toFin) ?_
  rintro ⟨⟨x, hx⟩⟩ ⟨⟨y, hy⟩⟩ h
  obtain rfl : x = y := UInt64.toBitVec_inj.mp (BitVec.toFin_inj.mp h)
  rfl

/-- The halvings the loop is given in advance are enough, whatever is answered. -/
theorem alwaysEndsWithin_halvings (b : Bracket Float) (precision : Float) :
    b.AlwaysEndsWithin precision (Scalar.halvings b.low b.high precision) := by
  by_cases hdefined : isNaN b.low = false ∧ isNaN b.high = false
  · exact alwaysEndsWithin_rank hdefined.1 hdefined.2 (Int.self_le_toNat _)
  · rw [not_and_or, Bool.not_eq_false, Bool.not_eq_false] at hdefined
    exact Bracket.alwaysEndsWithin_of_finished (finished_of_undefined hdefined) _

variable {σ : Type} {past : Float → StateM σ Bool} {precision : Float} {b b' : Bracket Float}
  {s s' : σ} {middles : List Float}

theorem defined_middles_le (h : Halves past precision b s middles b' s') :
    (middles.filter fun x => !isNaN x).length ≤
      {x : Float | less b.low x = true ∧ less x b.high = true}.ncard :=
  h.defined_le fun _ => finished_of_undefined

theorem undefined_middle_last (h : Halves past precision b s middles b' s') :
    ∀ x ∈ middles.dropLast, isNaN x = false :=
  h.undefined_last fun _ => finished_of_undefined

/-- **The search returns**, whatever the bounds, the precision and the condition, which may have
a state: there is no answer if the condition holds at the lower bound, or if no bracket is found;
else the bracket found is halved until it is finished.  No more of its middles are defined than
there are numbers strictly between its ends, and none but the last is undefined. -/
theorem search_returns {σ : Type} (low high precision : Float) (past : Float → StateM σ Bool)
    (value : Float → StateM σ Float) (s : σ) :
    let search := (run low high precision past value).run s
    let first := (past low).run s
    let found := (expand past maxDoublings ⟨low, high⟩ 0).run first.2
    first.1 = true ∧ search = (⟨nan, 0, 0⟩, first.2) ∨
    first.1 = false ∧ found.1.1 = none ∧ search = (⟨nan, found.1.2, 0⟩, found.2) ∨
    first.1 = false ∧ ∃ b, found.1.1 = some b ∧ ∃ middles b' s',
      Halves past precision b found.2 middles b' s' ∧ b'.Finished precision ∧
      (middles.filter fun x => !isNaN x).length ≤
        {x : Float | less b.low x = true ∧ less x b.high = true}.ncard ∧
      (∀ x ∈ middles.dropLast, isNaN x = false) ∧
      let atLow := (value b'.low).run s'
      let atHigh := (value b'.high).run atLow.2
      search = (⟨secant b' atLow.1 atHigh.1, found.1.2, middles.length⟩, atHigh.2) := by
  intro search first found
  have hfirst : (past low).run s = (first.1, first.2) := rfl
  have hfound : (expand past maxDoublings ⟨low, high⟩ 0).run first.2 =
      ((found.1.1, found.1.2), found.2) := rfl
  cases hholds : first.1 with
  | true => exact .inl ⟨rfl, run_of_holds hholds⟩
  | false =>
      rw [hholds] at hfirst
      cases hbracket : found.1.1 with
      | none =>
          rw [hbracket] at hfound
          exact .inr (.inl ⟨rfl, rfl, run_of_none hfirst hfound⟩)
      | some b =>
          rw [hbracket] at hfound
          obtain ⟨middles, b', s', hhalves, hfinished, hrun⟩ :=
            bisect_halves _ (alwaysEndsWithin_halvings b precision) 0 found.2
          rw [Nat.zero_add] at hrun
          exact .inr (.inr ⟨rfl, b, rfl, middles, b', s', hhalves, hfinished,
            defined_middles_le hhalves, undefined_middle_last hhalves,
            run_of_found hfirst hfound hrun⟩)

end Binary64

end FormulaGraph
