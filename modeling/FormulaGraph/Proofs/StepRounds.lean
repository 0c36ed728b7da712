import FormulaGraph.Descent.Search
import FormulaGraph.Proofs.Actions
import FormulaGraph.Proofs.Generations

/-!
# The rounds of a step

Once the criterion has answered, what a round does depends on the answer and on the values
of the variables alone: the step is refused, is not made, ends at a limit, or moves the
active variables (`Step.verdict`).  Nothing but the values is changed by it.

A step is its rounds one after the other (`Step.rounds_run`).  What holds of all steps,
whatever the criterion does to the session, is proved from this equation.
-/

namespace FormulaGraph

variable {α : Type} [Scalar α]

namespace Step

/-! ## One round -/

/-- What a round does once the criterion has answered. -/
inductive Verdict (α : Type) where
  /-- There is not one derivative for every variable. -/
  | refused
  /-- The criterion does not change along the direction. -/
  | level
  /-- The variable at the place would cross its limit and is put on it. -/
  | stopped (l : Limit α) (i : Nat)
  /-- The active variables move along the direction. -/
  | moved (coeff : α)

/-- How far the step reaches where the variables have the values `ρ`. -/
def reach (unknowns : List (Formula α)) (limits : List (Limit α)) (size : StepSize α)
    (active : List Bool) (c : Criterion α) (ρ : Valuation α) : Reach α :=
  let direction := direction c.derivatives active
  limits.foldl
    (fun r l => r.shorten unknowns direction active l (ρ l.bounded.id))
    ⟨StepSize.fall size c.value / Scalar.abs (slope c.derivatives direction active), none⟩

/-- What a round comes to, given what the criterion answers and the values of the variables. -/
def verdict (unknowns : List (Formula α)) (limits : List (Limit α)) (size : StepSize α)
    (active : List Bool) (c : Criterion α) (ρ : Valuation α) : Verdict α :=
  if c.derivatives.length != unknowns.length then .refused
  else if slope c.derivatives (direction c.derivatives active) active == 0 then .level
  else
    match (reach unknowns limits size active c ρ).stopped with
    | some (l, i) => .stopped l i
    | none => .moved (reach unknowns limits size active c ρ).coeff

section Verdicts

variable {unknowns : List (Formula α)} {limits : List (Limit α)} {size : StepSize α}
  {active : List Bool} {c : Criterion α} {ρ : Valuation α}

/-- What holds before any limit has been looked at, and passes from each limit to the next,
holds in the end. -/
theorem reach_induction {P : List (Limit α) → Reach α → Prop}
    (start : P [] ⟨StepSize.fall size c.value /
      Scalar.abs (slope c.derivatives (direction c.derivatives active) active), none⟩)
    (shorten : ∀ (seen : List (Limit α)) (r : Reach α) (l : Limit α),
      (∀ l' ∈ seen ++ [l], l' ∈ limits) → P seen r → P (seen ++ [l])
        (r.shorten unknowns (direction c.derivatives active) active l (ρ l.bounded.id))) :
    P limits (reach unknowns limits size active c ρ) := by
  have hfold : ∀ (rest seen : List (Limit α)) (r : Reach α), seen ++ rest = limits → P seen r →
      P limits (rest.foldl (fun r l =>
        r.shorten unknowns (direction c.derivatives active) active l (ρ l.bounded.id)) r) := by
    intro rest
    induction rest with
    | nil =>
        intro seen r hseen hr
        rw [← hseen, List.append_nil]
        exact hr
    | cons l rest ih =>
        intro seen r hseen hr
        refine ih (seen ++ [l]) _ (by simpa using hseen) (shorten seen r l ?_ hr)
        intro l' hl'
        rw [← hseen]
        exact List.append_subset.mpr ⟨by simp, by simp⟩ hl'
  exact hfold limits [] _ rfl start

/-- A round that is stopped had a slope, and met the limit on its way. -/
theorem stopped_of_verdict {l : Limit α} {i : Nat}
    (h : verdict unknowns limits size active c ρ = .stopped l i) :
    (slope c.derivatives (direction c.derivatives active) active == 0) = false ∧
      (reach unknowns limits size active c ρ).stopped = some (l, i) := by
  unfold verdict at h
  grind

/-- A round that moves had a slope, and met no limit. -/
theorem moved_of_verdict {coeff : α}
    (h : verdict unknowns limits size active c ρ = .moved coeff) :
    (slope c.derivatives (direction c.derivatives active) active == 0) = false ∧
      reach unknowns limits size active c ρ = ⟨coeff, none⟩ := by
  unfold verdict at h
  cases hreach : reach unknowns limits size active c ρ
  grind

end Verdicts

/-- Limits are applied one after another, and none of them changes the session. -/
theorem shortenAll_run (unknowns : List (Formula α)) (direction : List α) (active : List Bool)
    (reach : Reach α) (limits : List (Limit α)) (s : Session α) :
    (shortenAll unknowns direction active reach limits).run.run s =
      (.ok (limits.foldl (fun r l =>
        r.shorten unknowns direction active l (s.store.read l.bounded.id)) reach), s) := by
  induction limits generalizing reach with
  | nil => rfl
  | cons l limits ih =>
      rw [shortenAll, Action.run_bind_ok (l.bounded.get_run s), ih, List.foldl_cons]

/-- The values of the variables after the active ones have moved. -/
def movedValues (coeff : α) : List (Formula α) → List α → List Bool → Valuation α → Valuation α
  | e :: es, v :: vs, isActive :: active, ρ =>
    movedValues coeff es vs active (if isActive then ρ.set e.id (ρ e.id + v * coeff) else ρ)
  | _, _, _, ρ => ρ

end Step

/-- The store with other values in the variables. -/
structure Store.Revalued (s t : Store α) : Prop where
  generation : t.generation = s.generation
  slot : ∀ id, t.slot id = s.slot id

namespace Store.Revalued

variable {s t u : Store α}

/-- The values stay. -/
theorem refl (s : Store α) : s.Revalued s := ⟨rfl, fun _ => rfl⟩

/-- One revaluation after another is a revaluation. -/
theorem trans (h : s.Revalued t) (h' : t.Revalued u) : s.Revalued u :=
  ⟨h'.generation.trans h.generation, fun id => (h'.slot id).trans (h.slot id)⟩

/-- Writing a variable touches no slot and issues no generation. -/
theorem write (s : Store α) (v : NodeId) (x : α) : s.Revalued (s.write v x) :=
  ⟨rfl, fun _ => rfl⟩

/-- Generations stay issued. -/
theorem issued (h : s.Revalued t) (hs : s.Issued) : t.Issued := by
  intro id
  rw [h.slot, h.generation]
  exact hs id

end Store.Revalued

namespace Step

/-- Moving changes the variables alone, each as far as it goes. -/
theorem move_run (coeff : α) {unknowns : List (Formula α)}
    (hvars : ∀ e ∈ unknowns, e.isVariable = true) (direction : List α) (active : List Bool)
    (s : Session α) :
    ∃ store : Store α, (move coeff unknowns direction active).run.run s =
        (.ok ⟨⟩, { s with store }) ∧ s.store.Revalued store ∧
      store.read = movedValues coeff unknowns direction active s.store.read := by
  induction unknowns generalizing direction active s with
  | nil => exact ⟨s.store, rfl, .refl _, rfl⟩
  | cons e es ih =>
      have he := hvars e List.mem_cons_self
      have hes : ∀ e' ∈ es, e'.isVariable = true := fun e' h => hvars e' (List.mem_cons_of_mem e h)
      cases direction with
      | nil => exact ⟨s.store, rfl, .refl _, rfl⟩
      | cons v vs =>
          cases active with
          | nil => exact ⟨s.store, rfl, .refl _, rfl⟩
          | cons isActive active =>
              cases isActive with
              | false => exact ih hes vs active s
              | true =>
                  obtain ⟨store, hrun, hrevalued, hread⟩ := ih hes vs active
                    (s.write e.id (s.store.read e.id + v * coeff))
                  refine ⟨store, ?_, (Store.Revalued.write _ _ _).trans hrevalued, ?_⟩
                  · show (e.getValue >>= fun x => e.setValue (x + v * coeff) >>= fun _ =>
                      move coeff es vs active).run.run s = _
                    rw [Action.run_bind_ok (e.getValue_run he s),
                      Action.run_bind_ok (e.setValue_run he _ s), hrun]
                    rfl
                  · rw [hread, movedValues, if_pos rfl]
                    exact congrArg _ (Store.read_write _ _ _)

/-- A round asks the criterion, and then ends, moves, or freezes a variable and goes on. -/
theorem rounds_run (criterion : Nat → Action α (Criterion α)) {unknowns : List (Formula α)}
    (limits : List (Limit α)) (size : StepSize α) (activeCount : Nat) (active : List Bool)
    (round : Nat) (s : Session α) :
    (rounds criterion unknowns limits size activeCount active round).run.run s =
      match (criterion round).run.run s with
      | (.error fault, s) => (.error fault, s)
      | (.ok c, s) =>
        match verdict unknowns limits size active c s.store.read with
        | .refused => (.error .derivativeCount, s)
        | .level => (.ok ⟨false, round + 1⟩, s)
        | .stopped l i =>
          match activeCount with
          | left + 2 =>
            (rounds criterion unknowns limits size (left + 1) (active.set i false)
              (round + 1)).run.run (s.write l.bounded.id l.value)
          | _ => (.ok ⟨true, round + 1⟩, s.write l.bounded.id l.value)
        | .moved coeff =>
          (do
            move coeff unknowns (direction c.derivatives active) active
            return ⟨true, round + 1⟩ : Action α StepOutcome).run.run s := by
  rw [rounds.eq_def]
  cases hasked : (criterion round).run.run s with
  | mk answer s' =>
  cases answer with
  | error fault => exact Action.run_bind_error hasked
  | ok c =>
      rw [Action.run_bind_ok hasked]
      by_cases hlength : (c.derivatives.length != unknowns.length) = true
      · simp only [verdict, if_pos hlength]
        rfl
      by_cases hslope : (slope c.derivatives (direction c.derivatives active) active == 0) = true
      · simp only [verdict, if_neg hlength, if_pos hslope]
        rfl
      simp only [verdict, if_neg hlength, if_neg hslope]
      refine (Action.run_bind_ok (shortenAll_run unknowns _ active _ limits s')).trans ?_
      rw [reach]
      generalize limits.foldl _ _ = r
      obtain ⟨coeff, stopped⟩ := r
      cases stopped with
      | none => rfl
      | some stop =>
          cases activeCount with
          | zero => rfl
          | succ others => cases others <;> rfl

/-- What asking for the criterion keeps, putting a variable on a limit that stopped the step
keeps, and moving the active variables keeps, the whole step keeps, whatever it answers. -/
theorem rounds_keeps {criterion : Nat → Action α (Criterion α)} {unknowns : List (Formula α)}
    {limits : List (Limit α)} {size : StepSize α} {P : Session α → Prop}
    (hvars : ∀ e ∈ unknowns, e.isVariable = true)
    (hasked : ∀ n s, P s → P ((criterion n).run.run s).2)
    (hstopped : ∀ s active c l i, P s →
      verdict unknowns limits size active c s.store.read = .stopped l i →
      P (s.write l.bounded.id l.value))
    (hmoved : ∀ s active c coeff store, P s →
      verdict unknowns limits size active c s.store.read = .moved coeff →
      s.store.Revalued store →
      store.read =
        movedValues coeff unknowns (direction c.derivatives active) active s.store.read →
      P { s with store })
    (activeCount : Nat) (active : List Bool) (round : Nat) (s : Session α) (hs : P s) :
    P ((rounds criterion unknowns limits size activeCount active round).run.run s).2 := by
  induction activeCount using Nat.strongRecOn generalizing active round s with
  | ind activeCount ih =>
      have hc := hasked round s hs
      rw [rounds_run]
      cases hanswer : (criterion round).run.run s with
      | mk answer s' =>
      rw [hanswer] at hc
      cases answer with
      | error fault => exact hc
      | ok c =>
          cases hverdict : verdict unknowns limits size active c s'.store.read with
          | refused => simpa only [hverdict] using hc
          | level => simpa only [hverdict] using hc
          | stopped l i =>
              have hwritten := hstopped s' active c l i hc hverdict
              simp only [hverdict]
              cases activeCount with
              | zero => exact hwritten
              | succ others =>
                  cases others with
                  | zero => exact hwritten
                  | succ left => exact ih (left + 1) (Nat.lt_succ_self _) _ _ _ hwritten
          | moved coeff =>
              obtain ⟨store, hrun, hrevalued, hread⟩ :=
                move_run coeff hvars (direction c.derivatives active) active s'
              simp only [hverdict]
              rw [Action.run_bind_ok hrun]
              exact hmoved s' active c coeff store hc hverdict hrevalued hread

end Step

end FormulaGraph
