import FormulaGraph.Proofs.Actions
import FormulaGraph.Proofs.Spelling
import FormulaGraph.Proofs.WholeNumbers

/-!
# Where labels show

A label shows on the nodes that occur at least as many levels below the root as asked for, and it
shows in the place of all that is below the node.  What is rendered is therefore the plain text
of another formula: the one that is cut off at the labelled nodes, with a variable of the label's
name in the place of each (`pruned`).  That the labels of other nodes do not count, and that no
label counts at a depth the formula does not reach, are statements about where it is cut.

A node may occur several times, at different levels.  It is cut off at the places that are deep
enough and nowhere else, so a label counts as soon as one occurrence is deep enough
(`OccursAt`).
-/

namespace FormulaGraph

/-- The formulas whose text is part of the text of a node: its children, and the variable a
solver binds. -/
def Shape.shown {α : Type} : Shape α (Formula α) → List (Formula α)
  | .solver s => s.bound.formula :: s.children
  | shape => shape.children

/-- What is shown of a node is among what it refers to. -/
theorem Shape.mem_refs_of_mem_shown {α : Type} {shape : Shape α (Formula α)} {c : Formula α}
    (hc : c ∈ shape.shown) : c ∈ shape.refs := by
  cases shape with
  | solver s => exact List.mem_append_left _ hc
  | _ => exact Shape.mem_refs_of_mem_children hc

/-- Variables are told apart by number and name. -/
theorem Variable.formula_inj {α : Type} {v w : Variable} :
    (v.formula : Formula α) = w.formula ↔ v = w := by
  obtain ⟨i, n⟩ := v
  obtain ⟨j, m⟩ := w
  simp [Variable.formula]

/-- The variable as it is shown: by its label, from `depth` levels down. -/
def Variable.relabelled (labels : Labels) (depth : Nat) (v : Variable) : Variable :=
  ⟨v.id, if depth = 0 then (labels v.id).getD v.name else v.name⟩

namespace Formula

variable {α : Type}

/-! ## Cutting off at labels -/

mutual

/-- The formula, cut off at the nodes with a label that are `depth` or more levels down: a
variable of the label's name stands for each of them. -/
def pruned (labels : Labels) (depth : Nat) : Formula α → Formula α
  | e@(node id shape) =>
    match labelAt labels depth e with
    | some label => node id (.var label)
    | none =>
      let below := depth - 1
      match shape with
      | .const v => node id (.const v)
      | .var name => node id (.var name)
      | .unary op a => node id (.unary op (pruned labels below a))
      | .binary op a b => node id (.binary op (pruned labels below a) (pruned labels below b))
      | .assoc op args => node id (.assoc op (prunedAll labels below args))
      | .conditional op c a b =>
        node id (.conditional op (pruned labels below c) (pruned labels below a)
          (pruned labels below b))
      | .tabulated mark t a => node id (.tabulated mark t (pruned labels below a))
      | .solver ⟨body, bound, low, high, precision, guard⟩ =>
        node id (.solver ⟨pruned labels below body, bound.relabelled labels below,
          pruned labels below low, pruned labels below high, pruned labels below precision, guard⟩)

/-- `pruned` for each formula of a list. -/
def prunedAll (labels : Labels) (depth : Nat) : List (Formula α) → List (Formula α)
  | [] => []
  | e :: es => pruned labels depth e :: prunedAll labels depth es

end

/-- Several formulas are pruned one by one. -/
theorem prunedAll_eq_map (labels : Labels) (depth : Nat) (es : List (Formula α)) :
    prunedAll labels depth es = es.map (pruned labels depth) := by
  induction es with
  | nil => rfl
  | cons e es ih => rw [prunedAll, ih, List.map_cons]

/-! ## Occurrences -/

/-- The node `id` occurs `level` levels below the formula.  The variable a solver binds is one
level below it. -/
inductive OccursAt (id : NodeId) : Nat → Formula α → Prop
  | here {e : Formula α} (h : e.id = id) : OccursAt id 0 e
  | part {e c : Formula α} {level : Nat} (hc : c ∈ e.shape.shown) (h : OccursAt id level c) :
      OccursAt id (level + 1) e

mutual

/-- The number of levels below the formula. -/
def height : Formula α → Nat
  | node _ (.const _) | node _ (.var _) => 0
  | node _ (.unary _ a) => height a + 1
  | node _ (.binary _ a b) => max (height a) (height b) + 1
  | node _ (.assoc _ args) => levels args
  | node _ (.conditional _ c a b) => max (height c) (max (height a) (height b)) + 1
  | node _ (.tabulated _ _ a) => height a + 1
  | node _ (.solver ⟨body, _, low, high, precision, _⟩) =>
    max (height body) (max (height low) (max (height high) (height precision))) + 1

/-- The number of levels below a node over these formulas. -/
def levels : List (Formula α) → Nat
  | [] => 0
  | e :: es => max (height e + 1) (levels es)

end

/-- Among several formulas each is lower than all levels together. -/
theorem height_lt_levels {es : List (Formula α)} {e : Formula α} (he : e ∈ es) :
    e.height < levels es := by
  induction es with
  | nil => cases he
  | cons a as ih =>
      rw [levels]
      rcases List.mem_cons.mp he with rfl | he
      · exact Nat.lt_of_succ_le (le_max_left _ _)
      · exact lt_of_lt_of_le (ih he) (le_max_right _ _)

/-- What is shown in a node is less high. -/
theorem height_lt (id : NodeId) (shape : Shape α (Formula α)) :
    ∀ c ∈ shape.shown, c.height < (node id shape).height := by
  cases shape with
  | assoc op args =>
      intro c hc
      rw [height]
      exact height_lt_levels hc
  | solver s =>
      obtain ⟨body, bound, low, high, precision, guard⟩ := s
      have hbound : height (bound.formula : Formula α) = 0 := rfl
      simp [Shape.shown, Solver.children, height, hbound]
  | _ =>
      simp [Shape.shown, Shape.children, height]

section Pruning

variable {labels labels' : Labels} {depth : Nat} {e : Formula α}

/-- Nothing occurs below the height of the formula. -/
theorem OccursAt.level_le_height {id : NodeId} {level : Nat} (h : e.OccursAt id level) :
    level ≤ e.height := by
  induction h with
  | here => exact Nat.zero_le _
  | @part e c level hc _ ih =>
      obtain ⟨id, shape⟩ := e
      exact lt_of_le_of_lt ih (height_lt id shape c hc)

/-- Only the variable itself occurs in a variable. -/
theorem OccursAt.eq_of_var {id i : NodeId} {name : String} {level : Nat}
    (h : OccursAt id level (node i (.var name) : Formula α)) : id = i := by
  cases h with
  | here h => exact h.symm
  | part hc _ => cases hc

/-- A variable is pruned to its label. -/
theorem pruned_formula (labels : Labels) (depth : Nat) (v : Variable) :
    (v.formula : Formula α).pruned labels depth = (v.relabelled labels depth).formula := by
  rw [Variable.formula, pruned, labelAt, id_node, Variable.relabelled, Variable.formula]
  by_cases hdepth : depth = 0
  · cases labels v.id <;> simp [hdepth]
  · simp [hdepth]

/-- A bound variable is shown by its label, or by its name. -/
theorem name_relabelled (labels : Labels) (depth : Nat) (v : Variable) :
    (v.relabelled labels depth).name =
      (labelAt labels depth (v.formula : Formula α)).getD v.name := by
  rw [Variable.relabelled, labelAt, Variable.formula, id_node]
  split <;> rfl

/-- A formula is cut off alike if the labels agree wherever they count. -/
theorem pruned_congr (h : ∀ level ≥ depth, ∀ id, e.OccursAt id level → labels id = labels' id) :
    e.pruned labels depth = e.pruned labels' depth := by
  induction e using inductionOnRefs generalizing depth with
  | h id shape ih =>
      have hlabel :
          labelAt labels depth (node id shape) = labelAt labels' depth (node id shape) := by
        rw [labelAt, labelAt]
        by_cases hdepth : depth = 0
        · rw [if_pos hdepth, if_pos hdepth]
          exact h 0 hdepth.le id (.here rfl)
        · rw [if_neg hdepth, if_neg hdepth]
      have hparts : ∀ c ∈ shape.shown,
          c.pruned labels (depth - 1) = c.pruned labels' (depth - 1) := by
        intro c hc
        refine ih c (Shape.mem_refs_of_mem_shown hc) fun level hlevel id' hoccurs => ?_
        exact h (level + 1) (by omega) id' (.part hc hoccurs)
      cases shape with
      | solver s =>
          obtain ⟨body, bound, low, high, precision, guard⟩ := s
          simp_all [pruned, Shape.shown, Solver.children, pruned_formula, Variable.formula_inj]
      | assoc op args =>
          have hargs :
              args.map (pruned labels (depth - 1)) = args.map (pruned labels' (depth - 1)) :=
            List.map_congr_left hparts
          simp only [pruned, prunedAll_eq_map, hlabel, hargs]
      | _ => simp_all [pruned, Shape.shown, Shape.children]

end Pruning

section Text

variable [Scalar α] [ScalarText α] {labels : Labels}

omit [ScalarText α] in
/-- Pruning keeps the priority, so parentheses stay. -/
theorem priority_pruned {depth : Nat} {e : Formula α} (h : labelAt labels depth e = none) :
    (e.pruned labels depth).priority = e.priority := by
  obtain ⟨id, shape⟩ := e
  cases shape <;> simp only [pruned, h] <;> rfl

omit [ScalarText α] in
/-- In its place, a part is enclosed as the cut off part is.  A label stands without
parentheses, as a variable does. -/
theorem enclose_pruned (labels : Labels) (depth depth' : Nat) {place : Priority}
    (hplace : place ≠ .single) (e : Formula α) (t : String) :
    enclose labels depth place e t =
      enclose (fun _ => none) depth' place (e.pruned labels depth) t := by
  rw [enclose_none, enclose]
  cases hlabel : labelAt labels depth e with
  | none => rw [priority_pruned hlabel]
  | some label =>
      have hvar : (e.pruned labels depth).priority = .single := by
        obtain ⟨id, shape⟩ := e
        simp only [pruned, hlabel]
        rfl
      have hbare : place.encloses .single = false := by
        cases place <;> first | rfl | exact absurd rfl hplace
      simp [hvar, hbare]

attribute [local simp] text labelAt_none

/-- **What is rendered is the plain text of the formula cut off at the labels.** -/
theorem text_pruned (marked : Bool) (depth depth' : Nat) (e : Formula α) :
    e.text labels marked depth = (e.pruned labels depth).text (fun _ => none) marked depth' := by
  induction e using inductionOnRefs generalizing depth depth' with
  | h id shape ih =>
      have hchildren : ∀ c ∈ shape.children, c.text labels marked (depth - 1) =
          (c.pruned labels (depth - 1)).text (fun _ => none) marked (depth' - 1) :=
        fun c hc => ih c (Shape.mem_refs_of_mem_children hc) _ _
      have henclose : ∀ {place : Priority}, place ≠ .single → ∀ (c : Formula α) (t : String),
          enclose labels (depth - 1) place c t =
            enclose (fun _ => none) (depth' - 1) place (c.pruned labels (depth - 1)) t :=
        fun hplace => enclose_pruned labels (depth - 1) (depth' - 1) hplace
      cases hlabel : labelAt labels depth (node id shape) with
      | some label => simp [pruned, hlabel]
      | none =>
          cases shape with
          | unary op a => cases op <;> simp_all [pruned, Shape.children]
          | binary op a b => cases op <;> simp_all [pruned, Shape.children]
          | assoc op args =>
              simp only [Shape.children] at hchildren
              have htexts : args.map (text labels marked (depth - 1)) =
                  (args.map (pruned labels (depth - 1))).map
                    (text (fun _ => none) marked (depth' - 1)) := by
                rw [List.map_map]
                exact List.map_congr_left hchildren
              have henclosed : ∀ place : Priority, place ≠ .single →
                  args.map (fun c => enclose labels (depth - 1) place c
                    (text labels marked (depth - 1) c)) =
                  (args.map (pruned labels (depth - 1))).map fun c =>
                    enclose (fun _ => none) (depth' - 1) place c
                      (text (fun _ => none) marked (depth' - 1) c) := by
                intro place hplace
                rw [List.map_map]
                refine List.map_congr_left fun c hc => ?_
                rw [henclose hplace, hchildren c hc, Function.comp_apply]
              cases op with
              | hypot =>
                  simp only [pruned, hlabel, text, labelAt_none, texts_eq_map, prunedAll_eq_map,
                    htexts]
              | add =>
                  simp only [pruned, hlabel, text, labelAt_none, texts_eq_map, prunedAll_eq_map,
                    encloseAll_map, henclosed .add (by decide)]
              | multiply =>
                  simp only [pruned, hlabel, text, labelAt_none, texts_eq_map, prunedAll_eq_map,
                    encloseAll_map, henclosed .multiply (by decide)]
          | solver s =>
              obtain ⟨body, bound, low, high, precision, guard⟩ := s
              simp only [Shape.children, Solver.children, List.forall_mem_cons] at hchildren
              obtain ⟨hbody, hlow, hhigh, hprecision, -⟩ := hchildren
              have hname : (bound.relabelled labels (depth - 1)).name =
                  (labelAt labels (depth - 1) (bound.formula : Formula α)).getD bound.name :=
                name_relabelled labels (depth - 1) bound
              cases hbound : labelAt labels (depth - 1) (bound.formula : Formula α) <;>
                simp only [pruned, hlabel, text, labelAt_none, hbody, hlow, hhigh, hprecision,
                  hname, hbound, Option.getD]
          | _ => simp_all [pruned, Shape.children]

/-- Formulas are rendered alike if the labels agree wherever they count. -/
theorem text_congr {labels' : Labels} (marked : Bool) {depth : Nat} {e : Formula α}
    (h : ∀ level ≥ depth, ∀ id, e.OccursAt id level → labels id = labels' id) :
    e.text labels marked depth = e.text labels' marked depth := by
  rw [text_pruned marked depth 0 e, text_pruned marked depth 0 e, pruned_congr h]

end Text

/-! ## Giving labels -/

/-- Labels are given and taken away without fail, and the shared zero and one stay as they are. -/
theorem setLabels_run (calls : List (Formula α × Option String)) (s : Session α) :
    ∃ s', (calls.forM fun call => call.1.setLabel call.2).run.run s = (.ok (), s') ∧
      ∀ id < firstFree, s'.labelling id = s.labelling id := by
  induction calls generalizing s with
  | nil => exact ⟨s, rfl, fun _ _ => rfl⟩
  | cons call calls ih =>
      obtain ⟨s', hruns, hkept⟩ := ih (s.relabelled call.1 call.2)
      refine ⟨s', ?_, fun id hid => (hkept id hid).trans ?_⟩
      · have hsteps : ((call :: calls).forM fun call => call.1.setLabel call.2 : Action α Unit) =
            (do call.1.setLabel call.2; calls.forM fun call => call.1.setLabel call.2) := rfl
        rw [hsteps, Action.run_bind_ok (setLabel_run call.1 call.2 s)]
        exact hruns
      · rw [Session.labelling_relabelled, if_neg fun h => Nat.not_lt.mpr h.2 hid]

/-! ## The theorem -/

/-- **Labels show from the chosen depth on and nowhere else.**  Labellings that agree on the nodes
that occur deep enough are rendered alike; at full depth any labelling is rendered as none is, by
`display` and by `signature`; and what is rendered is the plain text of the formula in which a
variable of the label's name stands for every labelled node met deep enough, and so shows without
parentheses and with nothing below it.  The shared zero and one are never given a label. -/
theorem labels_show_below :
    (∀ (α : Type) [Scalar α] [ScalarText α] (e : Formula α) (depth : Nat)
      (labels labels' : Labels),
      (∀ level ≥ depth, ∀ id, e.OccursAt id level → labels id = labels' id) →
      e.render labels depth = e.render labels' depth) ∧
    (∀ (α : Type) [Scalar α] [ScalarText α] (e : Formula α) (labels : Labels),
      e.height < fullDepth →
      e.render labels fullDepth = e.display ∧ e.text labels true fullDepth = e.signature) ∧
    (∀ (α : Type) [Scalar α] [ScalarText α] (e : Formula α) (depth : Nat) (labels : Labels),
      e.render labels depth = (e.pruned labels depth).display) ∧
    ∀ (α : Type) [Scalar α] (calls : List (Formula α × Option String)) (s : Session α),
      s.labelling (zero : Formula α).id = none → s.labelling (one : Formula α).id = none →
      ∃ s', (calls.forM fun call => call.1.setLabel call.2).run.run s = (.ok (), s') ∧
        s'.labelling (zero : Formula α).id = none ∧ s'.labelling (one : Formula α).id = none := by
  refine ⟨?_, ?_, ?_, ?_⟩
  · intro α _ _ e depth labels labels' hagree
    exact text_congr false hagree
  · intro α _ _ e labels hheight
    have hfull : ∀ marked, e.text labels marked fullDepth =
        e.text (fun _ => none) marked fullDepth := by
      intro marked
      refine text_congr marked fun level hlevel id hoccurs => ?_
      have hlow := hoccurs.level_le_height
      omega
    exact ⟨hfull false, hfull true⟩
  · intro α _ _ e depth labels
    exact text_pruned false depth fullDepth e
  · intro α _ calls s hzero hone
    obtain ⟨s', hrun, hkept⟩ := setLabels_run calls s
    have hshared : (zero : Formula α).id < firstFree ∧ (one : Formula α).id < firstFree :=
      ⟨Nat.zero_lt_two, Nat.one_lt_two⟩
    exact ⟨s', hrun, (hkept _ hshared.1).trans hzero, (hkept _ hshared.2).trans hone⟩

/-- The sine of a sum, both labelled.  One level down, the label of the sine does not count. -/
theorem labels_show_below_of_sine :
    let s : Formula Int := node 4 (.assoc .add [node 2 (.var "x"), node 3 (.var "y")])
    let f : Formula Int := node 5 (.unary .sin s)
    let labels : Labels := fun id => [none, none, none, none, some "s", some "f"].getD id none
    let labels' : Labels := fun id => [none, none, none, none, some "s", none].getD id none
    f.render labels 1 = f.render labels' 1 ∧
      (f.render labels fullDepth = f.display ∧ f.text labels true fullDepth = f.signature) ∧
      f.render labels 1 = (f.pruned labels 1).display ∧
      ∃ after, ([(s, some "s"), (zero, some "z")].forM fun call =>
          call.1.setLabel call.2).run.run Session.start = (.ok (), after) ∧
        after.labelling (zero : Formula Int).id = none ∧
        after.labelling (one : Formula Int).id = none := by
  intro s f labels labels'
  refine ⟨labels_show_below.1 Int f 1 labels labels' ?_,
    labels_show_below.2.1 Int f labels (by decide), labels_show_below.2.2.1 Int f 1 labels,
    labels_show_below.2.2.2 Int _ Session.start (by simp [Session.labelling, Session.start])
      (by simp [Session.labelling, Session.start])⟩
  intro level hlevel id hoccurs
  cases hoccurs with
  | here => cases hlevel
  | part hc hoccurs =>
      obtain rfl := List.mem_singleton.mp hc
      cases hoccurs with
      | here h =>
          subst h
          rfl
      | part hc hoccurs =>
          obtain rfl | rfl : _ = node 2 (.var "x") ∨ _ = node 3 (.var "y") := by
            simpa [s, Shape.shown, Shape.children] using hc
          all_goals
            rw [hoccurs.eq_of_var]
            rfl

example :
    let s : Formula Int := node 4 (.assoc .add [node 2 (.var "x"), node 3 (.var "y")])
    let f : Formula Int := node 5 (.unary .sin s)
    let labels : Labels := fun id => [none, none, none, none, some "s", some "f"].getD id none
    f.display = "sin(x + y)" ∧ f.render labels 1 = "sin(s)" ∧ f.render labels 0 = "f" := by
  decide

end Formula

end FormulaGraph
