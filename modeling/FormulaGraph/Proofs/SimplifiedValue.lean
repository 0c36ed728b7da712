import FormulaGraph.Proofs.LexicalScope
import FormulaGraph.Proofs.Passes
import FormulaGraph.Proofs.RuleSoundness

/-!
# Simplifying keeps the value

The pass that simplifies a graph replaces every node by one that means the same,
wherever that node is defined.  The relation between a node and its image
(`SimplifiesTo`) speaks of both ends of a conditional: the image of a branch that
is not selected is still a node of the graph, only its value is not promised.

The main theorem reads both sides off evaluation, from any store that evaluation
can leave behind.
-/

namespace FormulaGraph

namespace Formula

open PartialReal

/-! ## The image means the same -/

/-- What the first formula means, where it is defined, the second means as well. -/
def Simulates (ρ : Valuation PartialReal) (e d : Formula PartialReal) : Prop :=
  e.Defined ρ → d.Means ρ (value ρ e)

/-- A solver-free formula of the graph that means the same. -/
structure SimplifiesTo (ρ : Valuation PartialReal) (e : Formula PartialReal)
    (L : Ledger PartialReal) (d : Formula PartialReal) : Prop where
  member : d.Member SolverFree L
  simulates : Simulates ρ e d

variable {ρ : Valuation PartialReal} {L : Ledger PartialReal}

theorem simplifiesTo_lasting (e : Formula PartialReal) : Lasting (SimplifiesTo ρ e) :=
  fun _ _ _ hL h => ⟨h.member.mono hL, h.simulates⟩

section Rebuilding

variable {σ : Valuation PartialReal}

/-- The second formula is defined at `ρ` and has the value there that the first has at
`σ`. -/
def Matches (σ ρ : Valuation PartialReal) (c d : Formula PartialReal) : Prop :=
  d.Defined ρ ∧ value ρ d = value σ c

theorem values_of_matches {es ds : List (Formula PartialReal)}
    (h : List.Forall₂ (Matches σ ρ) es ds) :
    (∀ d ∈ ds, d.Defined ρ) ∧ values ρ ds = values σ es := by
  induction h with
  | nil => exact ⟨by simp, rfl⟩
  | cons hhead _ ih =>
      exact ⟨by simpa using ⟨hhead.1, ih.1⟩, by rw [values, values, hhead.2, ih.2]⟩

/-- Over children that match those it needs, the node as it stands needs what is defined
and has the value it had. -/
theorem withChildren_means (id : NodeId) {shape shape' : Shape PartialReal (Formula PartialReal)}
    {ds : List (Formula PartialReal)} (hfree : ∀ s, shape ≠ .solver s)
    (hds : List.Forall₂ (fun c d => c ∈ neededInPass σ shape → Matches σ ρ c d)
      shape.children ds)
    (h : shape.withChildren? ds = some shape') :
    (∀ name, shape' ≠ .var name) ∧ (∀ c ∈ neededInPass ρ shape', c.Defined ρ) ∧
      value ρ (node 0 shape') = value σ (node id shape) := by
  cases shape with
  | unary op a =>
      rcases hds with _ | ⟨ha, _ | _⟩
      cases h
      obtain ⟨hda, hva⟩ := ha (by simp [neededInPass, needed, Shape.children])
      exact ⟨by simp, by simpa [neededInPass, needed, Shape.children] using hda,
        by rw [value, value, hva]⟩
  | binary op a b =>
      rcases hds with _ | ⟨ha, _ | ⟨hb, _ | _⟩⟩
      cases h
      obtain ⟨hda, hva⟩ := ha (by simp [neededInPass, needed, Shape.children])
      obtain ⟨hdb, hvb⟩ := hb (by simp [neededInPass, needed, Shape.children])
      exact ⟨by simp, by simpa [neededInPass, needed, Shape.children] using ⟨hda, hdb⟩,
        by rw [value, value, hva, hvb]⟩
  | assoc op args =>
      cases h
      have hall := (List.forall₂_and_left (p := (· ∈ args)) args ds).mpr ⟨fun _ h => h, hds⟩
      obtain ⟨hdefined, hvalues⟩ := values_of_matches (hall.imp fun _ _ h => h.2 h.1)
      exact ⟨by simp, hdefined, by rw [value, value, hvalues]⟩
  | conditional op c a b =>
      rcases hds with _ | ⟨hc, _ | ⟨ha, _ | ⟨hb, _ | _⟩⟩⟩
      cases h
      obtain ⟨hdc, hvc⟩ := hc (by simp [neededInPass, needed])
      by_cases hselect : op.selectsFirst (value σ c)
      · obtain ⟨hda, hva⟩ := ha (by simp [neededInPass, needed, hselect])
        exact ⟨by simp, by simpa [neededInPass, needed, hvc, hselect] using ⟨hdc, hda⟩,
          by rw [value, value, hvc, if_pos hselect, if_pos hselect, hva]⟩
      · obtain ⟨hdb, hvb⟩ := hb (by simp [neededInPass, needed, hselect])
        exact ⟨by simp, by simpa [neededInPass, needed, hvc, hselect] using ⟨hdc, hdb⟩,
          by rw [value, value, hvc, if_neg hselect, if_neg hselect, hvb]⟩
  | tabulated mark t a =>
      rcases hds with _ | ⟨ha, _ | _⟩
      cases h
      obtain ⟨hda, hva⟩ := ha (by simp [neededInPass, needed, Shape.children])
      exact ⟨by simp, by simpa [neededInPass, needed, Shape.children] using hda,
        by rw [value, value, hva]⟩
  | const v => cases h
  | var name => cases h
  | solver s => exact absurd rfl (hfree s)

end Rebuilding

/-- The image of a formula that is defined matches it. -/
theorem Simulates.matches {c d : Formula PartialReal} (h : Simulates ρ c d)
    (hc : c.Defined ρ) : Matches ρ ρ c d :=
  ⟨(h hc).defined hc.here, (h hc).value_eq⟩

theorem rebuild_means {e : Formula PartialReal} {ds : List (Formula PartialReal)}
    (hfree : ∀ s, e.shape ≠ .solver s) (he : e.Defined ρ)
    (hds : List.Forall₂ (Simulates ρ) e.children ds) :
    Yields (rebuild e ds) (Means ρ (value ρ e)) := by
  obtain ⟨id, shape⟩ := e
  simp only [rebuild, shape_node]
  cases hshape : shape.withChildren? ds with
  | none => exact .pure he.means
  | some shape' =>
      obtain ⟨hvar, hneeded, hvalue⟩ := withChildren_means id hfree
        (hds.imp fun _ _ h hc => h.matches (he.needed hc)) hshape
      have hmeans := ofShape_means hvar hneeded
      rwa [hvalue] at hmeans

/-- The rule for the node as it stands. -/
theorem rootRule_builds {e : Formula PartialReal}
    (he : e.Member SolverFree L) :
    Builds ((rootRule e.shape).getD (pure e)) L (SimplifiesTo ρ e) := by
  cases hrule : rootRule e.shape with
  | none => exact .pure ⟨he, fun hdefined => hdefined.means⟩
  | some r =>
      have hr : ofShape e.shape = r := by rw [ofShape, hrule, Option.getD_some]
      have hvar : ∀ name, e.shape ≠ .var name := by
        intro name hname
        rw [hname] at hrule
        cases hrule
      have hvalue : value ρ (node 0 e.shape) = value ρ e := by
        obtain ⟨id, shape⟩ := e
        exact value_node hvar ρ 0 id
      rw [Option.getD_some, ← hr]
      have hnew := new_builds (A := SolverFree)
        (fun _ => .node he.holds.here fun c hc => he.holds.child hc) fun r hr => he.known.ref hr
      have hbuilds := ofShape_builds solverFree_admitsRebuilding.toAdmitsOperations
        (fun c hc => he.child hc) hnew
      have hmeans : Yields (ofShape e.shape) (Simulates ρ e) := by
        intro n hdefined
        rw [← hvalue]
        exact ofShape_means hvar (fun c hc => hdefined.needed hc) n
      exact (hbuilds.and_yields hmeans).mono fun _ _ _ h => ⟨h.1, h.2⟩

/-- The step of the pass: the rule for a node over children that stayed as they
are, or the node rebuilt over other children. -/
theorem simplifyOver_builds {e : Formula PartialReal} {ds : List (Formula PartialReal)}
    (he : e.Member SolverFree L)
    (hds : List.Forall₂ (fun e d => SimplifiesTo ρ e L d) e.children ds) :
    Builds (simplifyOver e ds) L (SimplifiesTo ρ e) := by
  have hmember : ∀ d ∈ ds, d.Member SolverFree L :=
    forall_of_forall₂ hds fun _ _ h => h.member
  rw [simplifyOver]
  split
  · exact rootRule_builds he
  · have hmeans : Yields (rebuild e ds) (Simulates ρ e) := fun n hdefined =>
      rebuild_means he.holds.here hdefined (hds.imp fun _ _ h => h.simulates) n
    exact ((rebuild_builds solverFree_admitsRebuilding he hmember).and_yields hmeans).mono
      fun _ _ _ h => ⟨h.1, h.2⟩

/-- The simplified formula is one of the graph that means the same. -/
theorem simplify_builds (ρ : Valuation PartialReal) {e : Formula PartialReal}
    (he : e.Member SolverFree L) :
    Builds (simplify e) L (SimplifiesTo ρ e) := by
  have hpass : Carries (Images.Sound (SimplifiesTo ρ)) (simplifyNode e) L (SimplifiesTo ρ e) :=
    simplifyNode_carries Member.lasting (fun h => h.known)
      (fun h hc => ⟨h.known.child hc, h.holds.child hc⟩) simplifiesTo_lasting
      (fun he _ => ⟨he, fun hdefined => hdefined.means⟩) (fun he _ => simplifyOver_builds he) e he
  exact hpass.answer

/-! ## Evaluation -/

/-- No node within the formula evaluates to the undefined value. -/
def EvaluatesThroughout (s : Store PartialReal) (e : Formula PartialReal) : Prop :=
  ∀ d : Formula PartialReal, d.Within e → (d.evaluate.run s).1 ≠ undefined

variable {s : Store PartialReal}

/-- A node is defined throughout if it is defined and its children are throughout. -/
theorem EvaluatesThroughout.node {id : NodeId} {shape : Shape PartialReal (Formula PartialReal)}
    (here : ((Formula.node id shape).evaluate.run s).1 ≠ undefined)
    (children : ∀ c ∈ shape.children, c.EvaluatesThroughout s) :
    (Formula.node id shape).EvaluatesThroughout s :=
  forall_within_node.mpr ⟨here, children⟩

/-- The nodes within a scoped formula evaluate to their values, for they are scoped as well. -/
theorem Scoped.evaluatesThroughout_iff {S : Set NodeId} {D : Directory PartialReal}
    {e : Formula PartialReal} (hscoped : e.Scoped S) (hlisted : e.ListedIn D)
    (hs : s.Reachable) :
    e.EvaluatesThroughout s ↔ ∀ d : Formula PartialReal, d.Within e →
      value s.read d ≠ undefined := by
  refine forall₂_congr fun d hd => ?_
  obtain ⟨T, hT⟩ := hscoped.consulted hd.consulted
  rw [evaluate_scoped hT (hlisted.within hd) hs fun _ _ => rfl]

/-- A scoped formula is defined where none of its nodes evaluates to the undefined value. -/
theorem EvaluatesThroughout.defined_of_scoped {S : Set NodeId} {D : Directory PartialReal}
    {e : Formula PartialReal} (hs : s.Reachable) (hscoped : e.Scoped S) (hlisted : e.ListedIn D)
    (h : e.EvaluatesThroughout s) : e.Defined s.read :=
  defined_of_within ((hscoped.evaluatesThroughout_iff hlisted hs).mp h)

theorem scoped_univ {e : Formula PartialReal} (hfree : e.SolverFree) : e.Scoped Set.univ :=
  scoped_of_solverFree hfree fun v _ => Set.mem_univ v

theorem EvaluatesThroughout.defined {e : Formula PartialReal} (hs : s.Reachable)
    (hfree : e.SolverFree) (he : e.KnownTo L) (h : e.EvaluatesThroughout s) :
    e.Defined s.read :=
  h.defined_of_scoped hs (scoped_univ hfree) he.listed

theorem evaluatesThroughout_of_value {e : Formula PartialReal} (hs : s.Reachable)
    (hfree : e.SolverFree) (he : e.KnownTo L)
    (h : ∀ d : Formula PartialReal, d.Within e → value s.read d ≠ undefined) :
    e.EvaluatesThroughout s :=
  ((scoped_univ hfree).evaluatesThroughout_iff he.listed hs).mpr h

theorem evaluate_simplify (hs : s.Reachable) {e : Formula PartialReal} (he : e.KnownTo L)
    (hfree : e.SolverFree) (hdefined : e.EvaluatesThroughout s) :
    ((e.simplify.run L.next).1.evaluate.run s).1 = (e.evaluate.run s).1 := by
  obtain ⟨L', _, _, hresult⟩ := simplify_builds s.read ⟨he, hfree⟩
  have hmeans := hresult.simulates (hdefined.defined hs hfree he)
  rw [evaluate_run hresult.member.holds hresult.member.known.listed hs,
    evaluate_run hfree he.listed hs, hmeans.value_eq]

theorem evaluate_ofShape (hs : s.Reachable) {shape : Shape PartialReal (Formula PartialReal)}
    (hrefs : ∀ r ∈ shape.refs, r.KnownTo L)
    (hchildren : ∀ c ∈ shape.children, c.SolverFree ∧ c.EvaluatesThroughout s) :
    (((ofShape shape).run L.next).1.evaluate.run s).1 =
      (((new shape).run L.next).1.evaluate.run s).1 := by
  by_cases hstands : ofShape shape = new shape
  · rw [hstands]
  · have hfree : ∀ s, shape ≠ .solver s := by
      intro _ heq
      obtain rfl := heq
      exact hstands rfl
    have hvar : ∀ name, shape ≠ .var name := by
      intro _ heq
      obtain rfl := heq
      exact hstands rfl
    have hknown : ∀ c ∈ shape.children, c.KnownTo L := fun c hc =>
      hrefs c (Shape.mem_refs_of_mem_children hc)
    have hdefined : ∀ c ∈ neededInPass s.read shape, c.Defined s.read := by
      intro c hc
      have hchild := mem_children_of_mem_needed (mem_needed_of_mem_neededInPass hc)
      exact (hchildren c hchild).2.defined hs (hchildren c hchild).1 (hknown c hchild)
    have hnew := new_builds (A := SolverFree)
      (fun _ => .node hfree fun c hc => (hchildren c hc).1) hrefs
    have hsimple := ofShape_builds solverFree_admitsRebuilding.toAdmitsOperations
      (fun c hc => ⟨hknown c hc, (hchildren c hc).1⟩) hnew
    obtain ⟨L₁, _, _, hstanding⟩ := hnew
    obtain ⟨L₂, _, _, hresult⟩ := hsimple
    rw [evaluate_run hresult.holds hresult.known.listed hs,
      evaluate_run hstanding.holds hstanding.known.listed hs,
      (ofShape_means hvar hdefined L.next).value_eq]
    exact value_node hvar s.read 0 L.next

/-- **Simplifying keeps the value.**  In exact arithmetic, and wherever nothing
within a solver-free formula is undefined, the simplified formula evaluates as the
formula does, however it was put together; and over such children the simple node
for a shape evaluates as the node of that shape as it stands. -/
theorem simplified_evaluation (L : Ledger PartialReal) (hs : s.Reachable) :
    (∀ e : Formula PartialReal, e.KnownTo L → e.SolverFree → e.EvaluatesThroughout s →
      ((e.simplify.run L.next).1.evaluate.run s).1 = (e.evaluate.run s).1) ∧
    (∀ shape : Shape PartialReal (Formula PartialReal), (∀ r ∈ shape.refs, r.KnownTo L) →
      (∀ c ∈ shape.children, c.SolverFree ∧ c.EvaluatesThroughout s) →
      (((ofShape shape).run L.next).1.evaluate.run s).1 =
        (((new shape).run L.next).1.evaluate.run s).1) :=
  ⟨fun _ he hfree hdefined => evaluate_simplify hs he hfree hdefined,
    fun _ hrefs hchildren => evaluate_ofShape hs hrefs hchildren⟩

/-- `log (e ^ x)` simplifies to a formula with the value of `x`, here zero, and is
one as soon as it is built. -/
theorem simplified_evaluation_of_log_exp :
    let x : Formula PartialReal := node 2 (.var "x")
    let logExp : Formula PartialReal := node 4 (.unary .log (node 3 (.unary .exp x)))
    ((logExp.simplify.run 5).1.evaluate.run Store.empty).1 = real 0 ∧
      (((ofShape logExp.shape).run 5).1.evaluate.run Store.empty).1 =
        (((new logExp.shape).run 5).1.evaluate.run Store.empty).1 := by
  intro x logExp
  have hknown : ∀ {e}, e ∈ [x, node 3 (.unary .exp x), logExp] →
      e.KnownTo (.ofNodes [x, node 3 (.unary .exp x), logExp]) :=
    ofNodes_known rfl (by simp [x, logExp, Shape.refs, Shape.children])
  have hlog := hknown (e := logExp) (by simp)
  have hfree : logExp.SolverFree := by simp [logExp, x, everywhere_node, Shape.children]
  have hfreeExp : (node 3 (.unary .exp x)).SolverFree := hfree.child List.mem_cons_self
  have hvalueX : value (Store.empty : Store PartialReal).read x = real 0 := by
    simp [x, value, Store.read, Store.empty]
  have hvalue : value (Store.empty : Store PartialReal).read logExp = real 0 := by
    rw [value, value, hvalueX]
    exact log_exp rfl
  have hthroughout : logExp.EvaluatesThroughout Store.empty := by
    refine evaluatesThroughout_of_value .empty hfree hlog (forall_within_node.mpr ⟨?_, ?_⟩)
    · show value _ logExp ≠ undefined
      simp [hvalue]
    · simp [forall_within_node, Shape.children, x, value, Store.read, Store.empty, UnaryOp.apply]
  have hthroughoutExp : (node 3 (.unary .exp x)).EvaluatesThroughout Store.empty := fun d hd =>
    hthroughout d (.child List.mem_cons_self hd)
  obtain ⟨hsimplified, hbuilt⟩ := simplified_evaluation
    (.ofNodes [x, node 3 (.unary .exp x), logExp]) Store.Reachable.empty
  refine ⟨?_, hbuilt logExp.shape (fun r hr => hlog.ref hr) ?_⟩
  · rw [← hvalue, ← evaluate_run hfree hlog.listed .empty]
    exact hsimplified logExp hlog hfree hthroughout
  · simpa [logExp, Shape.children] using ⟨hfreeExp, hthroughoutExp⟩

end Formula

end FormulaGraph
