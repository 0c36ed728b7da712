import FormulaGraph.Proofs.DerivativeRates
import FormulaGraph.Proofs.SimplifiedValue
import FormulaGraph.Proofs.Replacing
import FormulaGraph.Proofs.Scoping

/-!
# Rewriting keeps the rate

Variables are replaced, and what is put for a variable has, at the valuation `ρ` and the
velocities `δ'`, the value and the rate that the variable has at `σ` and `δ`.  Then the
result has at `ρ` the value and the rate that the formula has at `σ` (`mirrors`).

Rewriting follows the children of a node and nothing else.  The derivative supplied with a
table is not one of them: it stays as it is, over the variables it was supplied with, and is
read at `ρ` from then on.  So this takes for granted that it has the same value there
(`Kept`).
-/

namespace FormulaGraph

namespace Formula

open PartialReal

variable {ρ σ : Valuation PartialReal} {δ δ' : NodeId → ℝ} {L L' : Ledger PartialReal}

/-- The node has a value at `σ`, and if it is a table, a slope at `ρ` that is the one at
`σ`. -/
structure Kept (ρ σ : Valuation PartialReal) (id : NodeId)
    (shape : Shape PartialReal (Formula PartialReal)) : Prop where
  here : value σ (node id shape) ≠ undefined
  table : ∀ mark t a, shape = .tabulated mark t a →
    TableSloped ρ t (value σ a) ∧ tableSlope ρ t (value σ a) = tableSlope σ t (value σ a)

/-- No solver is among the parts, and no table within without a slope. -/
structure Slopable (ρ : Valuation PartialReal) (e : Formula PartialReal) : Prop where
  solverless : e.Solverless
  tables : e.Everywhere (TableAt ρ)

theorem slopable_admitsOperations : AdmitsOperations (Slopable ρ) where
  const id v :=
    ⟨solverless_inherited.const id v, .node (by simp [TableAt]) (by simp [Shape.children])⟩
  operation {id shape} hshape := by
    have htables : AdmitsOperations (Everywhere (TableAt ρ)) := by
      refine everywhere_admitsOperations (by simp [TableAt]) ?_
      rintro id shape hshape mark t a rfl
      exact hshape.elim
    refine ⟨fun h c hc => ?_, fun h => ?_⟩
    · exact ⟨(solverless_inherited.operation hshape).mp h.solverless c hc, h.tables.child hc⟩
    · exact ⟨(solverless_inherited.operation hshape).mpr fun c hc => (h c hc).solverless,
        (htables.operation hshape).mpr fun c hc => (h c hc).tables⟩

/-- The second formula has at `ρ` and `δ'` the value and the rate the first has at `σ` and
`δ`, and a derivative. -/
structure Mirrors (ρ σ : Valuation PartialReal) (δ' δ : NodeId → ℝ) (e : Formula PartialReal)
    (L : Ledger PartialReal) (d : Formula PartialReal) : Prop where
  member : d.Member (Slopable ρ) L
  means : d.Means ρ (value σ e)
  rate_eq : rate ρ δ' d = rate σ δ e

theorem mirrors_lasting (e : Formula PartialReal) : Lasting (Mirrors ρ σ δ' δ e) :=
  fun _ _ _ hL h => ⟨h.member.mono hL, h.means, h.rate_eq⟩

/-- What has to be put for the free variables of the formula, now and later. -/
structure PutsMirrors (ρ σ : Valuation PartialReal) (δ' δ : NodeId → ℝ)
    (r : Replacement PartialReal) (L : Ledger PartialReal) (e : Formula PartialReal) : Prop where
  kept : ∀ v : Variable, e.Free v.id → r v = none → ρ v.id = σ v.id ∧ δ' v.id = δ v.id
  put : ∀ v : Variable, e.Free v.id → ∀ x ∈ r v, ∀ L', L.Extends L' →
    Builds x L' (Mirrors ρ σ δ' δ v.formula)

/-- What is asked of a formula to be rewritten. -/
structure Rewritable (ρ σ : Valuation PartialReal) (δ' δ : NodeId → ℝ)
    (r : Replacement PartialReal) (L : Ledger PartialReal) (e : Formula PartialReal) : Prop where
  known : e.KnownTo L
  solverless : e.Solverless
  kept : e.Everywhere (Kept ρ σ)
  puts : PutsMirrors ρ σ δ' δ r L e

theorem defined_of_kept {e : Formula PartialReal} (h : e.Everywhere (Kept ρ σ)) : e.Defined σ := by
  refine defined_of_within ?_
  rintro ⟨id, shape⟩ hd
  exact (h.within hd).here.here

theorem map_eq_of_forall₂ {β γ ι : Type} {f : β → ι} {g : γ → ι} {bs : List β} {cs : List γ}
    (h : List.Forall₂ (fun b c => g c = f b) bs cs) : cs.map g = bs.map f := by
  induction h with
  | nil => rfl
  | cons hhead _ ih => rw [List.map_cons, hhead, ih, List.map_cons]

/-- Over children with the same values and rates, the node as it stands has the rate it
had. -/
theorem withChildren_rate (id : NodeId) {shape shape' : Shape PartialReal (Formula PartialReal)}
    {ds : List (Formula PartialReal)} (hfree : ∀ s, shape ≠ .solver s)
    (hds : List.Forall₂ (fun c d => value ρ d = value σ c ∧ rate ρ δ' d = rate σ δ c)
      shape.children ds)
    (htable : ∀ mark t a, shape = .tabulated mark t a →
      tableSlope ρ t (value σ a) = tableSlope σ t (value σ a))
    (h : shape.withChildren? ds = some shape') :
    rate ρ δ' (node 0 shape') = rate σ δ (node id shape) := by
  have hreal : ∀ {c d : Formula PartialReal}, value ρ d = value σ c →
      realValue ρ d = realValue σ c := fun h => congrArg toReal h
  cases shape with
  | unary op a =>
      rcases hds with _ | ⟨⟨hv, hr⟩, _ | _⟩
      cases h
      rw [rate, rate, hreal hv, hr]
  | binary op a b =>
      rcases hds with _ | ⟨⟨hv, hr⟩, _ | ⟨⟨hv', hr'⟩, _ | _⟩⟩
      cases h
      rw [rate, rate, hreal hv, hr, hreal hv', hr']
  | assoc op args =>
      cases h
      have hvalues := map_eq_of_forall₂ (f := realValue σ) (g := realValue ρ)
        (hds.imp fun _ _ h => hreal h.1)
      have hrates := map_eq_of_forall₂ (f := rate σ δ) (g := rate ρ δ')
        (hds.imp fun _ _ h => h.2)
      rw [rate, rate, rates_eq_map, rates_eq_map, hvalues, hrates, Shape.children]
  | conditional op c a b =>
      rcases hds with _ | ⟨⟨hv, _⟩, _ | ⟨⟨_, hr⟩, _ | ⟨⟨_, hr'⟩, _ | _⟩⟩⟩
      cases h
      rw [rate, rate, hv, hr, hr']
  | tabulated mark t a =>
      rcases hds with _ | ⟨⟨hv, hr⟩, _ | _⟩
      cases h
      rw [rate, rate, hv, hr, htable mark t a rfl]
  | const v => cases h
  | var name => cases h
  | solver s => exact absurd rfl (hfree s)

/-- Over a child with the same value, a table keeps its slope. -/
theorem tableAt_withChildren {id : NodeId} {shape shape' : Shape PartialReal (Formula PartialReal)}
    {ds : List (Formula PartialReal)} (hkept : Kept ρ σ id shape)
    (hds : List.Forall₂ (fun c d => value ρ d = value σ c) shape.children ds)
    (h : shape.withChildren? ds = some shape') (id' : NodeId) : TableAt ρ id' shape' := by
  rintro mark t a' rfl
  unfold Shape.withChildren? at h
  split at h <;> cases h
  next a =>
    obtain ⟨hvalue, _⟩ := List.forall₂_cons.mp hds
    rw [hvalue]
    exact (hkept.table _ _ _ rfl).1

/-- A node rebuilt over the mirrors of its children is a mirror of it. -/
theorem mirrors_rebuilt {r : Replacement PartialReal} {e : Formula PartialReal}
    {shape : Shape PartialReal (Formula PartialReal)} {ds : List (Formula PartialReal)}
    (h : Rewritable ρ σ δ' δ r L e)
    (hds : List.Forall₂ (fun c d => Mirrors ρ σ δ' δ c L d) e.children ds)
    (hshape : e.shape.withChildren? ds = some shape) :
    Builds (replaceOver e ds) L (Mirrors ρ σ δ' δ e) := by
  obtain ⟨id, eshape⟩ := e
  have hfree : ∀ s, eshape ≠ .solver s := h.solverless.here
  have hkept : Kept ρ σ id eshape := h.kept.here
  have hchildren : shape.children = ds := (children_of_withChildren hshape).1
  have hmember : ∀ d ∈ ds, d.Member (Slopable ρ) L :=
    forall_of_forall₂ hds fun _ _ hd => hd.member
  have hrefs : ∀ r ∈ shape.refs, r.KnownTo L ∧ r.Solverless := by
    intro r hr
    rcases (children_of_withChildren hshape).2 r hr with hr | hr
    · exact ⟨(hmember r hr).known, (hmember r hr).holds.solverless⟩
    · exact ⟨h.known.ref hr, h.solverless.ref hr⟩
  have hslopable : ∀ id', Slopable ρ (node id' shape) := by
    refine fun id' => ⟨.node (not_solver_of_withChildren hfree hshape) fun r hr => (hrefs r hr).2,
      .node ?_ ?_⟩
    · exact tableAt_withChildren hkept (hds.imp fun _ _ hd => hd.means.value_eq) hshape id'
    · rw [hchildren]
      exact fun d hd => (hmember d hd).holds.tables
  obtain ⟨hvar, hneeded, hvalue⟩ := withChildren_means (ρ := ρ) id hfree
    (hds.imp fun c d hd hc => by
      have hchild := mem_children_of_mem_needed (mem_needed_of_mem_neededInPass hc)
      exact ⟨hd.means.defined (defined_of_kept (h.kept.child hchild)).here,
        hd.means.value_eq⟩) hshape
  have hrate : rate ρ δ' (node 0 shape) = rate σ δ (node id eshape) :=
    withChildren_rate id hfree (hds.imp fun c d hd => ⟨hd.means.value_eq, hd.rate_eq⟩)
      (fun mark t a ht => (hkept.table mark t a ht).2) hshape
  refine (replaceOver_satisfies slopable_admitsOperations h.known hmember hshape
    (P := fun d => d.Means ρ (value σ (node id eshape)) ∧ rate ρ δ' d = rate σ δ (node id eshape))
    (fun id' => ⟨hslopable id', hvalue ▸ node_means hvar hneeded, ?_⟩) fun n => ?_).mono
    fun _ _ _ h => ⟨h.1, h.2.1, h.2.2⟩
  · rw [← hrate]
    exact rate_node hvar id' 0
  · have hmeans := ofShape_means hvar hneeded n
    have hchanges := ofShape_rate (δ := δ') hvar hneeded n
    exact ⟨hvalue ▸ hmeans, hchanges.trans hrate⟩

/-- **Rewriting keeps values and rates.** -/
theorem mirrors : Replaces (α := PartialReal) (fun r => r) Replacement.except
    (Rewritable ρ σ δ' δ) (fun _ => Mirrors ρ σ δ' δ) where
  except _ _ := rfl
  lasting _ _ _ _ hL h := ⟨h.known.mono hL, h.solverless, h.kept, h.puts.kept,
    fun v hv x hx L' hL' => h.puts.put v hv x hx L' (hL.trans hL')⟩
  imageLasting _ := mirrors_lasting
  known h := h.known
  part {r L e c} h hc := by
    obtain ⟨id, shape⟩ := e
    refine ⟨h.known.ref (Shape.mem_refs_of_mem_passParts hc),
      h.solverless.ref (Shape.mem_refs_of_mem_passParts hc), ?_, ?_, ?_⟩
    · have hparts : shape.passParts = shape.children :=
        Shape.passParts_eq_children h.solverless.here
      rw [shape_node, hparts] at hc
      exact h.kept.child hc
    · exact fun v hv => h.puts.kept v (.pass hc hv)
    · exact fun v hv => h.puts.put v (.pass hc hv)
  body h := absurd rfl (h.solverless.here _)
  const {r L id v} h := by
    refine ⟨⟨h.known, slopable_admitsOperations.const id v⟩, ?_, ?_⟩
    · rw [value]
      exact const_means id v
    · rw [rate, rate]
  kept {r L id name} h hkept := by
    obtain ⟨hvalue, hrate⟩ := h.puts.kept ⟨id, name⟩ (.var name) hkept
    have hhere : ρ id ≠ undefined := by
      have hdefined := (defined_of_kept h.kept).here
      rwa [value, ← hvalue] at hdefined
    refine ⟨⟨h.known, h.solverless, .node (by simp [TableAt]) (by simp [Shape.children])⟩, ?_, ?_⟩
    · rw [value, ← hvalue]
      exact ⟨by rw [value], fun _ => defined_var hhere⟩
    · rw [rate, rate, hrate]
  put {r L id name} h x hx := h.puts.put ⟨id, name⟩ (.var name) x hx L (.refl L)
  rebuilt h _ hds hshape := mirrors_rebuilt h hds hshape
  solver h := absurd rfl (h.solverless.here _)

end Formula

end FormulaGraph
