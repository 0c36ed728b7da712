import FormulaGraph.Proofs.Fringe
import FormulaGraph.Proofs.Workbench

/-!
# Derivatives without memory

Beside the derivatives that are remembered stands the plain recursion over the tree, which
remembers none: it takes the derivative of a shared part again wherever it meets it.  The
rules for each kind of node look at operations and constants, so over formulas that unfold
to the same trees they build formulas that do.

What is remembered for a node and a variable unfolds to what the recursion makes of the tree
(`memoFree_handedOn`).  So it does not matter who asked first, what was forgotten meanwhile,
and what parts are shared.
-/

namespace FormulaGraph

variable {α : Type} [Scalar α]

namespace Formula

/-! ## The rules over trees -/

section Rules

variable {a a' b b' d d' e e' da da' db db' : Formula α} {terms terms' : List (Formula α)}

/-- Products of formulas of one tree agree. -/
theorem product_agrees (ha : a.tree = a'.tree) (hb : b.tree = b'.tree) :
    Agree tree (product [a, b]) (product [a', b']) :=
  assoc_agrees .multiply (by simp [ha, hb])

/-- Sums of formulas of one tree agree. -/
theorem sum_agrees (ha : a.tree = a'.tree) (hb : b.tree = b'.tree) :
    Agree tree (sum [a, b]) (sum [a', b']) :=
  assoc_agrees .add (by simp [ha, hb])

/-- The derivative of a unary function depends on trees only. -/
theorem unaryDerivative_agrees (op : UnaryOp) (he : e.tree = e'.tree) (ha : a.tree = a'.tree)
    (hd : d.tree = d'.tree) :
    Agree tree (unaryDerivative e op a d) (unaryDerivative e' op a' d') := by
  unfold unaryDerivative
  rw [isConstantValue_congr hd]
  split
  · exact .pure rfl
  · cases op with
    | negate => exact unary_agrees .negate hd
    | square =>
        refine .bind (constant_agrees _) fun two two' htwo => assoc_agrees .multiply ?_
        simp [htwo, ha, hd]
    | sqrt =>
        refine .bind (constant_agrees _) fun half half' hhalf => ?_
        refine .bind (product_agrees hhalf hd) fun p p' hp => ?_
        exact binary_agrees .divide hp he
    | exp => exact product_agrees he hd
    | log => exact binary_agrees .divide hd ha
    | sin => exact .bind (unary_agrees .cos ha) fun c c' hc => product_agrees hc hd
    | cos =>
        refine .bind (unary_agrees .sin ha) fun c c' hc => ?_
        exact .bind (product_agrees hc hd) fun p p' hp => unary_agrees .negate hp
    | atan =>
        refine .bind (square_agrees ha) fun s s' hs => ?_
        refine .bind (constant_agrees _) fun c c' hc => ?_
        exact .bind (sum_agrees hs hc) fun q q' hq => binary_agrees .divide hd hq
    | acos =>
        refine .bind (constant_agrees _) fun c c' hc => ?_
        refine .bind (square_agrees ha) fun s s' hs => ?_
        refine .bind (binary_agrees .subtract hc hs) fun q q' hq => ?_
        refine .bind (unary_agrees .sqrt hq) fun r r' hr => ?_
        exact .bind (binary_agrees .divide hd hr) fun p p' hp => unary_agrees .negate hp
    | cosineIntegral =>
        refine .bind (unary_agrees .cos ha) fun c c' hc => ?_
        exact .bind (product_agrees hc hd) fun p p' hp => binary_agrees .divide hp ha
    | sineIntegral =>
        refine .bind (unary_agrees .sin ha) fun c c' hc => ?_
        exact .bind (product_agrees hc hd) fun p p' hp => binary_agrees .divide hp ha

/-- Conditionals of formulas of one tree agree. -/
theorem conditional_agrees (op : ConditionalOp) {c c' : Formula α} (hc : c.tree = c'.tree)
    (ha : a.tree = a'.tree) (hb : b.tree = b'.tree) :
    Agree tree (conditional op c a b) (conditional op c' a' b') :=
  ofShape_agrees (by simp [Shape.tree, hc, ha, hb]) (by simp)

/-- The derivative of a binary operation depends on trees only. -/
theorem binaryDerivative_agrees (op : BinaryOp) (ha : a.tree = a'.tree) (hb : b.tree = b'.tree)
    (hda : da.tree = da'.tree) (hdb : db.tree = db'.tree) :
    Agree tree (binaryDerivative op a b da db) (binaryDerivative op a' b' da' db') := by
  cases op with
  | subtract => exact binary_agrees .subtract hda hdb
  | divide =>
      refine .bind (product_agrees hda hb) fun p p' hp => ?_
      refine .bind (product_agrees ha hdb) fun q q' hq => ?_
      refine .bind (binary_agrees .subtract hp hq) fun s s' hs => ?_
      exact .bind (square_agrees hb) fun t t' ht => binary_agrees .divide hs ht
  | atan2 =>
      refine .bind (product_agrees hb hda) fun p p' hp => ?_
      refine .bind (product_agrees ha hdb) fun q q' hq => ?_
      refine .bind (binary_agrees .subtract hp hq) fun s s' hs => ?_
      refine .bind (square_agrees ha) fun t t' ht => ?_
      refine .bind (square_agrees hb) fun u u' hu => ?_
      exact .bind (sum_agrees ht hu) fun w w' hw => binary_agrees .divide hs hw
  | max =>
      refine .bind (binary_agrees .subtract ha hb) fun c c' hc => ?_
      exact conditional_agrees .ifPositive hc hda hdb
  | min =>
      refine .bind (binary_agrees .subtract ha hb) fun c c' hc => ?_
      exact conditional_agrees .ifPositive hc hdb hda

/-- One term of the derivative depends on trees only. -/
theorem derivativeTerm_agrees (op : AssocOp) {before before' after after' : List (Formula α)}
    (hbefore : before.map tree = before'.map tree) (he : e.tree = e'.tree)
    (hafter : after.map tree = after'.map tree) (hd : d.tree = d'.tree) :
    Agree tree (derivativeTerm op before e after d) (derivativeTerm op before' e' after' d') := by
  cases op with
  | add => exact .pure hd
  | multiply =>
      simp only [derivativeTerm]
      rw [isConstantValue_congr hd]
      split
      · exact .pure rfl
      · exact assoc_agrees .multiply (by simp [hbefore, hafter, hd])
  | hypot => exact product_agrees he hd

/-- The terms are put together with regard to trees only. -/
theorem assocDerivative_agrees (op : AssocOp) (he : e.tree = e'.tree)
    (hterms : terms.map tree = terms'.map tree) :
    Agree tree (assocDerivative e op terms) (assocDerivative e' op terms') := by
  cases op with
  | hypot => exact .bind (assoc_agrees .add hterms) fun s s' hs => binary_agrees .divide hs he
  | _ => exact assoc_agrees .add hterms

/-- A table of differences bears a mark of its own, which does not show in the tree. -/
theorem tabulatedDerivative_agrees (t : Table α (Formula α)) (ha : a.tree = a'.tree)
    (hd : d.tree = d'.tree) :
    Agree tree (tabulatedDerivative t a d) (tabulatedDerivative t a' d') := by
  have htable : Agree tree (tableDerivative t a) (tableDerivative t a') := by
    rw [tableDerivative, tableDerivative]
    cases t.derivative with
    | some s => exact .pure rfl
    | none =>
        have hmark : Agree (fun _ => ()) Fresh.identity Fresh.identity := fun _ _ => rfl
        exact .bind hmark fun m m' _ => ofShape_agrees (by simp [Shape.tree, ha]) (by simp)
  rw [tabulatedDerivative, tabulatedDerivative, isConstantValue_congr hd]
  split
  · exact .pure rfl
  · exact .bind htable fun s s' hs => product_agrees hs hd

end Rules

/-! ## The recursion -/

/-- The slope of a root, read at the root without regard to what is shared. -/
def rootSlopeAfresh (e : Formula α) (bound : NodeId) (byVariable byBound : Formula α) :
    Fresh (Formula α) := do
  replaceAfresh (.ofPairs [(bound, e)]) (← negate (← divide byVariable byBound))

mutual

/-- The derivative with respect to the variable `x` by recursion over the tree. -/
def derivativeAfresh (x : NodeId) : Formula α → Fresh (Formula α)
  | node _ (.const _) => pure zero
  | node id (.var _) => pure (if id = x then one else zero)
  | node id (.unary op a) => do
    unaryDerivative (node id (.unary op a)) op a (← derivativeAfresh x a)
  | node _ (.binary op a b) => do
    binaryDerivative op a b (← derivativeAfresh x a) (← derivativeAfresh x b)
  | node id (.assoc op args) => do
    assocDerivative (node id (.assoc op args)) op (← derivativeTermsAfresh x op [] args)
  | node _ (.conditional op c a b) => do
    conditional op c (← derivativeAfresh x a) (← derivativeAfresh x b)
  | node _ (.tabulated _ t a) => do tabulatedDerivative t a (← derivativeAfresh x a)
  | node id (.solver ⟨body, bound, low, high, precision, guard⟩) => do
    if bound.id = x then return zero
    else
      let byVariable ← derivativeAfresh x body
      if byVariable.isConstantValue 0 then return zero
      else
        rootSlopeAfresh (node id (.solver ⟨body, bound, low, high, precision, guard⟩)) bound.id
          byVariable (← derivativeAfresh bound.id body)

/-- What the arguments of an operation contribute, after the arguments `before`. -/
def derivativeTermsAfresh (x : NodeId) (op : AssocOp) (before : List (Formula α)) :
    List (Formula α) → Fresh (List (Formula α))
  | [] => pure []
  | e :: es => do
    let term ← derivativeTerm op before e es (← derivativeAfresh x e)
    return term :: (← derivativeTermsAfresh x op (before ++ [e]) es)

end

/-- The slope of a root depends on trees only. -/
theorem rootSlopeAfresh_agrees {e e' d d' db db' : Formula α} (bound : NodeId)
    (he : e.tree = e'.tree) (hd : d.tree = d'.tree) (hdb : db.tree = db'.tree) :
    Agree tree (rootSlopeAfresh e bound d db) (rootSlopeAfresh e' bound d' db') := by
  refine .bind (binary_agrees .divide hd hdb) fun q q' hq => ?_
  refine .bind (unary_agrees .negate hq) fun n n' hn => ?_
  exact replaceAfresh_agrees (Replacement.ofPairs_agrees (.single bound he)) hn

/-- If the derivative of each argument depends on its tree only, so do the terms. -/
theorem derivativeTermsAfresh_agrees_tree {x : NodeId} {op : AssocOp}
    {before before' args : List (Formula α)}
    (h : ∀ a ∈ args, Agree tree (derivativeAfresh x a) (derivativeAfresh x a.tree))
    (hbefore : before.map tree = before'.map tree) :
    Agree (List.map tree) (derivativeTermsAfresh x op before args)
      (derivativeTermsAfresh x op before' (args.map tree)) := by
  induction args generalizing before before' with
  | nil => exact .pure rfl
  | cons a as ih =>
      rw [List.map_cons, derivativeTermsAfresh, derivativeTermsAfresh]
      refine .bind (h a List.mem_cons_self) fun d d' hd => ?_
      refine .bind (derivativeTerm_agrees op hbefore (tree_tree a).symm (by simp) hd)
        fun t t' ht => ?_
      refine .bind (ih (fun c hc => h c (List.mem_cons_of_mem a hc)) (by simp [hbefore]))
        fun ts ts' hts => .pure ?_
      simp [ht, hts]

/-- The recursion goes over the tree. -/
theorem derivativeAfresh_agrees_tree (x : NodeId) (e : Formula α) :
    Agree tree (derivativeAfresh x e) (derivativeAfresh x e.tree) := by
  induction e using inductionOnRefs generalizing x with
  | h id shape ih =>
      have hself := (tree_tree (node id shape)).symm
      have hchild : ∀ c ∈ shape.children, ∀ x,
          Agree tree (derivativeAfresh x c) (derivativeAfresh x c.tree) := fun c hc x =>
        ih c (Shape.mem_refs_of_mem_children hc) x
      cases shape with
      | const v => exact .pure rfl
      | var name => exact .pure rfl
      | unary op a =>
          have ha := hchild a List.mem_cons_self x
          exact .bind ha fun d d' hd => unaryDerivative_agrees op hself (tree_tree a).symm hd
      | binary op a b =>
          have ha := hchild a (by simp [Shape.children]) x
          have hb := hchild b (by simp [Shape.children]) x
          refine .bind ha fun da da' hda => .bind hb fun db db' hdb => ?_
          exact binaryDerivative_agrees op (tree_tree a).symm (tree_tree b).symm hda hdb
      | assoc op args =>
          have htree : (node id (.assoc op args)).tree = node 0 (.assoc op (args.map tree)) :=
            tree_node (by simp)
          rw [htree] at hself
          rw [htree, derivativeAfresh, derivativeAfresh]
          exact .bind (derivativeTermsAfresh_agrees_tree (fun a ha => hchild a ha x) rfl)
            fun ts ts' hts => assocDerivative_agrees op (htree.trans hself) hts
      | conditional op c a b =>
          have ha := hchild a (by simp [Shape.children]) x
          have hb := hchild b (by simp [Shape.children]) x
          refine .bind ha fun da da' hda => .bind hb fun db db' hdb => ?_
          exact conditional_agrees op (tree_tree c).symm hda hdb
      | tabulated mark t a =>
          have ha := hchild a List.mem_cons_self x
          exact .bind ha fun d d' hd => tabulatedDerivative_agrees t (tree_tree a).symm hd
      | solver s =>
          obtain ⟨body, bound, low, high, precision, guard⟩ := s
          have hbody := hchild body List.mem_cons_self
          rw [tree, derivativeAfresh, derivativeAfresh]
          split
          · exact .pure rfl
          · refine .bind (hbody x) fun d d' hd => ?_
            rw [isConstantValue_congr hd]
            split
            · exact .pure rfl
            · exact .bind (hbody bound.id) fun db db' hdb =>
                rootSlopeAfresh_agrees bound.id hself hd hdb

/-! ## What is remembered -/

/-- The formula unfolds to what the recursion makes of the derivative. -/
def RecursesTo (x : NodeId) (e d : Formula α) : Prop := Agree tree (derivativeAfresh x e) (pure d)

/-- What the memory answers for the arguments gives the terms that recursion gives. -/
theorem recursesTo_terms {x : NodeId} {op : AssocOp} {before args terms : List (Formula α)}
    (h : DerivativeTerms RecursesTo x op before args terms) :
    Agree (List.map tree) (derivativeTermsAfresh x op before args) (pure terms) := by
  induction h with
  | nil => exact .pure rfl
  | @cons before args terms e d hd n _ ih =>
      rw [derivativeTermsAfresh]
      refine .bind_pure hd fun d' hd' => ?_
      have hterm : Agree tree (derivativeTerm op before e args d')
          (pure ((derivativeTerm op before e args d).run n).1) :=
        (derivativeTerm_agrees op rfl rfl rfl hd').answer n
      refine .bind_pure hterm fun t ht => .bind_pure ih fun ts hts => .pure ?_
      simp [ht, hts]

/-- The slope of a root unfolds to what the recursion makes of the tree, since it is read at the
root by putting the solver in the place of its variable. -/
theorem rootSlope_afresh {L : Ledger α} {id : NodeId} {s : Solver α (Formula α)}
    {d d' : Formula α} (he : (node id (.solver s)).KnownTo L) (hd : d.KnownTo L)
    (hd' : d'.KnownTo L) :
    Builds (rootSlope (node id (.solver s)) s.bound.id d d') L fun _ r =>
      Agree tree (rootSlopeAfresh (node id (.solver s)) s.bound.id d d') (pure r) := by
  have hA := trivial_admitsOperations (α := α)
  have hquotient : Agree tree (divide d d') (divide d d') := binary_agrees .divide rfl rfl
  refine .bind ((binary_builds hA .divide (member_trivial hd) (member_trivial hd')).and_yields
    (R := fun q => Agree tree (divide d d') (pure q)) fun n => hquotient.answer n)
    fun L₁ q hL₁ hq => ?_
  have hnegated : Agree tree (negate q) (negate q) := unary_agrees .negate rfl
  refine .bind ((unary_builds hA .negate hq.1).and_yields
    (R := fun p => Agree tree (negate q) (pure p)) fun n => hnegated.answer n)
    fun L₂ p hL₂ hp => ?_
  refine (substitute_solver_afresh (he.mono (hL₁.trans hL₂)) hp.1.known).mono fun _ r _ hr => ?_
  refine .bind_pure hq.2 fun q' hq' => ?_
  refine .bind_pure ((unary_agrees .negate hq').trans hp.2) fun p' hp' => ?_
  exact (replaceAfresh_agrees (Replacement.ofPairs_agrees (.refl _)) hp').trans hr.2

/-- **The rules hand on that derivatives unfold to what the recursion makes of them.** -/
theorem memoFree_handedOn : HandedOn (RecursesTo (α := α)) where
  const _ _ _ := .pure rfl
  var_self x name := by
    rw [RecursesTo, derivativeAfresh, if_pos rfl]
    exact .pure rfl
  var_other x id name h := by
    rw [RecursesTo, derivativeAfresh, if_neg h]
    exact .pure rfl
  unary {x id op a d} hd n := by
    rw [RecursesTo, derivativeAfresh]
    exact (Agree.bind_pure hd fun d' hd' => unaryDerivative_agrees op rfl rfl hd').answer n
  binary {x id op a b da db} hda hdb n := by
    rw [RecursesTo, derivativeAfresh]
    exact (Agree.bind_pure hda fun da' hda' => .bind_pure hdb fun db' hdb' =>
      binaryDerivative_agrees op rfl rfl hda' hdb').answer n
  assoc {x id op args terms} hterms n := by
    rw [RecursesTo, derivativeAfresh]
    exact (Agree.bind_pure (recursesTo_terms hterms) fun ts hts =>
      assocDerivative_agrees op rfl hts).answer n
  conditional {x id op c a b da db} hda hdb n := by
    rw [RecursesTo, derivativeAfresh]
    exact (Agree.bind_pure hda fun da' hda' => .bind_pure hdb fun db' hdb' =>
      conditional_agrees op rfl hda' hdb').answer n
  tabulated {x id mark t a d} hd n := by
    rw [RecursesTo, derivativeAfresh]
    exact (Agree.bind_pure hd fun d' hd' => tabulatedDerivative_agrees t rfl hd').answer n
  solver_bound {id s} := by
    rw [RecursesTo, derivativeAfresh, if_pos rfl]
    exact .pure rfl
  solver_level {x id s d} hd hlevel := by
    rw [RecursesTo, derivativeAfresh]
    split
    · exact .pure rfl
    · refine .bind_pure hd fun d' hd' => ?_
      rw [isConstantValue_congr hd', hlevel]
      exact .pure rfl
  solver_slope {x id s d d' L} he hbound hlevel hd hd' := by
    have hafresh : Agree tree (derivativeAfresh x (node id (.solver s)))
        (rootSlopeAfresh (node id (.solver s)) s.bound.id d d') := by
      rw [derivativeAfresh, if_neg hbound]
      refine .bind_pure hd.handedOn fun c hc => ?_
      rw [isConstantValue_congr hc, if_neg (by simp [hlevel])]
      exact .bind_pure hd'.handedOn fun c' hc' => rootSlopeAfresh_agrees _ rfl hc hc'
    exact (rootSlope_afresh he hd.known hd'.known).mono fun _ _ _ hr => hafresh.trans hr

end Formula

end FormulaGraph
