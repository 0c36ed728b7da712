import FormulaGraph.Proofs.Definedness

/-!
# Amounts

Flattening goes through nested operations at any depth and pulls constants together.  That
the result stays the same rests on two laws that sums, products and lengths have in common:
the *amount* of several numbers does not depend on their order (`amount_perm`), and in place
of some of them their amount may stand (`amount_cons_amount`).

The laws hold of more than real numbers.  Whatever is read off formulas according to them, a
**tally**, flattening keeps (`Tally.assoc_reads`), provided that what it builds may be read as
well (`Closed`).
-/

namespace FormulaGraph

open PartialReal

namespace AssocOp

/-! ## The amount of several numbers -/

/-- What an operation makes of real numbers. -/
noncomputable def amount : AssocOp → List ℝ → ℝ
  | add, xs => xs.sum
  | multiply, xs => xs.prod
  | hypot, xs => length xs

/-- Applied to real numbers, the operation gives their amount. -/
theorem apply_map_real (op : AssocOp) (xs : List ℝ) :
    op.apply (xs.map real) = real (op.amount xs) := by
  cases op with
  | add => rw [apply, sum_eq, sum_map_real, amount]
  | multiply => rw [apply, one_eq, productUntilZero_map_real, one_mul, amount]
  | hypot => rw [apply, hypot_map_real, amount]

/-- Combining constants gives their amount as well. -/
theorem combine_map_real (op : AssocOp) (xs : List ℝ) :
    op.combine (xs.map real) = real (op.amount xs) := by
  cases op with
  | add => rw [combine, sum_eq, sum_map_real, amount]
  | multiply => rw [combine, product_eq, prod_map_real, amount]
  | hypot => rw [combine, hypot_map_real, amount]

/-- The order of the numbers does not matter. -/
theorem amount_perm (op : AssocOp) {xs ys : List ℝ} (h : xs.Perm ys) :
    op.amount xs = op.amount ys := by
  cases op with
  | add => exact h.sum_eq
  | multiply => exact h.prod_eq
  | hypot => rw [amount, amount, length, length, (h.map _).sum_eq]

/-- A length is the root of the sum of squares. -/
theorem length_mul_self (xs : List ℝ) :
    length xs * length xs = (xs.map fun x => x * x).sum :=
  Real.mul_self_sqrt (sum_squares_nonneg xs)

/-- An amount among the numbers may be taken apart. -/
theorem amount_cons_amount (op : AssocOp) (xs ys : List ℝ) :
    op.amount (op.amount xs :: ys) = op.amount (xs ++ ys) := by
  cases op with
  | add => rw [amount, amount, amount, List.sum_cons, List.sum_append]
  | multiply => rw [amount, amount, amount, List.prod_cons, List.prod_append]
  | hypot =>
      rw [amount, amount, amount, length, List.map_cons, List.sum_cons, length_mul_self, length,
        List.map_append, List.sum_append]

/-- A sum or product of one number is the number. -/
theorem amount_singleton {op : AssocOp} (h : op ≠ .hypot) (x : ℝ) : op.amount [x] = x := by
  cases op with
  | add => exact List.sum_singleton
  | multiply => exact List.prod_singleton
  | hypot => exact absurd rfl h

/-- A neutral number can be left out. -/
theorem amount_cons_of_isNeutral {op : AssocOp} {x : ℝ} (h : op.isNeutral (real x) = true)
    (ys : List ℝ) : op.amount (x :: ys) = op.amount ys := by
  cases op with
  | add =>
      have hx : x = 0 := (beq_real _ _).mp h
      rw [amount, List.sum_cons, hx, zero_add, amount]
  | multiply =>
      have hx : x = 1 := (beq_real _ _).mp h
      rw [amount, List.prod_cons, hx, one_mul, amount]
  | hypot =>
      have hx : x = 0 := (beq_real _ _).mp h
      rw [amount, length, List.map_cons, List.sum_cons, hx, mul_zero, zero_add, amount, length]

end AssocOp

namespace Formula

/-- The formulas include what the rules of construction make of sums, products, lengths and squares
of them, if the nodes they build have numbers from `n₀` on. -/
structure Closed (n₀ : NodeId) (K : Formula PartialReal → Prop) : Prop where
  const : ∀ id x, K (node id (.const (real x)))
  exists_real : ∀ {id v}, K (node id (.const v)) → ∃ x, v = real x
  assoc : ∀ {id op args}, n₀ ≤ id → (∀ a ∈ args, K a) → K (node id (.assoc op args))
  args : ∀ {id op args}, K (node id (.assoc op args)) → ∀ a ∈ args, K a
  square : ∀ {id a}, n₀ ≤ id → K a → K (node id (.unary .square a))

/-- Amounts of what numbers are read as, with the laws that those of real numbers have. -/
structure Amounts (β : Type) where
  amount : AssocOp → List β → β
  /-- What a number is read as. -/
  number : ℝ → β
  square : β → β
  amount_perm : ∀ op {xs ys : List β}, xs.Perm ys → amount op xs = amount op ys
  amount_cons_amount : ∀ op xs ys, amount op (amount op xs :: ys) = amount op (xs ++ ys)
  amount_singleton : ∀ {op}, op ≠ .hypot → ∀ x, amount op [x] = x
  amount_numbers : ∀ op xs, amount op (xs.map number) = number (op.amount xs)
  amount_neutral : ∀ {op x}, op.isNeutral (real x) = true → ∀ ys,
    amount op (number x :: ys) = amount op ys
  amount_zero : ∀ {xs}, number 0 ∈ xs → amount .multiply xs = number 0
  square_number : ∀ x, square (number x) = number (x * x)
  square_length : ∀ xs, square (amount .hypot xs) = amount .add (xs.map square)

/-- The amounts of real numbers. -/
noncomputable def Amounts.real : Amounts ℝ where
  amount := AssocOp.amount
  number x := x
  square x := x * x
  amount_perm := AssocOp.amount_perm
  amount_cons_amount := AssocOp.amount_cons_amount
  amount_singleton := AssocOp.amount_singleton
  amount_numbers op xs := congrArg op.amount (List.map_id xs)
  amount_neutral := AssocOp.amount_cons_of_isNeutral
  amount_zero := List.prod_eq_zero
  square_number _ := rfl
  square_length := AssocOp.length_mul_self

/-- A reading of formulas that goes by what sums, products and lengths amount to. -/
structure Tally (n₀ : NodeId) (K : Formula PartialReal → Prop) (β : Type) extends Amounts β where
  closed : Closed n₀ K
  read : Formula PartialReal → β
  read_const : ∀ id x, read (node id (.const (real x))) = number x
  read_assoc : ∀ {id op args}, K (node id (.assoc op args)) →
    read (node id (.assoc op args)) = amount op (args.map read)
  read_square : ∀ {id a}, n₀ ≤ id → K a → read (node id (.unary .square a)) = square (read a)

namespace Tally

variable {n₀ : NodeId} {K : Formula PartialReal → Prop} {β : Type} (T : Tally n₀ K β)

/-- The formula is one of those that are read, and read as `v`. -/
structure Reads (v : β) (e : Formula PartialReal) : Prop where
  holds : K e
  read_eq : T.read e = v

variable {T}

/-- A constant is read as its number. -/
theorem const_reads (id : NodeId) (x : ℝ) : T.Reads (T.number x) (node id (.const (real x))) :=
  ⟨T.closed.const id x, T.read_const id x⟩

/-- A constant that is built is read as its number. -/
theorem constant_reads (x : ℝ) : YieldsFrom n₀ (constant (real x)) (T.Reads (T.number x)) :=
  .new fun id _ => const_reads id x

/-- The common zero is read as zero. -/
theorem zero_reads : T.Reads (T.number 0) zero := const_reads 0 0

/-- The amount depends on the amount of the rest. -/
theorem amount_cons_congr (op : AssocOp) (x : β) {ys zs : List β}
    (h : T.amount op ys = T.amount op zs) : T.amount op (x :: ys) = T.amount op (x :: zs) := by
  have hswap : ∀ xs, T.amount op (x :: xs) = T.amount op [T.amount op xs, x] := by
    intro xs
    rw [T.amount_cons_amount]
    exact T.amount_perm op (List.perm_append_singleton x xs).symm
  rw [hswap, hswap, h]

/-- Lists of equal amounts may replace one another on both sides. -/
theorem amount_append_congr (op : AssocOp) {xs xs' ys ys' : List β}
    (hx : T.amount op xs = T.amount op xs') (hy : T.amount op ys = T.amount op ys') :
    T.amount op (xs ++ ys) = T.amount op (xs' ++ ys') := by
  have hright : ∀ zs : List β, T.amount op (zs ++ ys) = T.amount op (zs ++ ys') := by
    intro zs
    induction zs with
    | nil => exact hy
    | cons z zs ih => exact amount_cons_congr op z ih
  rw [hright, ← T.amount_cons_amount, hx, T.amount_cons_amount]

/-! ## Flattening -/

/-- The formulas of the second list are read, and amount to the same as those of the
first. -/
structure SameAmount (T : Tally n₀ K β) (op : AssocOp) (es fs : List (Formula PartialReal)) :
    Prop where
  holds : ∀ f ∈ fs, K f
  amount : T.amount op (fs.map T.read) = T.amount op (es.map T.read)

/-- Replacing both parts of a list keeps the amount. -/
theorem SameAmount.append {op : AssocOp} {es fs es' fs' : List (Formula PartialReal)}
    (h : T.SameAmount op es fs) (h' : T.SameAmount op es' fs') :
    T.SameAmount op (es ++ es') (fs ++ fs') := by
  refine ⟨?_, ?_⟩
  · intro f hf
    exact (List.mem_append.mp hf).elim (h.holds f) (h'.holds f)
  · rw [List.map_append, List.map_append]
    exact amount_append_congr op h.amount h'.amount

/-- If taking apart keeps the amount of each argument, it keeps that of all. -/
theorem sameAmount_argumentsOfAll_of {op : AssocOp} {es : List (Formula PartialReal)}
    (h : ∀ e ∈ es, T.SameAmount op [e] (argumentsOf op e)) :
    T.SameAmount op es (argumentsOfAll op es) := by
  induction es with
  | nil => exact ⟨by simp [argumentsOfAll], rfl⟩
  | cons e es ih =>
      have hhead := h e List.mem_cons_self
      have htail := ih fun d hd => h d (List.mem_cons_of_mem e hd)
      rw [argumentsOfAll]
      exact hhead.append htail

/-- The arguments a formula contributes to an operation amount to what it is read as. -/
theorem sameAmount_argumentsOf (op : AssocOp) {e : Formula PartialReal} (he : K e) :
    T.SameAmount op [e] (argumentsOf op e) := by
  have hself : ∀ {e : Formula PartialReal}, K e → T.SameAmount op [e] [e] :=
    fun he => ⟨by simpa using he, rfl⟩
  induction e using inductionOnRefs with
  | h id shape ih =>
      cases shape with
      | assoc inner args =>
          rw [argumentsOf]
          by_cases hop : inner = op
          · subst hop
            rw [if_pos (beq_self_eq_true _)]
            have hall : T.SameAmount inner args (argumentsOfAll inner args) :=
              sameAmount_argumentsOfAll_of fun e h => ih e h (T.closed.args he e h)
            refine ⟨hall.holds, ?_⟩
            rw [hall.amount, List.map_singleton, T.read_assoc he, T.amount_cons_amount,
              List.append_nil]
          · have hne : ¬(inner == op) = true := by simpa using hop
            rw [if_neg hne]
            exact hself he
      | _ => exact hself he

/-- Taking arguments apart keeps their amount. -/
theorem sameAmount_argumentsOfAll (op : AssocOp) {es : List (Formula PartialReal)}
    (hes : ∀ e ∈ es, K e) : T.SameAmount op es (argumentsOfAll op es) :=
  sameAmount_argumentsOfAll_of fun e he => sameAmount_argumentsOf op (hes e he)

/-- The constants among the formulas are as many real numbers, and read as these. -/
theorem exists_constants {es : List (Formula PartialReal)} (hes : ∀ e ∈ es, K e) :
    ∃ xs : List ℝ, es.filterMap asConstant = xs.map real ∧
      (es.filter isConstant).map T.read = xs.map T.number := by
  induction es with
  | nil => exact ⟨[], rfl, rfl⟩
  | cons e es ih =>
      obtain ⟨xs, hconstants, hread⟩ := ih fun d hd => hes d (List.mem_cons_of_mem e hd)
      cases hconst : e.asConstant with
      | none => exact ⟨xs, by simp [hconst, hconstants], by simp [hconst, isConstant, hread]⟩
      | some v =>
          have he := eq_const_of_asConstant hconst
          obtain ⟨x, rfl⟩ : ∃ x, v = real x :=
            T.closed.exists_real (he ▸ hes e List.mem_cons_self)
          refine ⟨x :: xs, by simp [hconst, hconstants], ?_⟩
          have hhead : T.read e = T.number x := by
            rw [he]
            exact T.read_const _ x
          simp [hconst, isConstant, hread, hhead]

/-- A constant and other formulas amount to the constant together with theirs. -/
theorem addConstant_reads (op : AssocOp) (x : ℝ) {terms : List (Formula PartialReal)}
    (hterms : ∀ e ∈ terms, K e) :
    YieldsFrom n₀ (addConstant op (real x) terms) fun fs => (∀ f ∈ fs, K f) ∧
      T.amount op (fs.map T.read) = T.amount op (T.number x :: terms.map T.read) := by
  rw [addConstant]
  split
  · next h => exact .pure ⟨hterms, (T.amount_neutral h _).symm⟩
  · refine .bind (constant_reads (T := T) x) ?_
    intro c hc
    have hall : ∀ f ∈ c :: terms, K f := by
      simpa using ⟨hc.holds, hterms⟩
    have hfront : T.amount op ((c :: terms).map T.read) =
        T.amount op (T.number x :: terms.map T.read) := by
      rw [List.map_cons, hc.read_eq]
    have hback : T.amount op ((terms ++ [c]).map T.read) =
        T.amount op (T.number x :: terms.map T.read) := by
      rw [← hfront]
      exact T.amount_perm op ((List.perm_append_singleton c terms).map _)
    cases op with
    | multiply => exact .pure ⟨hall, hfront⟩
    | add => exact .pure ⟨fun f hf => hall f (by simpa [or_comm] using hf), hback⟩
    | hypot => exact .pure ⟨fun f hf => hall f (by simpa [or_comm] using hf), hback⟩

/-- A sum or a product of a single argument is that argument. -/
theorem single_reads {op : AssocOp} (hop : op ≠ .hypot) {e : Formula PartialReal}
    (he : ∀ f ∈ [e], K f) : T.Reads (T.amount op ([e].map T.read)) e :=
  ⟨he e List.mem_cons_self, (T.amount_singleton hop _).symm⟩

/-- An operation as it stands. -/
theorem new_assoc_reads {op : AssocOp} {es : List (Formula PartialReal)}
    (hes : ∀ e ∈ es, K e) :
    YieldsFrom n₀ (new (.assoc op es)) (T.Reads (T.amount op (es.map T.read))) :=
  .new fun _ hid => ⟨T.closed.assoc hid hes, T.read_assoc (T.closed.assoc hid hes)⟩

/-- Flattening is read as the amount of the arguments. -/
theorem flatten_reads (op : AssocOp) {args : List (Formula PartialReal)}
    (hargs : ∀ e ∈ args, K e) :
    YieldsFrom n₀ (flatten op args) (T.Reads (T.amount op (args.map T.read))) := by
  have hflat := sameAmount_argumentsOfAll (T := T) op hargs
  rw [← hflat.amount, flatten]
  generalize argumentsOfAll op args = flat at hflat
  have hterms : ∀ e ∈ flat.filter (fun e => !e.isConstant), K e := fun e he =>
    hflat.holds e (List.mem_filter.mp he).1
  obtain ⟨constants, hconstants, hread⟩ := exists_constants (T := T) hflat.holds
  have hsplit : T.amount op (flat.map T.read) =
      T.amount op (constants.map T.number ++
        (flat.filter fun e => !e.isConstant).map T.read) := by
    rw [← hread, ← List.map_append]
    exact T.amount_perm op ((List.filter_append_perm _ flat).map _).symm
  rw [hsplit, hconstants]
  generalize (flat.filter fun e => !e.isConstant) = terms at hterms
  split
  · next h =>
      simp only [Bool.and_eq_true, beq_iff_eq, List.any_map, List.any_eq_true,
        Function.comp_apply, zero_eq, beq_real] at h
      obtain ⟨rfl, x, hx, rfl⟩ := h
      rw [T.amount_zero (List.mem_append_left _ (List.mem_map_of_mem hx))]
      exact .pure zero_reads
  · split
    · next h =>
        rw [List.isEmpty_iff.mp h, List.map_nil, List.append_nil, T.amount_numbers,
          op.combine_map_real]
        exact constant_reads _
    · rw [op.combine_map_real]
      refine .bind (addConstant_reads (T := T) op _ hterms) ?_
      intro fs hboth
      obtain ⟨hfs, hamount⟩ := hboth
      rw [← T.amount_cons_amount, T.amount_numbers, ← hamount]
      split
      · exact .pure (single_reads (by decide) hfs)
      · exact .pure (single_reads (by decide) hfs)
      · exact new_assoc_reads hfs

/-- Constants that are folded amount to what the operation on them does. -/
theorem fold_assoc_reads {op : AssocOp} {args : List (Formula PartialReal)} {v : PartialReal}
    (hargs : ∀ e ∈ args, K e) (hfold : foldConstants (.assoc op args) = some v) :
    YieldsFrom n₀ (constant v) (T.Reads (T.amount op (args.map T.read))) := by
  have hconst : ∀ e ∈ args, e.isConstant = true := by
    by_contra hnot
    simp [foldConstants, Shape.children] at hfold
    exact hnot hfold.1
  obtain ⟨xs, hxs, hread⟩ := exists_constants (T := T) hargs
  rw [List.filter_eq_self.mpr hconst] at hread
  have hvalues : values (fun _ => undefined) args = xs.map real := by
    rw [values_eq_map, ← hxs]
    clear hxs hread hfold hargs
    induction args with
    | nil => rfl
    | cons e es ih =>
        obtain ⟨w, hw⟩ := Option.isSome_iff_exists.mp (hconst e List.mem_cons_self)
        rw [List.map_cons, ih fun d hd => hconst d (List.mem_cons_of_mem e hd),
          List.filterMap_cons_some hw, value_of_asConstant hw]
  have hv := value_of_foldConstants hfold (fun _ => undefined) 0
  rw [value, hvalues, op.apply_map_real] at hv
  rw [hread, T.amount_numbers, ← hv]
  exact constant_reads _

/-- The factories of sums, products and lengths can be read as well. -/
theorem assoc_reads (op : AssocOp) {args : List (Formula PartialReal)}
    (hargs : ∀ e ∈ args, K e) :
    YieldsFrom n₀ (assoc op args) (T.Reads (T.amount op (args.map T.read))) := by
  rw [assoc, build]
  cases hfold : foldConstants (.assoc op args) with
  | some v => exact fold_assoc_reads hargs hfold
  | none =>
      rw [assocRule]
      by_cases hcanonical : isCanonical op args = true
      · rw [if_pos hcanonical]
        exact new_assoc_reads hargs
      · rw [if_neg hcanonical]
        exact flatten_reads op hargs

/-! ## Squares -/

/-- The formulas are read as the squares of what the others are read as. -/
def AreSquares (T : Tally n₀ K β) (es fs : List (Formula PartialReal)) : Prop :=
  (∀ f ∈ fs, K f) ∧ fs.map T.read = es.map fun e => T.square (T.read e)

/-- Squares are read as squares, if each of them is. -/
theorem squares_read_of {es : List (Formula PartialReal)}
    (h : ∀ e ∈ es, YieldsFrom n₀ (Formula.square e) (T.Reads (T.square (T.read e)))) :
    YieldsFrom n₀ (squares es) (T.AreSquares es) := by
  induction es with
  | nil => exact .pure ⟨by simp, rfl⟩
  | cons e es ih =>
      rw [squares]
      refine .bind (h e List.mem_cons_self) ?_
      intro s hs
      refine .bind (ih fun d hd => h d (List.mem_cons_of_mem e hd)) ?_
      intro ss hboth
      obtain ⟨hall, hsquares⟩ := hboth
      refine .pure ⟨by simpa using ⟨hs.holds, hall⟩, ?_⟩
      rw [List.map_cons, hsquares, hs.read_eq, List.map_cons]

/-- A square is read as the square, by recursion over the factors of a product. -/
theorem square_reads {e : Formula PartialReal} (he : K e) :
    YieldsFrom n₀ (Formula.square e) (T.Reads (T.square (T.read e))) := by
  induction e using inductionOnRefs with
  | h id shape ih =>
      have hnew : YieldsFrom n₀ (new (.unary .square (node id shape)))
          (T.Reads (T.square (T.read (node id shape)))) :=
        .new fun _ hid => ⟨T.closed.square hid he, T.read_square hid he⟩
      cases shape with
      | const v =>
          obtain ⟨x, rfl⟩ := T.closed.exists_real he
          rw [T.read_const, T.square_number]
          exact constant_reads _
      | assoc op args =>
          cases op with
          | hypot =>
              rw [Formula.square, T.read_assoc he, T.square_length, List.map_map]
              refine .bind (squares_read_of fun e h => ih e h (T.closed.args he e h)) ?_
              intro fs hboth
              obtain ⟨hfs, hsquares⟩ := hboth
              have hsum := assoc_reads (T := T) .add hfs
              rwa [hsquares] at hsum
          | add => exact hnew
          | multiply => exact hnew
      | _ => exact hnew

end Tally

end Formula

end FormulaGraph
