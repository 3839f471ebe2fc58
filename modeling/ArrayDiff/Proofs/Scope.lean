import ArrayDiff.Span.Scope
import ArrayDiff.Proofs.Derivative
import ArrayDiff.Proofs.Span

/-!
# Ranges of expressions hold values

A scope binds the variables of an environment to ranges of integers. Narrowing it by a condition that holds keeps every
variable in its range (`Scope.Binds.narrow`), so that the range of an expression holds its value for every kind of value
that operators keep in ranges (`Expr.enclosed`), and every performed read is accounted for.
-/

open ArrayDiff.Expr

namespace ArrayDiff

variable {K : Type} [Field K] [LinearOrder K] [IsStrictOrderedRing K] [FloorRing K] [Transcendental K]

open Exact

namespace Scope

section Ranges

variable {α : Type} [Scalar α] {s : Scope (Exact K)} {env : Env α}

/-- Every variable of the scope has an integer value in its range. -/
structure Binds (s : Scope (Exact K)) (env : Env α) : Prop where
  vars {x : Name} {r : Span (Exact K)} :
    (x, r) ∈ s.vars.entries → ∃ n : Int, env.var x = Scalar.ofInt n ∧ r.Holds (n : K)
  rvars {x : Name} {r : Span (Exact K)} :
    (x, r) ∈ s.rvars.entries → ∃ n : Int, env.rvar x = Scalar.ofInt n ∧ r.Holds (n : K)

omit [IsStrictOrderedRing K] in
theorem Binds.isReachable (h : s.Binds env) : s.isReachable = true := by
  have nonempty : ∀ r ∈ s.vars.values ++ s.rvars.values, Span.isEmpty r = false := by
    intro r mem
    simp only [Table.values, List.mem_append, List.mem_map] at mem
    rcases mem with ⟨⟨x, r⟩, mem, rfl⟩ | ⟨⟨x, r⟩, mem, rfl⟩
    · obtain ⟨n, -, held⟩ := h.vars mem
      exact held.not_isEmpty
    · obtain ⟨n, -, held⟩ := h.rvars mem
      exact held.not_isEmpty
  unfold Scope.isReachable
  rw [Bool.not_eq_true', List.any_eq_false]
  intro r mem
  rw [nonempty r mem]
  exact Bool.false_ne_true

omit [Field K] [IsStrictOrderedRing K] [FloorRing K] [Transcendental K] in
theorem above_min_both {v : K} {a b : Exact K} (ha : Above v a) (hb : Above v b) : Above v (a.min b) := by
  have both := above_min ha hb
  rwa [min_self] at both

omit [Field K] [IsStrictOrderedRing K] [FloorRing K] [Transcendental K] in
theorem below_max_both {v : K} {a b : Exact K} (ha : Below v a) (hb : Below v b) : Below v (a.max b) := by
  have both := below_max ha hb
  rwa [max_self] at both

/-- The integer may compare with `c` like this, which nothing is known about if `c` is undefined. -/
def Allows (op : Comparison) (c : Exact K) (n : Int) : Prop := op.holds (number (n : K)) c = true ∨ c = undefined

omit [IsStrictOrderedRing K] in
theorem holds_restrictSpan_undefined {r : Span (Exact K)} {op : Comparison} {v : K} (h : r.Holds v) :
    (restrictSpan op undefined r).Holds v := by
  have lower : Exact.max r.lo undefined = r.lo := by
    cases r.lo <;> rfl
  have upper : Exact.min r.hi undefined = r.hi := by
    cases r.hi <;> rfl
  cases op with
  | lt | le => exact ⟨h.lo, (congrArg (Above v) upper).mpr h.hi⟩
  | gt | ge => exact ⟨(congrArg (Below v) lower).mpr h.lo, h.hi⟩
  | eq => exact ⟨(congrArg (Below v) lower).mpr h.lo, (congrArg (Above v) upper).mpr h.hi⟩
  | ne => exact h

theorem holds_restrictSpan {r : Span (Exact K)} {op : Comparison} {c : Exact K} {n : Int} (h : r.Holds (n : K))
    (allowed : Allows op c n) : (restrictSpan op c r).Holds (n : K) := by
  rcases allowed with cond | rfl
  swap
  · exact holds_restrictSpan_undefined h
  have least (below : Below (n : K) c) : Below (n : K) (Extended.ceil c) := by
    cases c with
    | number x => exact Int.cast_le.mpr (Int.ceil_le.mpr below)
    | bottom => trivial
    | top | undefined => exact below.elim
  have greatest (above : Above (n : K) c) : Above (n : K) (Scalar.floor c) := by
    cases c with
    | number x => exact Int.cast_le.mpr (Int.le_floor.mpr above)
    | top => trivial
    | bottom | undefined => exact above.elim
  cases op with
  | lt =>
    refine ⟨h.lo, above_min_both h.hi ?_⟩
    cases c with
    | number x =>
      have bound : n ≤ ⌈x⌉ - 1 := Int.le_sub_one_of_lt (Int.lt_ceil.mpr (of_decide_eq_true cond))
      have cast : (n : K) ≤ ((⌈x⌉ - 1 : ℤ) : K) := Int.cast_le.mpr bound
      rw [Span.one_eq]
      change (n : K) ≤ (⌈x⌉ : K) + -1
      push_cast at cast
      linarith
    | top => trivial
    | bottom | undefined => cases cond
  | gt =>
    refine ⟨below_max_both h.lo ?_, h.hi⟩
    cases c with
    | number x =>
      have bound : ⌊x⌋ + 1 ≤ n := Int.floor_lt.mpr (of_decide_eq_true cond)
      have cast : ((⌊x⌋ + 1 : ℤ) : K) ≤ (n : K) := Int.cast_le.mpr bound
      rw [Span.one_eq]
      change (⌊x⌋ : K) + 1 ≤ (n : K)
      push_cast at cast
      exact cast
    | bottom => trivial
    | top | undefined => cases cond
  | le => exact ⟨h.lo, above_min_both h.hi (greatest (Span.above_of_lessEq cond))⟩
  | ge => exact ⟨below_max_both h.lo (least (Span.below_of_lessEq cond)), h.hi⟩
  | eq =>
    have same : number (n : K) = c := Span.eq_of_equal_number cond
    subst same
    exact ⟨below_max_both h.lo (least (le_refl (n : K))), above_min_both h.hi (greatest (le_refl (n : K)))⟩
  | ne => exact h

theorem mem_modify {A B : Type} [DecidableEq A] {t : Table A B} {a x : A} {f : B → B} {b : B}
    (h : (x, b) ∈ (t.modify a f).entries) : ∃ b', (x, b') ∈ t.entries ∧ b = if x = a then f b' else b' := by
  obtain ⟨⟨k, b'⟩, mem, same⟩ := List.mem_map.mp h
  dsimp only at same
  split at same
  · rename_i at'
    obtain ⟨rfl, rfl⟩ := Prod.mk.inj same
    exact ⟨b', mem, (if_pos at').symm⟩
  · rename_i off
    obtain ⟨rfl, rfl⟩ := Prod.mk.inj same
    exact ⟨b', mem, (if_neg off).symm⟩

theorem Binds.restrictVar [Embed (Exact K) α] {ρ : Valuation α} {op : Comparison} {c : Exact K} {e : Expr (Exact K)}
    (h : s.Binds env) (allowed : ∀ n : Int, e.value ρ env = Scalar.ofInt n → Allows op c n) :
    (s.restrictVar op c e).Binds env := by
  unfold Scope.restrictVar
  split
  · rename_i x
    refine ⟨fun {y r} mem => ?_, h.rvars⟩
    obtain ⟨r', before, rfl⟩ := mem_modify mem
    obtain ⟨n, value, held⟩ := h.vars before
    refine ⟨n, value, ?_⟩
    split
    · rename_i same
      exact holds_restrictSpan held (allowed n (by rw [Expr.value_var, ← same, value]))
    · exact held
  · rename_i x
    refine ⟨h.vars, fun {y r} mem => ?_⟩
    obtain ⟨r', before, rfl⟩ := mem_modify mem
    obtain ⟨n, value, held⟩ := h.rvars before
    refine ⟨n, value, ?_⟩
    split
    · rename_i same
      exact holds_restrictSpan held (allowed n (by rw [Expr.value_rvar, ← same, value]))
    · exact held
  · exact h

end Ranges

end Scope

namespace Comparison

variable {op op' : Comparison} {x : K} {a b c : Exact K}

omit [IsStrictOrderedRing K] in
theorem holds_flip (op : Comparison) (a b : Exact K) : op.flip.holds a b = op.holds b a := by
  have symm : a.equal b = b.equal a := by
    cases a <;> cases b <;> simp [Exact.equal, eq_comm]
  cases op with
  | eq => exact symm
  | ne => exact congrArg (!·) symm
  | _ => rfl

omit [IsStrictOrderedRing K] in
theorem holds_negate (found : op.negate? = some op') (fails : op.holds (number x) c = false) :
    op'.holds (number x) c = true ∨ c = undefined := by
  cases c with
  | number y =>
    left
    rw [holds_number] at fails ⊢
    cases op <;> cases found <;> simp_all [holds, Scalar.less, Scalar.lessEq, Scalar.equal]
  | undefined => exact Or.inr rfl
  | top | bottom =>
    left
    cases op <;> cases found <;> first | rfl | cases fails

theorem negate?_flip (found : op.negate? = some op') : op.flip.negate? = some op'.flip := by
  cases op <;> cases found <;> rfl

end Comparison

/-! ### Conditions -/

/-- Truth values are told apart, and the constants with `P` compare with coordinates as they do among constants. -/
structure Faithful (α : Type) [Scalar α] [Embed (Exact K) α] (P : Exact K → Prop) : Prop where
  truth (b : Bool) : Scalar.isZero (Scalar.ofBool b : α) = !b
  left {c : Exact K} (op : Comparison) (n : Int) : P c →
    op.holds (Embed.embed c : α) (Scalar.ofInt n) = op.holds c (number (n : K))
  right {c : Exact K} (op : Comparison) (n : Int) : P c →
    op.holds (Scalar.ofInt n : α) (Embed.embed c) = op.holds (number (n : K)) c

section Conditions

variable {α : Type} [Scalar α] [Embed (Exact K) α] {P : Exact K → Prop} {s : Scope (Exact K)} {ρ : Valuation α}
  {env : Env α}

namespace Scope

/-- A comparison that comes out as said narrows the scope, in the form in which it bounds variables. -/
theorem Binds.compare (faithful : Faithful α P) {op op' : Comparison} {a b : Expr (Exact K)} (h : s.Binds env)
    (constants : ∀ c, const c ∈ (Expr.compare op a b).nodes → P c) {holds : Bool}
    (said : holds = true ∧ op' = op ∨ holds = false ∧ op.negate? = some op')
    (cond : op.holds (a.value ρ env) (b.value ρ env) = holds) : (s.compare op' a b).Binds env := by
  have allows {op op' : Comparison} (said : holds = true ∧ op' = op ∨ holds = false ∧ op.negate? = some op')
      {c : Exact K} {n : Int} (cond : op.holds (number (n : K)) c = holds) : Allows op' c n := by
    rcases said with ⟨rfl, rfl⟩ | ⟨rfl, found⟩
    · exact Or.inl cond
    · exact Comparison.holds_negate found cond
  unfold Scope.compare
  split
  · rename_i c
    refine h.restrictVar (ρ := ρ) fun n value => allows said ?_
    rw [← faithful.right op n (constants c (by simp [nodes])), ← value]
    exact cond
  · rename_i c _
    refine h.restrictVar (ρ := ρ) fun n value => @allows op.flip op'.flip ?_ c n ?_
    · rcases said with ⟨yes, rfl⟩ | ⟨no, found⟩
      · exact Or.inl ⟨yes, rfl⟩
      · exact Or.inr ⟨no, Comparison.negate?_flip found⟩
    · rw [Comparison.holds_flip, ← faithful.left op n (constants c (by simp [nodes])), ← value]
      exact cond
  · exact h

/-- A condition narrows the ranges of the variables around the values that decide it. -/
theorem Binds.narrow (faithful : Faithful α P) {c : Expr (Exact K)} {holds : Bool} (h : s.Binds env)
    (constants : ∀ k, const k ∈ c.nodes → P k) (decided : Scalar.isZero (c.value ρ env) = !holds) :
    (s.narrow c holds).Binds env := by
  have zero : Scalar.isZero (Scalar.zero : α) = true := faithful.truth false
  have one : Scalar.isZero (Scalar.one : α) = false := faithful.truth true
  induction c generalizing s holds with
  | and a b iha ihb =>
    have inA (k : Exact K) (mem : const k ∈ a.nodes) : P k := constants k (by simp [nodes, mem])
    have inB (k : Exact K) (mem : const k ∈ b.nodes) : P k := constants k (by simp [nodes, mem])
    cases holds with
    | false => exact h
    | true =>
      rw [value_and] at decided
      split at decided
      · rw [zero] at decided
        cases decided
      · rename_i nonzero
        have first : (s.narrow a true).Binds env := iha h inA (by simpa using nonzero)
        have second : ((s.narrow a true).narrow b true).Binds env :=
          ihb first inB (by simpa [faithful.truth] using decided)
        exact second
  | or a b iha ihb =>
    have inA (k : Exact K) (mem : const k ∈ a.nodes) : P k := constants k (by simp [nodes, mem])
    have inB (k : Exact K) (mem : const k ∈ b.nodes) : P k := constants k (by simp [nodes, mem])
    cases holds with
    | true => exact h
    | false =>
      rw [value_or] at decided
      split at decided
      · rename_i nothing
        have first : (s.narrow a false).Binds env := iha h inA (by simpa using nothing)
        have second : ((s.narrow a false).narrow b false).Binds env :=
          ihb first inB (by simpa [faithful.truth] using decided)
        exact second
      · rw [one] at decided
        cases decided
  | not a ih =>
    rw [value_not, faithful.truth] at decided
    refine ih h (fun k mem => constants k (List.mem_cons_of_mem _ mem)) ?_
    rw [Bool.not_not]
    exact Bool.not_inj decided
  | compare op a b =>
    rw [value_compare, faithful.truth] at decided
    have cond := Bool.not_inj decided
    cases holds with
    | true => exact h.compare faithful constants (Or.inl ⟨rfl, rfl⟩) cond
    | false =>
      unfold Scope.narrow
      cases found : op.negate? with
      | none => exact h
      | some op' => exact h.compare faithful constants (Or.inr ⟨rfl, found⟩) cond
  | _ => cases holds <;> exact h

end Scope

/-! ### Expressions -/

/-- What it takes for ranges to hold the values of a kind that are defined. -/
structure Enclosing (α : Type) [Scalar α] [Embed (Exact K) α] (defined : α → Prop)
    (holds : Span (Exact K) → α → Prop) : Prop where
  nonempty {s : Span (Exact K)} {v : α} : holds s v → s.isEmpty = false
  unbounded {v : α} : defined v → holds .unbounded v
  const {c : Exact K} : c.isNumber = true → holds (.point c) (Embed.embed c)
  integer {s : Span (Exact K)} {n : Int} : s.Holds (n : K) → holds s (Scalar.ofInt n)
  truth (b : Bool) : holds ⟨Scalar.zero, Scalar.one⟩ (Scalar.ofBool b)
  union {s t : Span (Exact K)} {v : α} : holds s v ∨ holds t v → holds (s.union t) v
  unary (op : UnaryOp) {s : Span (Exact K)} {v : α} : holds s v → defined (op.apply v) →
    (op = .log → Scalar.less Scalar.zero v = true) → (op = .sqrt → Scalar.lessEq Scalar.zero v = true) →
    holds (s.unary op) (op.apply v)
  binary (op : BinaryOp) {s t : Span (Exact K)} {v w : α} : holds s v → holds t w → defined (op.apply v w) →
    holds (s.binary op t) (op.apply v w)

namespace Expr

/-- Evaluation meets defined values only, and takes logarithms of positive values and roots of values that are not
negative. -/
structure WellDefined (defined : α → Prop) (ρ : Valuation α) (env : Env α) (e : Expr (Exact K)) : Prop where
  defined {x : Expr (Exact K)} : Visits ρ env e x → defined (x.value ρ env)
  log {a : Expr (Exact K)} : Visits ρ env e (unary .log a) → Scalar.less Scalar.zero (a.value ρ env) = true
  sqrt {a : Expr (Exact K)} : Visits ρ env e (unary .sqrt a) → Scalar.lessEq Scalar.zero (a.value ρ env) = true

omit [Field K] [LinearOrder K] [IsStrictOrderedRing K] [FloorRing K] [Transcendental K] in
theorem WellDefined.mono {defined : α → Prop} {e e' : Expr (Exact K)} (h : e.WellDefined defined ρ env)
    (wider : ∀ x, Visits ρ env e' x → Visits ρ env e x) : e'.WellDefined defined ρ env :=
  ⟨fun visit => h.defined (wider _ visit), fun visit => h.log (wider _ visit), fun visit => h.sqrt (wider _ visit)⟩

/-- The range of an expression holds its value. -/
theorem enclosed {defined : α → Prop} {holds : Span (Exact K) → α → Prop} (enclosing : Enclosing α defined holds)
    (faithful : Faithful α fun c : Exact K => c.isNumber = true) {e : Expr (Exact K)} (binds : s.Binds env)
    (constants : ∀ c, const c ∈ e.nodes → c.isNumber = true) (wellDefined : e.WellDefined defined ρ env) :
    holds (e.span s) (e.value ρ env) := by
  induction e generalizing s with
  | const c => exact enclosing.const (constants c (mem_nodes_self _))
  | var x =>
    unfold span Table.get?
    cases found : s.vars.entries.find? fun entry => decide (entry.1 = x) with
    | none => exact enclosing.unbounded (wellDefined.defined (.self _))
    | some entry =>
      have name : entry.1 = x := by simpa using List.find?_some found
      obtain ⟨n, value, held⟩ := binds.vars (List.mem_of_find?_eq_some found)
      rw [value_var, ← name, value]
      exact enclosing.integer held
  | rvar x =>
    unfold span Table.get?
    cases found : s.rvars.entries.find? fun entry => decide (entry.1 = x) with
    | none => exact enclosing.unbounded (wellDefined.defined (.self _))
    | some entry =>
      have name : entry.1 = x := by simpa using List.find?_some found
      obtain ⟨n, value, held⟩ := binds.rvars (List.mem_of_find?_eq_some found)
      rw [value_rvar, ← name, value]
      exact enclosing.integer held
  | param _ | call _ _ _ | load _ _ _ => exact enclosing.unbounded (wellDefined.defined (.self _))
  | unary op a ih =>
    have held := ih binds (fun c mem => constants c (List.mem_cons_of_mem _ mem))
      (wellDefined.mono fun _ => Visits.unary)
    unfold span
    simp only [enclosing.nonempty held, Bool.false_eq_true, if_false]
    refine enclosing.unary op held (wellDefined.defined (.self _)) (fun log => ?_) fun sqrt => ?_
    · exact wellDefined.log (log ▸ Visits.self _)
    · exact wellDefined.sqrt (sqrt ▸ Visits.self _)
  | binary op a b iha ihb =>
    have left := iha binds (fun c mem => constants c (by simp [nodes, mem]))
      (wellDefined.mono fun _ => Visits.binaryLeft)
    have right := ihb binds (fun c mem => constants c (by simp [nodes, mem]))
      (wellDefined.mono fun _ => Visits.binaryRight)
    unfold span
    simp only [enclosing.nonempty left, enclosing.nonempty right, Bool.or_false, Bool.false_eq_true, if_false]
    exact enclosing.binary op left right (wellDefined.defined (.self _))
  | compare op a b => exact enclosing.truth _
  | and a b =>
    rw [value_and]
    split
    · exact enclosing.truth false
    · exact enclosing.truth _
  | or a b =>
    rw [value_or]
    split
    · exact enclosing.truth _
    · exact enclosing.truth true
  | not a => exact enclosing.truth _
  | select c t f ihc iht ihf =>
    have inC (k : Exact K) (mem : const k ∈ c.nodes) : k.isNumber = true := constants k (by simp [nodes, mem])
    unfold span
    simp only
    rw [value_select]
    cases zero : Scalar.isZero (c.value ρ env) with
    | true =>
      have taken : (s.narrow c false).Binds env := binds.narrow faithful inC zero
      rw [if_pos taken.isReachable, if_pos rfl]
      exact enclosing.union (Or.inr (ihf taken (fun k mem => constants k (by simp [nodes, mem]))
        (wellDefined.mono fun _ => Visits.onFalse zero)))
    | false =>
      have taken : (s.narrow c true).Binds env := binds.narrow faithful inC zero
      rw [if_pos taken.isReachable, if_neg Bool.false_ne_true]
      exact enclosing.union (Or.inl (iht taken (fun k mem => constants k (by simp [nodes, mem]))
        (wellDefined.mono fun _ => Visits.onTrue zero)))

end Expr

end Conditions

/-! ### Numbers -/

omit [IsStrictOrderedRing K] in
theorem faithful_number : Faithful K fun c : Exact K => c.isNumber = true where
  truth b := by cases b <;> simp
  left {c} op n number := by
    cases c with
    | number x => exact (Comparison.holds_number op x (n : K)).symm
    | _ => cases number
  right {c} op n number := by
    cases c with
    | number x => exact (Comparison.holds_number op (n : K) x).symm
    | _ => cases number

theorem enclosing_number : Enclosing K (fun _ => True) (fun (s : Span (Exact K)) v => s.Holds v) where
  nonempty held := held.not_isEmpty
  unbounded _ := Span.holds_unbounded _
  const {c} number := by
    cases c with
    | number x => exact Span.holds_point x
    | _ => cases number
  integer held := held
  truth b := by
    rw [Span.zero_eq, Span.one_eq, exact_ofBool]
    cases b
    · exact ⟨le_refl 0, zero_le_one⟩
    · exact ⟨zero_le_one, le_refl 1⟩
  union := Span.holds_union
  unary op _ _ held _ positive nonneg :=
    held.unary op (fun log => by simpa [Scalar.less] using positive log)
      fun sqrt => by simpa [Scalar.lessEq] using nonneg sqrt
  binary op _ _ _ _ left right _ := left.binary op right

namespace Expr

variable {s : Scope (Exact K)} {ρ : Valuation K} {env : Env K} {Q : Atom → Prop}

/-- Evaluation takes logarithms of positive numbers only, and roots of numbers that are not negative. -/
structure Regular (ρ : Valuation K) (env : Env K) (e : Expr (Exact K)) : Prop where
  log {a : Expr (Exact K)} : Visits ρ env e (unary .log a) → 0 < a.value ρ env
  sqrt {a : Expr (Exact K)} : Visits ρ env e (unary .sqrt a) → 0 ≤ a.value ρ env

omit [IsStrictOrderedRing K] in
theorem Plain.constants {e : Expr (Exact K)} (plain : e.Plain ρ env Q) (c : Exact K) (mem : const c ∈ e.nodes) :
    c.isNumber = true := plain _ mem

theorem holds_span {e : Expr (Exact K)} (binds : s.Binds env) (plain : e.Plain ρ env Q) (regular : e.Regular ρ env) :
    (e.span s).Holds (e.value ρ env) :=
  enclosed enclosing_number faithful_number binds plain.constants ⟨fun _ => trivial,
    fun visit => by simpa [Scalar.less] using regular.log visit,
    fun visit => by simpa [Scalar.lessEq] using regular.sqrt visit⟩

/-- Index arguments of performed reads are regular. -/
def RegularIndices (ρ : Valuation K) (env : Env K) (e : Expr (Exact K)) : Prop :=
  ∀ x r, Visits ρ env e x → x.read? = some r → ∀ a ∈ r.args, a.Regular ρ env

/-- An access to what `r` reads, with ranges that hold the values of its arguments. -/
def Covers (ρ : Valuation K) (env : Env K) (r : Read (Exact K)) (access : Access (Exact K)) : Prop :=
  access.read = r ∧ List.Forall₂ (fun (range : Span (Exact K)) a => range.Holds (a.value ρ env)) access.spans r.args

theorem covers_args {t : Target} {args : List (Expr (Exact K))} (binds : s.Binds env)
    (plain : ∀ a ∈ args, a.Plain ρ env Q) (regular : ∀ a ∈ args, a.Regular ρ env) :
    Covers ρ env ⟨t, args⟩ ⟨⟨t, args⟩, args.map (span s)⟩ := by
  refine ⟨rfl, ?_⟩
  rw [List.forall₂_map_left_iff, List.forall₂_same]
  exact fun a mem => holds_span binds (plain a mem) (regular a mem)

/-- Every read that is performed is among the accesses. -/
theorem covers_of_visits {e x : Expr (Exact K)} {r : Read (Exact K)} (binds : s.Binds env) (plain : e.Plain ρ env Q)
    (regular : ∀ a ∈ r.args, a.Regular ρ env) (visit : Visits ρ env e x) (read : x.read? = some r) :
    ∃ access ∈ e.accesses s, Covers ρ env r access := by
  induction e generalizing s with
  | const _ | var _ | rvar _ =>
    cases visit
    cases read
  | param p =>
    cases visit
    cases read
    exact ⟨_, List.mem_singleton_self _, rfl, List.Forall₂.nil⟩
  | call f args ih =>
    rw [plain_call] at plain
    cases visit with
    | self =>
      cases read
      exact ⟨_, List.mem_cons_self, covers_args binds plain.2 regular⟩
    | call mem inner =>
      obtain ⟨access, listed, covers⟩ := ih _ mem binds (plain.2 _ mem) inner
      refine ⟨access, List.mem_cons_of_mem _ ?_, covers⟩
      rw [accessesList_eq_flatMap]
      exact List.mem_flatMap.mpr ⟨_, mem, listed⟩
  | load b args ih =>
    rw [plain_load] at plain
    cases visit with
    | self =>
      cases read
      exact ⟨_, List.mem_cons_self, covers_args binds plain.2 regular⟩
    | load mem inner =>
      obtain ⟨access, listed, covers⟩ := ih _ mem binds (plain.2 _ mem) inner
      refine ⟨access, List.mem_cons_of_mem _ ?_, covers⟩
      rw [accessesList_eq_flatMap]
      exact List.mem_flatMap.mpr ⟨_, mem, listed⟩
  | unary op a ih =>
    rw [plain_unary] at plain
    cases visit with
    | self => cases read
    | unary inner => exact ih binds plain inner
  | not a ih =>
    rw [plain_not] at plain
    cases visit with
    | self => cases read
    | not inner => exact ih binds plain inner
  | binary op a b iha ihb =>
    rw [plain_binary] at plain
    cases visit with
    | self => cases read
    | binaryLeft inner =>
      obtain ⟨access, listed, covers⟩ := iha binds plain.1 inner
      exact ⟨access, List.mem_append_left _ listed, covers⟩
    | binaryRight inner =>
      obtain ⟨access, listed, covers⟩ := ihb binds plain.2 inner
      exact ⟨access, List.mem_append_right _ listed, covers⟩
  | compare op a b iha ihb =>
    rw [plain_compare] at plain
    cases visit with
    | self => cases read
    | compareLeft inner =>
      obtain ⟨access, listed, covers⟩ := iha binds plain.1 inner
      exact ⟨access, List.mem_append_left _ listed, covers⟩
    | compareRight inner =>
      obtain ⟨access, listed, covers⟩ := ihb binds plain.2 inner
      exact ⟨access, List.mem_append_right _ listed, covers⟩
  | and a b iha ihb =>
    rw [plain_and] at plain
    cases visit with
    | self => cases read
    | andLeft inner =>
      obtain ⟨access, listed, covers⟩ := iha binds plain.2.1 inner
      exact ⟨access, List.mem_append_left _ listed, covers⟩
    | andRight nonzero inner =>
      obtain ⟨access, listed, covers⟩ := ihb binds plain.2.2 inner
      exact ⟨access, List.mem_append_right _ listed, covers⟩
  | or a b iha ihb =>
    rw [plain_or] at plain
    cases visit with
    | self => cases read
    | orLeft inner =>
      obtain ⟨access, listed, covers⟩ := iha binds plain.2.1 inner
      exact ⟨access, List.mem_append_left _ listed, covers⟩
    | orRight zero inner =>
      obtain ⟨access, listed, covers⟩ := ihb binds plain.2.2 inner
      exact ⟨access, List.mem_append_right _ listed, covers⟩
  | select c t f ihc iht ihf =>
    rw [plain_select] at plain
    unfold accesses
    simp only
    cases visit with
    | self => cases read
    | condition inner =>
      obtain ⟨access, listed, covers⟩ := ihc binds plain.1 inner
      exact ⟨access, List.mem_append_left _ listed, covers⟩
    | onTrue nonzero inner =>
      have taken : (s.narrow c true).Binds env := binds.narrow faithful_number plain.1.constants nonzero
      obtain ⟨access, listed, covers⟩ := iht taken plain.2.1 inner
      refine ⟨access, List.mem_append_right _ (List.mem_append_left _ ?_), covers⟩
      rwa [if_pos taken.isReachable]
    | onFalse zero inner =>
      have taken : (s.narrow c false).Binds env := binds.narrow faithful_number plain.1.constants zero
      obtain ⟨access, listed, covers⟩ := ihf taken plain.2.2 inner
      refine ⟨access, List.mem_append_right _ (List.mem_append_right _ ?_), covers⟩
      rwa [if_pos taken.isReachable]

end Expr

end ArrayDiff
