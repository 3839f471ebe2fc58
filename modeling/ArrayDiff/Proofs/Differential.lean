import ArrayDiff.Proofs.Agreement
import ArrayDiff.Proofs.DualScalar
import ArrayDiff.Proofs.Partials

/-!
# Derivatives where changes are known

Simplification and the forward rule make nothing fail that can be evaluated: a simplified expression can be evaluated
where the expression can (`Expr.computes_simplify`), and the tangent where the changes of the reads that count are known
(`Expr.value?_tangent`).
-/

open ArrayDiff.Expr

namespace ArrayDiff

open TrivSqZeroExt (inl)

section Nodes

variable {κ α : Type} [Scalar α] [Embed κ α] {P : Answers α} {ρ : Valuation α} {env : Env α} {a b c t f e : Expr κ}

namespace Expr

theorem value?_of_computes (ext : P.ExtendedBy ρ) (he : e.Computes P env) :
    e.value? P env = some (e.value ρ env) := by
  obtain ⟨v, value⟩ := Option.isSome_iff_exists.mp he
  rw [value, value_of_value? ext value]

theorem computes_compare {op : Comparison} :
    (Expr.compare op a b).Computes P env ↔ a.Computes P env ∧ b.Computes P env := by
  change ((a.value? P env).bind fun x => (b.value? P env).bind fun y => some _).isSome ↔ _
  unfold Computes
  cases a.value? P env <;> cases b.value? P env <;> simp

theorem computes_not : (Expr.not a).Computes P env ↔ a.Computes P env := by
  change ((a.value? P env).bind fun x => some _).isSome ↔ _
  unfold Computes
  cases a.value? P env <;> simp

theorem computes_and (ext : P.ExtendedBy ρ) : (Expr.and a b).Computes P env ↔
    a.Computes P env ∧ (Scalar.isZero (a.value ρ env) = false → b.Computes P env) := by
  change ((a.value? P env).bind fun x => if Scalar.isZero x then some _ else
    (b.value? P env).bind fun y => some _).isSome ↔ _
  unfold Computes
  cases value : a.value? P env with
  | none => simp
  | some x =>
    rw [value_of_value? ext value]
    by_cases zero : Scalar.isZero x <;> cases b.value? P env <;> simp [zero]

theorem computes_or (ext : P.ExtendedBy ρ) : (Expr.or a b).Computes P env ↔
    a.Computes P env ∧ (Scalar.isZero (a.value ρ env) = true → b.Computes P env) := by
  change ((a.value? P env).bind fun x => if Scalar.isZero x then
    (b.value? P env).bind fun y => some _ else some _).isSome ↔ _
  unfold Computes
  cases value : a.value? P env with
  | none => simp
  | some x =>
    rw [value_of_value? ext value]
    by_cases zero : Scalar.isZero x <;> cases b.value? P env <;> simp [zero]

theorem computes_select (ext : P.ExtendedBy ρ) : (Expr.select c t f).Computes P env ↔
    c.Computes P env ∧ (Scalar.isZero (c.value ρ env) = false → t.Computes P env) ∧
      (Scalar.isZero (c.value ρ env) = true → f.Computes P env) := by
  change ((c.value? P env).bind fun x => if Scalar.isZero x then f.value? P env else t.value? P env).isSome ↔ _
  unfold Computes
  cases value : c.value? P env with
  | none => simp
  | some x =>
    rw [value_of_value? ext value]
    by_cases zero : Scalar.isZero x <;> simp [zero]

theorem position?_isSome_iff {args : List (Expr κ)} :
    (position? P env args).isSome ↔ ∀ a ∈ args, a.Computes P env := by
  induction args with
  | nil => exact iff_of_true rfl fun _ none => absurd none List.not_mem_nil
  | cons a args ih =>
    rw [List.forall_mem_cons, ← ih]
    change ((a.value? P env).bind fun x => (position? P env args).bind fun rest => some _).isSome ↔ _
    unfold Computes
    cases a.value? P env <;> cases position? P env args <;> simp

theorem computes_read {answer : List Int → Option α} (ext : P.ExtendedBy ρ) {args : List (Expr κ)} :
    ((position? P env args).bind answer).isSome ↔
      (∀ a ∈ args, a.Computes P env) ∧ (answer (position ρ env args)).isSome := by
  rw [← position?_isSome_iff]
  cases found : position? P env args with
  | none => simp
  | some p =>
    rw [position_of_position? ext found]
    simp

end Expr

end Nodes

/-! ### Simplification -/

variable {K : Type} [Field K] [LinearOrder K] [FloorRing K] [Transcendental K]

section Simplified

variable {P : Answers K} {ρ : Valuation K} {env : Env K} {Q : Atom → Prop} {a b c t f e : Expr (Exact K)} {x y : K}

namespace Smart

theorem computes_choice (ext : P.ExtendedBy ρ) (repr : c.Represents ρ env Q x) (hc : c.Computes P env)
    (onTrue : x ≠ 0 → t.Computes P env) (onFalse : x = 0 → f.Computes P env) : (select c t f).Computes P env := by
  unfold select
  split
  · rename_i k found
    obtain rfl := repr.const? found
    rw [number_isZero]
    split
    · rename_i zero
      exact onFalse (of_decide_eq_true zero)
    · rename_i nonzero
      exact onTrue fun zero => nonzero (decide_eq_true zero)
  split
  · rename_i same
    by_cases zero : x = 0
    · rw [eq_of_same same]
      exact onFalse zero
    · exact onTrue zero
  · refine (Expr.computes_select ext).mpr ⟨hc, fun nonzero => onTrue ?_, fun zero => onFalse ?_⟩
    · simpa [repr.value] using nonzero
    · simpa [repr.value] using zero

theorem computes_and (ext : P.ExtendedBy ρ) (repr : a.Represents ρ env Q x) (ha : a.Computes P env)
    (hb : x ≠ 0 → b.Computes P env) : (and a b).Computes P env := by
  unfold and
  split
  · exact .const _
  split
  · rename_i holds
    exact hb (of_isTrue repr holds)
  split
  · exact ha
  · refine (Expr.computes_and ext).mpr ⟨ha, fun nonzero => hb ?_⟩
    simpa [repr.value] using nonzero

theorem computes_or (ext : P.ExtendedBy ρ) (repr : a.Represents ρ env Q x) (ha : a.Computes P env)
    (hb : x = 0 → b.Computes P env) : (or a b).Computes P env := by
  unfold or
  split
  · exact .const _
  split
  · rename_i fails
    exact hb (repr.of_isZero fails)
  split
  · exact ha
  · refine (Expr.computes_or ext).mpr ⟨ha, fun zero => hb ?_⟩
    simpa [repr.value] using zero

theorem computes_not (ha : a.Computes P env) : (not a).Computes P env := by
  unfold not
  split
  · exact .const _
  · exact Expr.computes_not.mpr ha

theorem computes_node (op : BinaryOp) (ha : a.Computes P env) (hb : b.Computes P env) :
    (binary op a b).Computes P env := by
  have folded (op : BinaryOp) : (foldOnly op a b).Computes P env := by
    unfold foldOnly
    split
    · exact .const _
    · exact computes_binary.mpr ⟨ha, hb⟩
  cases op with
  | add => exact computes_add ha hb
  | sub => exact computes_sub ha hb
  | mul => exact computes_mul ha hb
  | div => exact computes_div ha hb
  | pow => exact computes_pow ha hb
  | min | max => exact folded _

end Smart

namespace Expr

theorem computes_simplify (ext : P.ExtendedBy ρ) (strict : ¬Q .logic) (plain : e.Plain ρ env Q)
    (he : e.Computes P env) : e.simplify.Computes P env := by
  have args {answer : List Int → Option K} {args : List (Expr (Exact K))}
      (ih : ∀ a ∈ args, a.Plain ρ env Q → a.Computes P env → a.simplify.Computes P env)
      (plain : ∀ a ∈ args, a.Plain ρ env Q) (he : ((position? P env args).bind answer).isSome) :
      ((position? P env (args.map simplify)).bind answer).isSome := by
    obtain ⟨inner, answered⟩ := (computes_read ext).mp he
    refine (computes_read ext).mpr ⟨fun a mem => ?_, ?_⟩
    · obtain ⟨a, listed, rfl⟩ := List.mem_map.mp mem
      exact ih a listed (plain a listed) (inner a listed)
    · rwa [show position ρ env (args.map simplify) = position ρ env args by
        unfold position
        rw [List.map_map]
        exact List.map_congr_left fun a mem => congrArg Scalar.index (value_simplify strict (plain a mem))]
  induction e with
  | const _ | var _ | rvar _ | param _ => exact he
  | call f as ih =>
    rw [simplify, simplifyList_eq_map]
    exact args (fun a mem plain he => ih a mem plain he) ((plain_call ..).mp plain).2 he
  | load b as ih =>
    rw [simplify, simplifyList_eq_map]
    exact args (fun a mem plain he => ih a mem plain he) ((plain_load ..).mp plain).2 he
  | unary op a ih => exact Smart.computes_unary (ih ((plain_unary ..).mp plain) (computes_unary.mp he)) op
  | not a ih => exact Smart.computes_not (ih ((plain_not ..).mp plain) (computes_not.mp he))
  | binary op a b iha ihb =>
    obtain ⟨plainA, plainB⟩ := (plain_binary ..).mp plain
    obtain ⟨left, right⟩ := computes_binary.mp he
    exact Smart.computes_node op (iha plainA left) (ihb plainB right)
  | compare op a b iha ihb =>
    obtain ⟨plainA, plainB⟩ := (plain_compare ..).mp plain
    obtain ⟨left, right⟩ := computes_compare.mp he
    exact Smart.computes_compare (iha plainA left) (ihb plainB right) op
  | and a b iha ihb =>
    obtain ⟨-, plainA, plainB⟩ := (plain_and ..).mp plain
    obtain ⟨left, right⟩ := (computes_and ext).mp he
    refine Smart.computes_and ext (represents_simplify strict plainA) (iha plainA left) fun nonzero => ?_
    exact ihb plainB (right (by simpa using nonzero))
  | or a b iha ihb =>
    obtain ⟨-, plainA, plainB⟩ := (plain_or ..).mp plain
    obtain ⟨left, right⟩ := (computes_or ext).mp he
    refine Smart.computes_or ext (represents_simplify strict plainA) (iha plainA left) fun zero => ?_
    exact ihb plainB (right (by simpa using zero))
  | select c t f ihc iht ihf =>
    obtain ⟨plainC, plainT, plainF⟩ := (plain_select ..).mp plain
    obtain ⟨condition, onTrue, onFalse⟩ := (computes_select ext).mp he
    refine Smart.computes_choice ext (represents_simplify strict plainC) (ihc plainC condition) (fun nonzero => ?_)
      fun zero => ?_
    · exact iht plainT (onTrue (by simpa using nonzero))
    · exact ihf plainF (onFalse (by simpa using zero))

end Expr

end Simplified

/-! ### Derivatives -/

namespace Expr

section Definition

variable (ρ : Valuation K) (env : Env K) (τ : Target → Contents K)

/-- The derivative along the changes `τ`, if those of the reads that count are known. -/
def derivative? : Expr (Exact K) → Option K
  | const _ | var _ | rvar _ => some 0
  | param p => τ (.param p) []
  | call f args => τ (.func f) (position ρ env args)
  | load b args => τ (.buffer b) (position ρ env args)
  | unary op a => a.derivative?.map (op.rate (a.value ρ env) * ·)
  | binary op a b => a.derivative?.bind fun x => b.derivative?.map fun y =>
    (op.rates (a.value ρ env) (b.value ρ env)).1 * x + (op.rates (a.value ρ env) (b.value ρ env)).2 * y
  | compare .. | and .. | or .. | not _ => some 0
  | select c t f => if c.value ρ env = 0 then f.derivative? else t.derivative?

end Definition

variable {ρ ρ' : Valuation K} {env : Env K} {τ τ' : Target → Contents K} {e : Expr (Exact K)}

/-- Where it is known it is the derivative along all changes that agree with the known ones. -/
theorem derivative_of_derivative? {changes : Target → List Int → K} (agree : ∀ u q v, τ u q = some v → changes u q = v)
    {v : K} (known : e.derivative? ρ env τ = some v) : e.derivative ρ env changes = v := by
  induction e generalizing v with
  | const _ | var _ | rvar _ | compare _ _ _ | and _ _ | or _ _ | not _ => exact Option.some.inj known
  | param _ | call _ _ | load _ _ => exact agree _ _ _ known
  | unary op a ih =>
    obtain ⟨x, inner, rfl⟩ := Option.map_eq_some_iff.mp known
    rw [derivative, ih inner]
  | binary op a b iha ihb =>
    obtain ⟨x, left, known⟩ := Option.bind_eq_some_iff.mp known
    obtain ⟨y, right, rfl⟩ := Option.map_eq_some_iff.mp known
    rw [derivative, iha left, ihb right]
  | select c t f _ iht ihf =>
    rw [derivative?] at known
    rw [derivative]
    split at known
    · rename_i zero
      rw [if_pos zero, ihf known]
    · rename_i nonzero
      rw [if_neg nonzero, iht known]

theorem derivative?_congr (values : ∀ a ∈ e.nodes, a.value ρ env = a.value ρ' env)
    (moves : ∀ r ∈ e.reads, τ r.target (position ρ env r.args) = τ' r.target (position ρ env r.args)) :
    e.derivative? ρ env τ = e.derivative? ρ' env τ' := by
  have own {e : Expr (Exact K)} {r : Read (Exact K)} (read : e.read? = some r) : r ∈ e.reads :=
    List.mem_filterMap.mpr ⟨e, mem_nodes_self e, read⟩
  have positions {f : Expr (Exact K)} {args : List (Expr (Exact K))} (inside : ∀ a ∈ args, ∀ x ∈ a.nodes, x ∈ f.nodes)
      (values : ∀ a ∈ f.nodes, a.value ρ env = a.value ρ' env) : position ρ env args = position ρ' env args :=
    List.map_congr_left fun a mem => congrArg Scalar.index (values a (inside a mem a (mem_nodes_self a)))
  induction e with
  | const _ | var _ | rvar _ | compare _ _ _ | and _ _ | or _ _ | not _ => rfl
  | param p => exact moves ⟨.param p, []⟩ (own rfl)
  | call f args =>
    rw [derivative?, derivative?, moves ⟨.func f, args⟩ (own rfl), positions (fun a mem x hx => ?_) values]
    exact List.mem_cons_of_mem _ (mem_nodesList.mpr ⟨a, mem, hx⟩)
  | load b args =>
    rw [derivative?, derivative?, moves ⟨.buffer b, args⟩ (own rfl), positions (fun a mem x hx => ?_) values]
    exact List.mem_cons_of_mem _ (mem_nodesList.mpr ⟨a, mem, hx⟩)
  | unary op a ih =>
    rw [derivative?, derivative?, values a (by simp [nodes, mem_nodes_self]),
      ih (fun x mem => values x (by simp [nodes, mem])) fun r mem => moves r (mem_reads_unary mem)]
  | binary op a b iha ihb =>
    rw [derivative?, derivative?, values a (by simp [nodes, mem_nodes_self]),
      values b (by simp [nodes, mem_nodes_self]),
      iha (fun x mem => values x (by simp [nodes, mem])) fun r mem => moves r (mem_reads_binary (Or.inl mem)),
      ihb (fun x mem => values x (by simp [nodes, mem])) fun r mem => moves r (mem_reads_binary (Or.inr mem))]
  | select c t f _ iht ihf =>
    rw [derivative?, derivative?, values c (by simp [nodes, mem_nodes_self]),
      iht (fun x mem => values x (by simp [nodes, mem])) fun r mem => moves r (mem_reads_select (Or.inl mem)),
      ihf (fun x mem => values x (by simp [nodes, mem])) fun r mem => moves r (mem_reads_select (Or.inr mem))]

theorem derivative?_eq_zero (still : ∀ r ∈ e.reads, ∀ q v, τ r.target q = some v → v = 0) {v : K}
    (known : e.derivative? ρ env τ = some v) : v = 0 := by
  have agree : ∀ u q v, τ u q = some v → (τ u q).getD 0 = v := fun u q v same => by rw [same]; rfl
  have total := derivative_of_derivative? agree known
  rw [← total]
  refine derivative_eq_zero fun r mem q => ?_
  cases found : τ r.target q with
  | none => rfl
  | some v => exact still r mem q v found

/-- Evaluation over dual numbers knows the changes of what it reads, and its change is the derivative along them. -/
theorem derivative?_of_dual {P : Answers (DualNumber K)} (ext : P.primal.ExtendedBy ρ) {w : DualNumber K}
    (value : e.value? P env.lift = some w) : e.derivative? ρ env P.change = some w.snd := by
  have first {a : Expr (Exact K)} {x : DualNumber K} (value : a.value? P env.lift = some x) :
      a.value ρ env = x.fst := value_of_value? ext (value?_primal value)
  have bound {l : List (Name × K)} {x : Name} {w : DualNumber K}
      (found : ((l.map (Prod.map id inl)).lookup x).elim none some = some w) : w.snd = 0 := by
    rw [lookup_map_inl] at found
    cases own : l.lookup x with
    | none =>
      rw [own] at found
      cases found
    | some y =>
      rw [own] at found
      obtain rfl := Option.some.inj found
      rfl
  have read {args : List (Expr (Exact K))} {answer : Contents (DualNumber K)} {w : DualNumber K}
      (value : (position? P env.lift args).bind answer = some w) :
      answer.change (position ρ env args) = some w.snd := by
    obtain ⟨p, found, answered⟩ := Option.bind_eq_some_iff.mp value
    rw [position_of_position? ext (position?_primal found)]
    exact Option.map_eq_some_iff.mpr ⟨w, answered, rfl⟩
  induction e generalizing w with
  | const c =>
    obtain rfl := Option.some.inj value
    rfl
  | var x => exact congrArg some (bound value).symm
  | rvar x => exact congrArg some (bound value).symm
  | param p =>
    change (if ([] : List Int) = [] then (P.param p).map TrivSqZeroExt.snd else none) = _
    rw [if_pos rfl]
    exact Option.map_eq_some_iff.mpr ⟨w, value, rfl⟩
  | call f args => exact read value
  | load b args => exact read value
  | unary op a ih =>
    obtain ⟨x, inner, applied⟩ := Option.bind_eq_some_iff.mp value
    obtain rfl := Option.some.inj applied
    rw [derivative?, ih inner, first inner, UnaryOp.apply_dual, UnaryOp.snd_lift]
    rfl
  | binary op a b iha ihb =>
    obtain ⟨x, left, value⟩ := Option.bind_eq_some_iff.mp value
    obtain ⟨y, right, applied⟩ := Option.bind_eq_some_iff.mp value
    obtain rfl := Option.some.inj applied
    rw [derivative?, iha left, ihb right, first left, first right, BinaryOp.apply_dual, BinaryOp.snd_lift]
    rfl
  | compare op a b =>
    obtain ⟨x, -, value⟩ := Option.bind_eq_some_iff.mp value
    obtain ⟨y, -, applied⟩ := Option.bind_eq_some_iff.mp value
    obtain rfl := Option.some.inj applied
    simp [derivative?]
  | and a b =>
    obtain ⟨x, -, value⟩ := Option.bind_eq_some_iff.mp value
    split at value
    · obtain rfl := Option.some.inj value
      rfl
    · obtain ⟨y, -, applied⟩ := Option.bind_eq_some_iff.mp value
      obtain rfl := Option.some.inj applied
      simp [derivative?]
  | or a b =>
    obtain ⟨x, -, value⟩ := Option.bind_eq_some_iff.mp value
    split at value
    · obtain ⟨y, -, applied⟩ := Option.bind_eq_some_iff.mp value
      obtain rfl := Option.some.inj applied
      simp [derivative?]
    · obtain rfl := Option.some.inj value
      rfl
  | not a =>
    obtain ⟨x, -, applied⟩ := Option.bind_eq_some_iff.mp value
    obtain rfl := Option.some.inj applied
    simp [derivative?]
  | select c t f _ iht ihf =>
    obtain ⟨x, condition, value⟩ := Option.bind_eq_some_iff.mp value
    rw [dual_isZero, exact_isZero, ← first condition] at value
    rw [derivative?]
    split at value
    · rename_i zero
      rw [if_pos (of_decide_eq_true zero)]
      exact ihf value
    · rename_i nonzero
      rw [if_neg fun zero => nonzero (decide_eq_true zero)]
      exact iht value

/-! ### The forward rule -/

section Forward

variable {P : Answers K} {Q Q' : Atom → Prop} {direction : Read (Exact K) → Option (Expr (Exact K))}

theorem computes_tangent (ext : P.ExtendedBy ρ) (strict : ¬Q .logic) (plain : e.Plain ρ env Q) (he : e.Computes P env)
    (moves : ∀ r : Read (Exact K), (∀ a ∈ r.args, a.Computes P env) →
      ∀ v, τ r.target (position ρ env r.args) = some v → ((direction r).getD .zero).Computes P env)
    {v : K} (known : e.derivative? ρ env τ = some v) : (e.tangent direction).Computes P env := by
  induction e generalizing v with
  | const _ | var _ | rvar _ | compare _ _ _ | and _ _ | or _ _ | not _ => exact .const _
  | param p => exact moves ⟨.param p, []⟩ (fun a none => absurd none List.not_mem_nil) v known
  | call f args => exact moves ⟨.func f, args⟩ ((computes_read ext).mp he).1 v known
  | load b args => exact moves ⟨.buffer b, args⟩ ((computes_read ext).mp he).1 v known
  | unary op a ih =>
    obtain ⟨x, inner, -⟩ := Option.map_eq_some_iff.mp known
    have operand := computes_unary.mp he
    exact Smart.computes_mul (op.computes_slope operand) (ih ((plain_unary ..).mp plain) operand inner)
  | binary op a b iha ihb =>
    obtain ⟨plainA, plainB⟩ := (plain_binary ..).mp plain
    obtain ⟨x, left, known⟩ := Option.bind_eq_some_iff.mp known
    obtain ⟨y, right, -⟩ := Option.map_eq_some_iff.mp known
    obtain ⟨computesA, computesB⟩ := computes_binary.mp he
    have slopes := op.computes_slopes computesA computesB
    exact Smart.computes_add (Smart.computes_mul slopes.1 (iha plainA computesA left))
      (Smart.computes_mul slopes.2 (ihb plainB computesB right))
  | select c t f _ iht ihf =>
    obtain ⟨plainC, plainT, plainF⟩ := (plain_select ..).mp plain
    obtain ⟨condition, onTrue, onFalse⟩ := (computes_select ext).mp he
    rw [derivative?] at known
    refine Smart.computes_choice ext (represents_simplify strict plainC)
      (computes_simplify ext strict plainC condition) (fun nonzero => ?_) fun zero => ?_
    · rw [if_neg nonzero] at known
      exact iht plainT (onTrue (by simpa using nonzero)) known
    · rw [if_pos zero] at known
      exact ihf plainF (onFalse (by simpa using zero)) known

/-- Where an expression can be evaluated and its derivative along the changes of the directions is known, the tangent is
evaluated to that derivative. -/
theorem value?_tangent (ext : P.ExtendedBy ρ) (strict : ¬Q' .logic) (plain : e.Plain ρ env Q)
    (wider : ∀ a, Q a → Q' a) (he : e.Computes P env) {changes : Target → List Int → K}
    (directions : ∀ r : Read (Exact K), Q (.target r.target) → (∀ a ∈ r.args, a.Plain ρ env Q) →
      ((direction r).getD .zero).Represents ρ env Q' (changes r.target (position ρ env r.args)))
    (moves : ∀ r : Read (Exact K), (∀ a ∈ r.args, a.Computes P env) →
      ∀ v, τ r.target (position ρ env r.args) = some v → ((direction r).getD .zero).Computes P env)
    (agree : ∀ u q v, τ u q = some v → changes u q = v) {v : K} (known : e.derivative? ρ env τ = some v) :
    (e.tangent direction).simplify.value? P env = some v := by
  have tangent := represents_tangent strict plain wider directions
  have computes := computes_tangent ext (fun loose => strict (wider _ loose)) plain he moves known
  rw [value?_of_computes ext (computes_simplify ext strict tangent.plain computes),
    (tangent.simplify strict).value, derivative_of_derivative? agree known]

end Forward

end Expr

end ArrayDiff
